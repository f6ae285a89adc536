import Mihini.Telnet.EditMode
import Mihini.Telnet.LineMode

/-!
# Telnet commands

The commands of a client do not reach the shell, in every session in which the interpreter reads well what
it gets: the lines, or what the line editor gets, are the text of the stream.
-/

namespace Mihini.Telnet

open Mihini.Lib List
open Place (run AllFit MayEnd Ready Settled)

/-! ## The buffer between calls -/

def Place.stored (q : Place) : ReadBuffer := ⟨!q.kept.isEmpty, [], q.kept⟩

theorem length_feed (b : ReadBuffer) (bytes : Option (List Nat)) :
    (b.feed bytes).rest.length = b.rest.length + (bytes.getD []).length := by
  cases bytes with
  | none => rfl
  | some bytes =>
    rw [ReadBuffer.feed]
    split
    · rename_i hrest
      rw [hrest]
      exact (Nat.zero_add _).symm
    · exact length_append

theorem feed_stored (q : Place) (bytes : Option (List Nat)) :
    (q.stored.feed bytes).rest = q.kept ++ bytes.getD [] ∧
      ((q.stored.feed bytes).allocated = true → q.kept ≠ []) := by
  cases bytes with
  | none =>
    refine ⟨(append_nil _).symm, fun halloc hkept => ?_⟩
    rw [ReadBuffer.feed, Place.stored, hkept] at halloc
    nomatch halloc
  | some bytes =>
    rw [ReadBuffer.feed]
    by_cases hkept : q.kept = []
    · have hrest : q.stored.rest = [] := hkept
      rw [if_pos hrest, hkept]
      exact ⟨rfl, nofun⟩
    · have hrest : q.stored.rest ≠ [] := hkept
      rw [if_neg hrest]
      exact ⟨rfl, fun _ => hkept⟩

theorem store_read (q : Place) (allocated : Bool) (h : allocated = true → q.kept = []) :
    ReadBuffer.store ⟨allocated, q.kept, []⟩ = q.stored := by
  rw [ReadBuffer.store, Place.stored]
  cases allocated with
  | true =>
    rw [h rfl]
    rfl
  | false =>
    cases hkept : q.kept with
    | nil => rfl
    | cons b bytes =>
      rw [if_pos ⟨nofun, rfl⟩, append_nil]
      rfl

theorem store_rest {rest : List Nat} (hrest : rest ≠ []) (allocated : Bool) :
    ReadBuffer.store ⟨allocated, [], rest⟩ = ⟨allocated, [], rest⟩ := by
  rw [ReadBuffer.store, if_neg fun h => h.1 rfl, if_neg fun h => hrest h.2.1]

/-! ## Calls of the interpreter -/

section

variable {editor : Editor} {mode : EditMode} {p q : Place} {ts : TelnetState}
  {bytes : Option (List Nat)}

/-- The loop of a mode. -/
theorem lInterpret_read (editor : Editor) (hp : Ready p) (hmode : ts.editmode = mode)
    (hfit : AllFit mode p (ts.input.feed bytes).rest)
    (hend : mode = .edit → MayEnd .edit .text (run .edit p (ts.input.feed bytes).rest).1) :
    ∃ r, Read editor mode p { ts with input := ts.input.feed bytes } r ∧
      ts.lInterpret editor bytes =
        match r with
        | .ok (cmd, ts) => .ok (ts.finish editor cmd)
        | .error fault => .error fault := by
  rw [TelnetState.lInterpret]
  cases mode with
  | line =>
    refine ⟨_, processlinemode_read editor hp hmode hfit, ?_⟩
    simp only [hmode] <;> rfl
  | edit =>
    refine ⟨_, processeditmode_read editor hp hmode hfit (hend rfl), ?_⟩
    simp only [hmode] <;> rfl

/-- What a call of the interpreter does with its bytes: it takes all of them, or some and is to be called
again. -/
inductive Called (mode : EditMode) (p : Place) (ts : TelnetState) (b : ReadBuffer) :
    Result (Interpreted × TelnetState) → Prop where
  | last (i : Interpreted) (ts' : TelnetState) (hagain : i.again = false)
    (hsettled : Settled mode (run mode p b.rest).1) (hmode : ts'.editmode = mode)
    (hinput : ts'.input = (run mode p b.rest).1.stored)
    (htold : Says mode (run mode p b.rest).2 ts i.signal.toList ts') : Called mode p ts b (.ok (i, ts'))
  | again (read rest : List Nat) (i : Interpreted) (ts' : TelnetState) (hagain : i.again = true)
    (hread : read ++ rest = b.rest) (hne : read ≠ []) (hready : Ready (run mode p read).1)
    (hmode : ts'.editmode = mode) (hinput : ts'.input = ⟨b.allocated, [], rest⟩)
    (htold : Says mode (run mode p read).2 ts i.signal.toList ts') : Called mode p ts b (.ok (i, ts'))

theorem lInterpret_called (editor : Editor) (hp : Ready p) (hmode : ts.editmode = mode)
    (hfit : AllFit mode p (ts.input.feed bytes).rest)
    (hend : mode = .edit → MayEnd .edit .text (run .edit p (ts.input.feed bytes).rest).1)
    (hkept : (ts.input.feed bytes).allocated = true → (run mode p (ts.input.feed bytes).rest).1.kept = []) :
    Called mode p ts (ts.input.feed bytes) (ts.lInterpret editor bytes) := by
  obtain ⟨r, hread, hcall⟩ := lInterpret_read editor hp hmode hfit hend
  rw [hcall]
  generalize ts.input.feed bytes = b at *
  cases hread with
  | eos ts' hsettled hinput hmode' htold =>
    obtain ⟨out, input, editmode, line, typed, displaysize⟩ := ts'
    obtain rfl : editmode = mode := hmode'.trans hmode
    obtain rfl : input = ⟨b.allocated, (run editmode p b.rest).1.kept, []⟩ := hinput
    have hstore := store_read _ _ hkept
    cases editmode with
    | line => exact .last _ _ rfl hsettled rfl hstore htold
    | edit => exact .last _ _ rfl hsettled rfl hstore htold
  | command read rest cmd ts' hread hne hready hcmd hrest halloc hmode' htold =>
    obtain ⟨out, ⟨allocated, marked, rest'⟩, editmode, line, typed, displaysize⟩ := ts'
    obtain rfl : editmode = mode := hmode'.trans hmode
    obtain rfl : rest' = rest := hrest
    obtain rfl : allocated = b.allocated := halloc
    replace hread : read ++ rest' = b.rest := hread
    simp only [TelnetState.finish, if_neg hcmd, ReadBuffer.readMark] at htold ⊢
    cases rest' with
    | nil =>
      rw [append_nil] at hread
      subst hread
      refine .last _ _ rfl (Place.settled_of_ready hready) rfl ?_ htold
      have hstore := store_read (run editmode p b.rest).1 b.allocated fun _ => Place.kept_of_ready hready
      rwa [Place.kept_of_ready hready] at hstore
    | cons c more =>
      have hstore := store_rest (cons_ne_nil c more) b.allocated
      exact .again read (c :: more) _ _ rfl hread hne hready rfl hstore htold

theorem kept_of_mayEnd (h : MayEnd .edit p q) : q.kept = [] := by
  cases q with
  | text | inside => rfl
  | iac | option | sb | insideIac | cr => exact h.elim

/-- The calls of the interpreter for some bytes. -/
theorem interpret_read (editor : Editor) (hsettled : Settled mode q) (hmode : ts.editmode = mode) (hinput : ts.input = q.stored)
    (hfit : AllFit mode q (bytes.getD [])) (hend : MayEnd mode q (run mode q (bytes.getD [])).1) :
    ∃ ts' signals, interpret editor ts bytes = .ok (ts', signals) ∧ ts'.editmode = mode ∧
      Settled mode (run mode q (bytes.getD [])).1 ∧
      ts'.input = (run mode q (bytes.getD [])).1.stored ∧
      Says mode (run mode q (bytes.getD [])).2 ts signals ts' := by
  obtain ⟨p, hp, hkept, hfitKept⟩ := hsettled
  obtain ⟨hrest, halloc⟩ := feed_stored q bytes
  rw [← hinput] at hrest halloc
  have hrun : run mode p (ts.input.feed bytes).rest = run mode q (bytes.getD []) := by
    rw [hrest, Place.run_append, hkept]
    rfl
  have hloop := loop_rule (fun s => s.1.size + (s.2.1.getD []).length) (interpretTurn editor)
    (I := fun p s => Ready p ∧ s.1.editmode = mode ∧ AllFit mode p (s.1.input.feed s.2.1).rest ∧
      (mode = .edit → MayEnd .edit .text (run .edit p (s.1.input.feed s.2.1).rest).1) ∧
      ((s.1.input.feed s.2.1).allocated = true → (run mode p (s.1.input.feed s.2.1).rest).1.kept = []))
    (Q := fun p s r => ∃ ts' signals, r = .ok (ts', s.2.2 ++ signals) ∧ ts'.editmode = mode ∧
      Settled mode (run mode p (s.1.input.feed s.2.1).rest).1 ∧
      ts'.input = (run mode p (s.1.input.feed s.2.1).rest).1.stored ∧
      Says mode (run mode p (s.1.input.feed s.2.1).rest).2 s.1 signals ts')
    ?_ (i := p) (s := (ts, bytes, [])) ⟨hp, hmode, ?_, ?_, ?_⟩
  · obtain ⟨r, hr, ts', signals, rfl, hmode', hsettled', hinput', htold⟩ := hloop
    rw [hrun] at hsettled' hinput' htold
    refine ⟨ts', signals, ?_, hmode', hsettled', hinput', htold⟩
    rw [interpret, hr]
    rfl
  · rintro p ⟨ts, bytes, signals⟩ ⟨hp, hmode, hfit, hend, hkept⟩
    have hcalled := lInterpret_called editor hp hmode hfit hend hkept
    have hsize := length_feed ts.input bytes
    replace hfit : AllFit mode p (ts.input.feed bytes).rest := hfit
    rw [interpretTurn]
    generalize ts.lInterpret editor bytes = r at hcalled
    generalize ts.input.feed bytes = b at *
    cases hcalled with
    | last i ts' hagain hsettled hmode' hinput htold =>
      exact Or.inr ⟨_, if_neg (Bool.eq_false_iff.mp hagain), ts', _, rfl, hmode', hsettled, hinput, htold⟩
    | again read rest i ts' hagain hread hne hready hmode' hinput htold =>
      have hfeed : ts'.input.feed none = ⟨b.allocated, [], rest⟩ := hinput
      have hplace : ∀ mode, run mode p b.rest = ((run mode (run mode p read).1 rest).1,
          (run mode p read).2 ++ (run mode (run mode p read).1 rest).2) := by
        intro mode
        rw [← hread, Place.run_append]
      rw [hplace] at hend hkept
      rw [← hread] at hfit
      refine Or.inl ⟨(ts', none, signals ++ i.signal.toList), (run mode p read).1, if_pos hagain, ?_, ?_, ?_⟩
      · have hpos := length_pos_iff.mpr hne
        rw [← hread, length_append] at hsize
        show ts'.input.rest.length + 0 < ts.input.rest.length + (bytes.getD []).length
        rw [hinput]
        show rest.length + 0 < _
        omega
      · rw [hfeed]
        refine ⟨hready, hmode', (Place.allFit_append.mp hfit).2, fun hedit => ?_, hkept⟩
        subst hedit
        exact hend rfl
      · rintro r ⟨ts'', signals', rfl, hmode'', hsettled, hinput', htold'⟩
        rw [hfeed] at hsettled hinput' htold'
        refine ⟨ts'', i.signal.toList ++ signals', ?_, hmode'', ?_⟩
        · rw [append_assoc]
        · rw [hplace]
          exact ⟨hsettled, hinput', htold.trans htold'⟩
  · rw [hrest]
    refine Place.allFit_append.mpr ⟨hfitKept, ?_⟩
    rw [hkept]
    exact hfit
  · rintro rfl
    rw [hrun]
    exact hend
  · intro htrue
    rw [hrun]
    cases mode with
    | line => exact hend.resolve_left (halloc htrue)
    | edit => exact kept_of_mayEnd hend

end

/-! ## Sessions -/

structure World where
  ts : TelnetState
  signals : List Signal
  received : List Nat
  fault : Option Fault
  deriving DecidableEq

def World.init (mode : EditMode) : World := ⟨newinterpreter mode, [], [], none⟩

def step (editor : Editor) (w : World) (bytes : Option (List Nat)) : World :=
  match w.fault with
  | some _ => w
  | none =>
    match interpret editor w.ts bytes with
    | .ok (ts, signals) =>
      { w with
        ts := ts
        signals := w.signals ++ signals
        received := w.received ++ bytes.getD [] }
    | .error fault =>
      { w with
        received := w.received ++ bytes.getD []
        fault := some fault }

namespace World

def read (w : World) : Place × List Item := run w.ts.editmode .text w.received

/-- The interpreter has not stopped, and the text of the stream, without the commands, is what came to
the shell and the line, or to the line editor. -/
structure Consumed (w : World) : Prop where
  running : w.fault = none
  text :
    match w.ts.editmode with
    | .line => w.read.2.foldl deliver ([], []) = (w.signals, w.ts.line)
    | .edit => w.ts.typed = w.read.2.flatMap keys

def Sound (w : World) (bytes : Option (List Nat)) : Prop :=
  AllFit w.ts.editmode w.read.1 (bytes.getD []) ∧
    MayEnd w.ts.editmode w.read.1 (run w.ts.editmode w.read.1 (bytes.getD [])).1

instance (w : World) (bytes : Option (List Nat)) : Decidable (w.Sound bytes) :=
  inferInstanceAs (Decidable (_ ∧ _))

structure Inv (mode : EditMode) (w : World) : Prop where
  running : w.fault = none
  editmode : w.ts.editmode = mode
  settled : Settled mode (run mode .text w.received).1
  input : w.ts.input = (run mode .text w.received).1.stored
  told : Says mode (run mode .text w.received).2 (newinterpreter mode) w.signals w.ts

theorem Inv.init (mode : EditMode) : Inv mode (init mode) where
  running := rfl
  editmode := rfl
  settled := Place.settled_of_ready (q := .text) trivial
  input := rfl
  told := by
    cases mode with
    | line => exact fun before => congrArg (·, []) (append_nil before).symm
    | edit => rfl

theorem Inv.step {editor : Editor} {mode : EditMode} {w : World} {bytes : Option (List Nat)}
    (h : Inv mode w) (hs : w.Sound bytes) : Inv mode (Telnet.step editor w bytes) := by
  obtain ⟨hfit, hend⟩ := hs
  rw [read, h.editmode] at hfit hend
  obtain ⟨ts', signals, hinterpret, hmode, hsettled, hinput, htold⟩ :=
    interpret_read editor h.settled h.editmode h.input hfit hend
  have hstep : Telnet.step editor w bytes =
      { w with
        ts := ts'
        signals := w.signals ++ signals
        received := w.received ++ bytes.getD [] } := by
    rw [Telnet.step, h.running]
    simp only [hinterpret]
  have hrun := Place.run_append mode .text w.received (bytes.getD [])
  rw [hstep]
  refine ⟨h.running, hmode, ?_, ?_, ?_⟩
  · rw [hrun]
    exact hsettled
  · rw [hrun]
    exact hinput
  · rw [hrun]
    exact h.told.trans htold

theorem Inv.consumed {mode : EditMode} {w : World} (h : Inv mode w) : w.Consumed := by
  refine ⟨h.running, ?_⟩
  have htold := h.told
  rw [read, h.editmode]
  cases mode with
  | line => exact htold []
  | edit => exact htold

end World

/-- No command reaches the shell or stops the interpreter, in every session in which all fragments are read
well. -/
theorem commands_consumed (editor : Editor) (mode : EditMode) {w : World}
    (h : Runs (step editor) World.Sound (World.init mode) w) : w.Consumed :=
  (h.invariant (fun _ _ hs hinv => hinv.step hs) (World.Inv.init mode)).consumed

def plainEditor : Editor where
  run typed := if typed.getLast? = some 13 then some .done else none
  getline typed := typed

/-- A window size that holds a doubled byte, an option and a line. -/
theorem commands_consumed_naws : ([none, some [255, 250, 31, 0, 255, 255, 0, 24, 255, 240, 111, 107],
    some [255, 253, 1, 13]].foldl (step plainEditor) (World.init .edit)).Consumed :=
  commands_consumed plainEditor .edit (Along.runs (by decide +kernel))

def terminalType : World :=
  step plainEditor (.init .line) (some [255, 250, 24, 0, 120, 255, 240, 111, 107, 10])

/-- The contents of an unknown sub-negotiation come with the line, and a window size of two bytes makes an
assertion fail. -/
theorem contents_delivered :
    ¬ terminalType.Consumed ∧
      (step plainEditor (.init .edit) (some [255, 250, 31, 0, 80, 255, 240, 97, 98, 99, 100])).fault =
        some .assertion := by
  refine ⟨fun h => ?_, by decide +kernel⟩
  have htext : terminalType.read.2.foldl deliver ([], []) =
      (terminalType.signals, terminalType.ts.line) := h.text
  exact absurd htext (by decide +kernel)

end Mihini.Telnet
