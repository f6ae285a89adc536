import Mihini.Serial.At

/-!
# Responses go to their command

The invariant of the reader and of the tasks, and the runs in which every event is sound.
-/

namespace Mihini.Serial

open Mihini.Lib

/-! ## The invariant -/

structure Run.Fresh (r : Run) : Prop where
  echoed : r.echoed = false
  pending : r.pending = none
  sent : r.sent = []
  ended : r.ended = false

inductive Serves : Reader → Run → Prop where
  | prompt {r : Run} {prompt : Str} (hprompt : r.call.prompt = some prompt) (hsent : r.sent = [])
      (hpending : r.pending = none) : Serves (.prompt r.call.nbLines prompt) r
  | finish {r : Run} {prompt : Str} (hsent : r.sent = []) (hpending : r.pending = some prompt) :
      Serves (.finish r.call.nbLines prompt) r
  | lines {r : Run} (hprompt : r.sent = [] → r.call.prompt = none) (hpending : r.pending = none) :
      Serves (.lines (r.call.nbLines.map (· - r.sent.length)) r.sent) r

structure Opened (s : State) (r : Run) : Prop where
  missed : ¬ r.Complete
  serves : r.echoed = true → Serves s.reader r
  fresh : r.echoed = false →
    r.Fresh ∧ s.cmdNbOfLines = r.call.nbLines ∧ s.waitForPrompt = r.call.prompt

structure Inv (s : State) : Prop where
  holds : ∀ k, ∀ r ∈ s.runs k, r.phase.Holds →
    s.holder = some k ∧ s.atCmdRunning = some r.call.command
  fresh : ∀ k, ∀ r ∈ s.runs k, r.phase = .locking → r.Fresh
  opened : ∀ k, ∀ r ∈ s.runs k, r.phase.IsOpen → Opened s r
  result : ∀ k, ∀ r ∈ s.runs k, ∀ result, r.phase = .answered result ∨ r.phase = .returned result →
    r.Complete ∧ result = r.expected

theorem Phase.IsOpen.holds {p : Phase} (h : p.IsOpen) : p.Holds := by
  cases p with
  | writing | waiting => trivial
  | locking | answered _ | returned _ | timedOut => exact h.elim

theorem Inv.correct {s : State} (h : Inv s) : Correct s where
  one k k' r hr r' hr' hk hk' :=
    Option.some.inj ((h.holds k r hr hk).1.symm.trans (h.holds k' r' hr' hk').1)
  result := h.result
  missed k r hr hopen := (h.opened k r hr hopen).missed

/-! ## What comes for a run -/

section

variable {s : State} {k : Nat} {r : Run} {text : Str} {o : Origin}

@[simp] theorem heard_call : (r.heard k text o).call = r.call := by
  unfold Run.heard
  split
  · split <;> rfl
  · split <;> rfl
  · rfl

@[simp] theorem heard_phase : (r.heard k text o).phase = r.phase := by
  unfold Run.heard
  split
  · split <;> rfl
  · split <;> rfl
  · rfl

@[simp] theorem signal_call (result : List Str) : (r.signal result).call = r.call := by
  unfold Run.signal
  split <;> rfl

/-- An answer that is complete stays so, and what is expected of it stays the same. -/
theorem complete_heard (he : Enabled s (.line text o)) (hr : r ∈ s.runs k) (hcomplete : r.Complete) :
    (r.heard k text o).Complete ∧ (r.heard k text o).expected = r.expected := by
  obtain ⟨hechoed, hcases⟩ := hcomplete
  cases o with
  | unsolicited => exact ⟨⟨hechoed, hcases⟩, rfl⟩
  | echo k' =>
    by_cases heq : k' = k
    · obtain ⟨r', hr', -, hnot, -⟩ := he
      subst heq
      obtain rfl := Option.some.inj (hr.symm.trans hr')
      rw [hechoed] at hnot
      cases hnot
    · have hheard : r.heard k text (.echo k') = r := if_neg heq
      rw [hheard]
      exact ⟨⟨hechoed, hcases⟩, rfl⟩
  | answer k' last =>
    by_cases heq : k' = k
    · obtain ⟨r', hr', -, hended⟩ := he
      subst heq
      obtain rfl := Option.some.inj (hr.symm.trans hr')
      rcases hcases with hends | ⟨n, hn, hle⟩
      · rw [hends] at hended
        cases hended
      have hheard : r.heard k' text (.answer k' last) = r.receive text last := if_pos rfl
      obtain ⟨l, hsent⟩ : ∃ l, (r.receive text last).sent = r.sent ++ l := ⟨_, rfl⟩
      rw [hheard]
      refine ⟨⟨hechoed, .inr ⟨n, hn, ?_⟩⟩, ?_⟩
      · rw [hsent, List.length_append]
        omega
      · unfold Run.expected
        rw [hsent, show (r.receive text last).call.nbLines = some n from hn, Option.mem_def.mp hn]
        exact List.take_append_of_le_length hle
    · have hheard : r.heard k text (.answer k' last) = r := if_neg heq
      rw [hheard]
      exact ⟨⟨hechoed, hcases⟩, rfl⟩

end

/-- A line of the answer either leaves the reader in the response or ends it with what is expected. -/
theorem insert_spec {r : Run} {line : Str} {last : Bool} (hechoed : r.echoed = true)
    (hmissed : ¬ r.Complete)
    (hsound : SoundInsert r (r.call.nbLines.map (· - r.sent.length)) line last) :
    match Reader.insert (r.call.nbLines.map (· - r.sent.length)) r.sent line with
    | (reader, none) =>
      ¬ { r with pending := none, sent := r.sent ++ [line], ended := last : Run }.Complete ∧
        Serves reader { r with pending := none, sent := r.sent ++ [line], ended := last }
    | (_, some result) => r.phase = .waiting ∧
      { r with pending := none, sent := r.sent ++ [line], ended := last : Run }.Complete ∧
      result = { r with pending := none, sent := r.sent ++ [line], ended := last : Run }.expected := by
  obtain ⟨hfinal, hwaits⟩ := hsound
  have hcount : ∀ n ∈ r.call.nbLines, r.sent.length < n := by
    intro n hn
    by_contra hle
    exact hmissed ⟨hechoed, .inr ⟨n, hn, Nat.not_lt.mp hle⟩⟩
  have hlast : lastLine (r.call.nbLines.map (· - r.sent.length)) = true ↔
      ∃ n ∈ r.call.nbLines, n ≤ r.sent.length + 1 := by
    unfold lastLine
    cases hnb : r.call.nbLines with
    | none => exact iff_of_false (by rintro ⟨⟩) (by rintro ⟨_, ⟨⟩, -⟩)
    | some n =>
      show decide (n - r.sent.length ≤ 1) = true ↔ _
      rw [decide_eq_true_eq]
      constructor
      · intro hle
        exact ⟨n, rfl, by omega⟩
      · rintro ⟨n', hn', hle⟩
        obtain rfl := Option.some.inj hn'
        omega
  unfold Reader.insert
  by_cases hdone : (isFinal (r.call.nbLines.map (· - r.sent.length)) line ||
      lastLine (r.call.nbLines.map (· - r.sent.length))) = true
  · rw [if_pos hdone]
    refine ⟨hwaits hdone, ⟨hechoed, ?_⟩, ?_⟩
    · rcases hfinal with hcounted | hfinal
      · obtain ⟨n, hn, hle⟩ := hlast.mp hcounted
        refine .inr ⟨n, hn, ?_⟩
        show n ≤ (r.sent ++ [line]).length
        rw [List.length_append]
        exact hle
      · rcases Bool.or_eq_true_iff.mp hdone with hends | hcounted
        · exact .inl (hfinal.symm.trans hends)
        · obtain ⟨n, hn, hle⟩ := hlast.mp hcounted
          refine .inr ⟨n, hn, ?_⟩
          show n ≤ (r.sent ++ [line]).length
          rw [List.length_append]
          exact hle
    · simp only [Run.expected]
      cases hnb : r.call.nbLines with
      | none => rfl
      | some n =>
        have hlt := hcount n hnb
        refine (List.take_of_length_le ?_).symm
        rw [List.length_append]
        exact hlt
  · rw [if_neg hdone]
    obtain ⟨hnot, hmore⟩ := Bool.or_eq_false_iff.mp (Bool.eq_false_iff.mpr hdone)
    constructor
    · rintro ⟨-, hends | ⟨n, hn, hle⟩⟩
      · rcases hfinal with hcounted | hfinal
        · rw [hcounted] at hmore
          cases hmore
        · rw [hfinal.symm.trans hnot] at hends
          cases hends
      · have hcounted := hlast.mpr ⟨n, hn, hle.trans_eq List.length_append⟩
        rw [hcounted] at hmore
        cases hmore
    · have hserves := Serves.lines
        (r := { r with pending := none, sent := r.sent ++ [line], ended := last })
        (fun hnil => absurd hnil (List.append_ne_nil_of_right_ne_nil _ (List.cons_ne_nil _ _))) rfl
      rw [Option.map_map]
      have hleft : ((fun n : Nat => n - 1) ∘ fun n : Nat => n - r.sent.length) =
          fun n => n - (r.sent ++ [line]).length := by
        funext n
        show n - r.sent.length - 1 = n - (r.sent ++ [line]).length
        rw [List.length_append]
        exact Nat.sub_sub _ _ _
      rw [hleft]
      exact hserves

/-! ## A line -/

section

variable {s : State} {k : Nat} {r : Run} {text : Str} {o : Origin}

theorem receive_nil (hpending : r.pending = none) (hended : r.ended = false) :
    r.receive [] false = r := by
  obtain ⟨call, phase, echoed, pending, sent, ended⟩ := r
  subst hpending hended
  show Run.mk call phase echoed none (sent ++ []) false = _
  rw [List.append_nil]

theorem heard_of_ne (hecho : o ≠ .echo k) (hanswer : ∀ last, o ≠ .answer k last) :
    r.heard k text o = r := by
  cases o with
  | unsolicited => rfl
  | echo k' => exact if_neg fun heq => hecho (congrArg Origin.echo heq)
  | answer k' last => exact if_neg fun heq => hanswer last (congrArg (Origin.answer · last) heq)

theorem heard_of_not_echoed (he : Enabled s (.line text o)) (hr : r ∈ s.runs k)
    (hechoed : r.echoed = false) (hecho : o ≠ .echo k) : r.heard k text o = r := by
  refine heard_of_ne hecho fun last heq => ?_
  subst heq
  obtain ⟨r', hr', hechoed', -⟩ := he
  obtain rfl := Option.some.inj (hr.symm.trans hr')
  rw [hechoed] at hechoed'
  cases hechoed'

theorem not_echo_of_echoed (he : Enabled s (.line text o)) (hr : r ∈ s.runs k)
    (hechoed : r.echoed = true) : o ≠ .echo k := by
  intro heq
  subst heq
  obtain ⟨r', hr', -, hnot, -⟩ := he
  obtain rfl := Option.some.inj (hr.symm.trans hr')
  rw [hechoed] at hnot
  cases hnot

def AfterLine (r r' : Run) : Reader × Option (List Str) → Prop
  | (reader, none) => ¬ r'.Complete ∧ (r'.echoed = true → Serves reader r') ∧
      (r'.echoed = false → r'.Fresh)
  | (_, some result) => (r.phase = .waiting ∧ r'.Complete ∧ result = r'.expected) ∨
      (r.phase = .writing ∧ r'.Fresh ∧ ¬ r'.Complete ∧ r.call.nbLines = none ∧ r.call.prompt = none)

theorem afterLine_insert {line : Str} {last : Bool} {nb : Option Nat} {result : List Str}
    (hechoed : r.echoed = true) (hmissed : ¬ r.Complete)
    (hnb : nb = r.call.nbLines.map (· - r.sent.length)) (hresult : result = r.sent)
    (hsound : SoundInsert r nb line last) :
    AfterLine r { r with pending := none, sent := r.sent ++ [line], ended := last }
      (Reader.insert nb result line) := by
  subst hnb hresult
  have hspec := insert_spec hechoed hmissed hsound
  cases hinsert : Reader.insert (r.call.nbLines.map (· - r.sent.length)) r.sent line with
  | mk reader result =>
    rw [hinsert] at hspec
    cases result with
    | none => exact ⟨hspec.1, fun _ => hspec.2, fun hnot => absurd (hechoed.symm.trans hnot) nofun⟩
    | some result => exact .inl hspec

theorem afterLine_same (hechoed : r.echoed = true) (hmissed : ¬ r.Complete)
    (hserves : Serves s.reader r) (hread : s.readLine text = (s.reader, none)) :
    AfterLine r r (s.readLine text) := by
  rw [hread]
  exact ⟨hmissed, fun _ => hserves, fun hnot => absurd (hechoed.symm.trans hnot) nofun⟩

theorem readLine_echoed (he : Enabled s (.line text o)) (hr : r ∈ s.runs k)
    (hechoed : r.echoed = true) (hmissed : ¬ r.Complete) (hserves : Serves s.reader r)
    (hsound : SoundLine s k r text o) :
    AfterLine r (r.heard k text o) (s.readLine text) := by
  have hecho := not_echo_of_echoed he hr hechoed
  have hended : ∀ last, o = .answer k last → r.ended = false := by
    intro last heq
    subst heq
    obtain ⟨r', hr', -, hended⟩ := he
    rw [Option.some.inj (hr.symm.trans hr')]
    exact hended
  unfold SoundLine at hsound
  rw [if_pos hechoed] at hsound
  cases hreader : s.reader with
  | idle =>
    rw [hreader] at hserves
    cases hserves
  | prompt nb prompt =>
    have hread : s.readLine text = (s.reader, none) := by
      unfold State.readLine
      rw [hreader]
    rw [hreader] at hsound
    have hsame : r.heard k text o = r := by
      cases o with
      | unsolicited => rfl
      | echo k' => exact heard_of_ne hecho nofun
      | answer k' last =>
        by_cases heq : k' = k
        · subst heq
          obtain ⟨rfl, rfl⟩ := hsound rfl
          rw [hreader] at hserves
          cases hserves with
          | prompt hprompt hsent hpending =>
            exact (if_pos rfl).trans (receive_nil hpending (hended false rfl))
        · exact if_neg heq
    rw [hsame]
    exact afterLine_same hechoed hmissed hserves hread
  | finish nb prompt =>
    have hread : s.readLine text = Reader.insert nb [] (prompt ++ text) := by
      unfold State.readLine
      rw [hreader]
    rw [hreader] at hsound hserves
    cases o with
    | unsolicited | echo k' => exact (hsound : False).elim
    | answer k' last =>
      obtain ⟨rfl, hinsert⟩ := hsound
      rw [hread]
      cases hserves with
      | finish hsent hpending =>
        have hheard : r.heard k' text (.answer k' last) =
            { r with pending := none, sent := r.sent ++ [prompt ++ text], ended := last } := by
          refine (if_pos rfl).trans ?_
          unfold Run.receive
          rw [hpending]
        rw [hheard]
        refine afterLine_insert hechoed hmissed ?_ hsent.symm hinsert
        rw [hsent]
        exact (congrFun Option.map_id _).symm
  | lines nb result =>
    by_cases htext : text = []
    · have hread : s.readLine text = (s.reader, none) := by
        unfold State.readLine
        rw [hreader]
        dsimp only
        rw [if_pos htext]
      rw [hreader] at hsound
      have hsame : r.heard k text o = r := by
        cases o with
        | unsolicited => rfl
        | echo k' => exact heard_of_ne hecho nofun
        | answer k' last =>
          by_cases heq : k' = k
          · subst heq
            obtain rfl := (if_pos htext).mp hsound rfl
            rw [hreader] at hserves
            cases hserves with
            | lines hprompt hpending =>
              rw [htext]
              exact (if_pos rfl).trans (receive_nil hpending (hended false rfl))
          · exact if_neg heq
      rw [hsame]
      exact afterLine_same hechoed hmissed hserves hread
    · have hread : s.readLine text = Reader.insert nb result text := by
        unfold State.readLine
        rw [hreader]
        dsimp only
        rw [if_neg htext]
      rw [hreader] at hsound hserves
      cases o with
      | unsolicited | echo k' => exact absurd hsound htext
      | answer k' last =>
        obtain ⟨rfl, hinsert⟩ := (if_neg htext).mp hsound
        rw [hread]
        cases hserves with
        | lines hprompt hpending =>
          have hheard : r.heard k' text (.answer k' last) =
              { r with pending := none, sent := r.sent ++ [text], ended := last } := by
            refine (if_pos rfl).trans ?_
            unfold Run.receive
            rw [hpending, if_neg htext]
          rw [hheard]
          exact afterLine_insert hechoed hmissed rfl rfl hinsert

theorem Run.Fresh.not_complete (h : r.Fresh) : ¬ r.Complete :=
  fun hcomplete => absurd (h.echoed.symm.trans hcomplete.1) nofun

theorem afterLine_start (hfresh : r.Fresh) (hwaits : r.call.nbLines = some 0 → r.phase = .waiting) :
    AfterLine r { r with echoed := true } (Reader.start r.call.nbLines r.call.prompt) := by
  unfold Reader.start
  by_cases hzero : r.call.nbLines = some 0
  · rw [if_pos hzero]
    refine .inl ⟨hwaits hzero, ⟨rfl, .inr ⟨0, hzero, Nat.zero_le _⟩⟩, ?_⟩
    simp only [Run.expected, hzero, List.take_zero]
  · rw [if_neg hzero]
    have hmissed : ¬ { r with echoed := true : Run }.Complete := by
      rintro ⟨-, hends | ⟨n, hn, hle⟩⟩
      · exact absurd (hfresh.ended.symm.trans hends) (by rintro ⟨⟩)
      · have hle' : n ≤ r.sent.length := hle
        rw [hfresh.sent] at hle'
        obtain rfl := Nat.le_zero.mp hle'
        exact hzero hn
    cases hprompt : r.call.prompt with
    | some prompt =>
      refine ⟨hmissed, fun _ => ?_, fun hnot => absurd hnot (by rintro ⟨⟩)⟩
      exact Serves.prompt (r := { r with echoed := true }) hprompt hfresh.sent hfresh.pending
    | none =>
      refine ⟨hmissed, fun _ => ?_, fun hnot => absurd hnot (by rintro ⟨⟩)⟩
      have hserves := Serves.lines (r := { r with echoed := true }) (fun _ => hprompt) hfresh.pending
      have hleft : r.call.nbLines.map (· - r.sent.length) = r.call.nbLines := by
        rw [hfresh.sent]
        exact congrFun Option.map_id _
      have hreader : Reader.lines (r.call.nbLines.map (· - r.sent.length)) r.sent =
          .lines r.call.nbLines [] := by
        rw [hleft, hfresh.sent]
      exact hreader ▸ hserves

/-- A line before the echo, or the echo. -/
theorem readLine_fresh (he : Enabled s (.line text o)) (hr : r ∈ s.runs k) (hopened : Opened s r)
    (hrunning : s.atCmdRunning = some r.call.command) (hopen : r.phase.IsOpen)
    (hechoed : r.echoed = false) (hsound : SoundLine s k r text o) :
    AfterLine r (r.heard k text o) (s.readLine text) := by
  obtain ⟨hfresh, hnb, hprompt⟩ := hopened.fresh hechoed
  unfold SoundLine at hsound
  have hnot : ¬ r.echoed = true := fun heq => absurd (hechoed.symm.trans heq) nofun
  rw [if_neg hnot] at hsound
  by_cases hecho : o = .echo k
  · rw [if_pos hecho] at hsound
    obtain ⟨hidle, hne, hwaits⟩ := hsound
    subst hecho
    obtain ⟨r', hr', -, -, htext⟩ := he
    obtain rfl := Option.some.inj (hr.symm.trans hr')
    have hread : s.readLine text = Reader.start r.call.nbLines r.call.prompt := by
      unfold State.readLine
      rw [hidle]
      dsimp only
      rw [if_pos ⟨hne, by rw [hrunning, htext]⟩, hnb, hprompt]
    have hheard : r.heard k text (.echo k) = { r with echoed := true } := if_pos rfl
    rw [hread, hheard]
    exact afterLine_start hfresh hwaits
  · rw [if_neg hecho] at hsound
    rw [heard_of_not_echoed he hr hechoed hecho]
    have hsame : ∀ reader, AfterLine r r (reader, none) :=
      fun _ => ⟨hopened.missed, fun heq => absurd (hechoed.symm.trans heq) nofun, fun _ => hfresh⟩
    unfold SoundForeign at hsound
    obtain ⟨hidle, hstale⟩ := hsound
    cases hreader : s.reader with
    | idle =>
      have hread : s.readLine text = (.idle, none) := by
        unfold State.readLine
        rw [hreader]
        dsimp only
        refine if_neg fun hboth => ?_
        rcases hidle hreader with hnil | hne
        · exact hboth.1 hnil
        · exact hne (Option.some.inj (hboth.2.trans hrunning))
      rw [hread]
      exact hsame .idle
    | prompt _ _ | finish _ _ | lines _ _ =>
      have hbusy : s.reader ≠ .idle := by
        rw [hreader]
        exact nofun
      cases hread : s.readLine text with
      | mk reader result =>
        cases result with
        | none => exact hsame reader
        | some result =>
          have hcases := hstale hbusy
          rw [hread] at hcases
          obtain ⟨hwriting, hnone⟩ := hcases.resolve_left nofun
          exact .inr ⟨hwriting, hfresh, hopened.missed, hnone⟩

theorem readLine_open (hinv : Inv s) (he : Enabled s (.line text o)) (hsound : Sound s (.line text o))
    (hr : r ∈ s.runs k) (hopen : r.phase.IsOpen) :
    AfterLine r (r.heard k text o) (s.readLine text) := by
  have hopened := hinv.opened k r hr hopen
  obtain ⟨hholder, hrunning⟩ := hinv.holds k r hr hopen.holds
  have hline : SoundLine s k r text o := hsound k hholder r hr hopen
  cases hechoed : r.echoed with
  | true => exact readLine_echoed he hr hechoed hopened.missed (hopened.serves hechoed) hline
  | false => exact readLine_fresh he hr hopened hrunning hopen hechoed hline

theorem heard_locking (hinv : Inv s) (he : Enabled s (.line text o)) (hr : r ∈ s.runs k)
    (hlocking : r.phase = .locking) : r.heard k text o = r := by
  refine heard_of_not_echoed he hr (hinv.fresh k r hr hlocking).echoed fun heq => ?_
  subst heq
  obtain ⟨r', hr', hne, -⟩ := he
  obtain rfl := Option.some.inj (hr.symm.trans hr')
  exact hne hlocking

theorem echoed_of_heard (h : (r.heard k text o).echoed = false) : r.echoed = false := by
  cases o with
  | unsolicited => exact h
  | echo k' =>
    by_cases heq : k' = k
    · have hheard : r.heard k text (.echo k') = { r with echoed := true } := if_pos heq
      rw [hheard] at h
      cases h
    · have hheard : r.heard k text (.echo k') = r := if_neg heq
      rw [hheard] at h
      exact h
  | answer k' last =>
    by_cases heq : k' = k
    · have hheard : r.heard k text (.answer k' last) = r.receive text last := if_pos heq
      rw [hheard] at h
      exact h
    · have hheard : r.heard k text (.answer k' last) = r := if_neg heq
      rw [hheard] at h
      exact h

theorem signal_cases (result : List Str) :
    (r.phase ≠ .waiting ∧ r.signal result = r) ∨
      (r.phase = .waiting ∧ r.signal result = { r with phase := .answered result }) := by
  unfold Run.signal
  split
  next h => exact .inr ⟨h, rfl⟩
  next h => exact .inl ⟨h, rfl⟩

theorem line_inv_none {reader : Reader} (hinv : Inv s) (he : Enabled s (.line text o))
    (hread : s.readLine text = (reader, none))
    (hafter : ∀ k, ∀ r ∈ s.runs k, r.phase.IsOpen → AfterLine r (r.heard k text o) (reader, none)) :
    Inv (s.line text o) := by
  unfold State.line
  rw [hread]
  constructor
  · intro k r' hr' hholds
    obtain ⟨r, hr, rfl⟩ := Option.map_eq_some_iff.mp hr'
    rw [heard_phase] at hholds
    rw [heard_call]
    exact hinv.holds k r hr hholds
  · intro k r' hr' hlocking
    obtain ⟨r, hr, rfl⟩ := Option.map_eq_some_iff.mp hr'
    rw [heard_phase] at hlocking
    rw [heard_locking hinv he hr hlocking]
    exact hinv.fresh k r hr hlocking
  · intro k r' hr' hopen
    obtain ⟨r, hr, rfl⟩ := Option.map_eq_some_iff.mp hr'
    rw [heard_phase] at hopen
    obtain ⟨hmissed, hserves, hfresh⟩ := hafter k r hr hopen
    refine ⟨hmissed, hserves, fun hechoed => ⟨hfresh hechoed, ?_⟩⟩
    rw [heard_call]
    exact ((hinv.opened k r hr hopen).fresh (echoed_of_heard hechoed)).2
  · intro k r' hr' res hres
    obtain ⟨r, hr, rfl⟩ := Option.map_eq_some_iff.mp hr'
    rw [heard_phase] at hres
    obtain ⟨hcomplete, hexpected⟩ := hinv.result k r hr res hres
    obtain ⟨hcomplete', hexpected'⟩ := complete_heard he hr hcomplete
    exact ⟨hcomplete', hexpected.trans hexpected'.symm⟩

theorem line_inv_some {reader : Reader} {result : List Str} (hinv : Inv s)
    (he : Enabled s (.line text o)) (hread : s.readLine text = (reader, some result))
    (hafter : ∀ k, ∀ r ∈ s.runs k, r.phase.IsOpen →
      AfterLine r (r.heard k text o) (reader, some result)) :
    Inv (s.line text o) := by
  unfold State.line
  rw [hread]
  constructor
  · intro k r' hr' hholds
    obtain ⟨r, hr, rfl⟩ := Option.map_eq_some_iff.mp hr'
    rw [signal_call, heard_call]
    rcases signal_cases (r := r.heard k text o) result with ⟨-, heq⟩ | ⟨hwaiting, -⟩
    · rw [heq, heard_phase] at hholds
      exact hinv.holds k r hr hholds
    · rw [heard_phase] at hwaiting
      exact hinv.holds k r hr (hwaiting ▸ trivial)
  · intro k r' hr' hlocking
    obtain ⟨r, hr, rfl⟩ := Option.map_eq_some_iff.mp hr'
    rcases signal_cases (r := r.heard k text o) result with ⟨-, heq⟩ | ⟨-, heq⟩
    · rw [heq] at hlocking ⊢
      rw [heard_phase] at hlocking
      rw [heard_locking hinv he hr hlocking]
      exact hinv.fresh k r hr hlocking
    · rw [heq] at hlocking
      cases hlocking
  · intro k r' hr' hopen
    obtain ⟨r, hr, rfl⟩ := Option.map_eq_some_iff.mp hr'
    rcases signal_cases (r := r.heard k text o) result with ⟨hne, heq⟩ | ⟨-, heq⟩
    · rw [heq] at hopen ⊢
      rw [heard_phase] at hopen hne
      obtain ⟨hwaiting, -⟩ | ⟨-, hfresh, hmissed, hnb, hprompt⟩ := hafter k r hr hopen
      · exact absurd hwaiting hne
      · refine ⟨hmissed, fun hechoed => absurd (hfresh.echoed.symm.trans hechoed) nofun, fun _ => ?_⟩
        rw [heard_call]
        exact ⟨hfresh, hnb.symm, hprompt.symm⟩
    · rw [heq] at hopen
      exact hopen.elim
  · intro k r' hr' res hres
    obtain ⟨r, hr, rfl⟩ := Option.map_eq_some_iff.mp hr'
    rcases signal_cases (r := r.heard k text o) result with ⟨-, heq⟩ | ⟨hwaiting, heq⟩
    · rw [heq] at hres ⊢
      rw [heard_phase] at hres
      obtain ⟨hcomplete, hexpected⟩ := hinv.result k r hr res hres
      obtain ⟨hcomplete', hexpected'⟩ := complete_heard he hr hcomplete
      exact ⟨hcomplete', hexpected.trans hexpected'.symm⟩
    · rw [heq] at hres ⊢
      rw [heard_phase] at hwaiting
      obtain rfl : result = res := by
        rcases hres with hres | hres
        · exact Phase.answered.inj hres
        · cases hres
      obtain ⟨-, hanswer⟩ | ⟨hwriting, -⟩ := hafter k r hr (hwaiting ▸ trivial)
      · exact hanswer
      · rw [hwaiting] at hwriting
        cases hwriting

theorem line_inv (hinv : Inv s) (he : Enabled s (.line text o)) (hsound : Sound s (.line text o)) :
    Inv (step s (.line text o)) := by
  have hafter : ∀ k, ∀ r ∈ s.runs k, r.phase.IsOpen →
      AfterLine r (r.heard k text o) (s.readLine text) :=
    fun k r hr hopen => readLine_open hinv he hsound hr hopen
  show Inv (s.line text o)
  cases hread : s.readLine text with
  | mk reader result =>
    rw [hread] at hafter
    cases result with
    | none => exact line_inv_none hinv he hread hafter
    | some result => exact line_inv_some hinv he hread hafter

end

/-! ## The other events -/

section

variable {s : State} {k : Nat}

theorem mem_update {f : Run → Run} {j : Nat} {r : Run} (h : r ∈ (s.update k f).runs j) :
    (j = k ∧ ∃ r' ∈ s.runs k, r = f r') ∨ (j ≠ k ∧ r ∈ s.runs j) := by
  have h : r ∈ Function.update s.runs k ((s.runs k).map f) j := h
  by_cases heq : j = k
  · subst heq
    rw [Function.update_self] at h
    obtain ⟨r', hr', hf⟩ := Option.map_eq_some_iff.mp h
    exact .inl ⟨rfl, r', hr', hf.symm⟩
  · rw [Function.update_of_ne heq] at h
    exact .inr ⟨heq, h⟩

theorem call_inv {c : Call} (hinv : Inv s) : Inv (step s (.call k c)) := by
  have hcases : ∀ j, ∀ r ∈ (step s (.call k c)).runs j,
      r = ⟨c, .locking, false, none, [], false⟩ ∨ r ∈ s.runs j := by
    intro j r hr
    by_cases heq : j = k
    · subst heq
      have hself := Function.update_self j (some ⟨c, .locking, false, none, [], false⟩) s.runs
      exact .inl (Option.some.inj (hr.symm.trans hself))
    · exact .inr ((Function.update_of_ne heq _ _).symm.trans hr)
  constructor
  · intro j r hr hholds
    obtain rfl | hr := hcases j r hr
    · exact hholds.elim
    · exact hinv.holds j r hr hholds
  · intro j r hr hlocking
    obtain rfl | hr := hcases j r hr
    · exact ⟨rfl, rfl, rfl, rfl⟩
    · exact hinv.fresh j r hr hlocking
  · intro j r hr hopen
    obtain rfl | hr := hcases j r hr
    · exact hopen.elim
    · obtain ⟨hmissed, hserves, hfresh⟩ := hinv.opened j r hr hopen
      exact ⟨hmissed, hserves, hfresh⟩
  · intro j r hr res hres
    obtain rfl | hr := hcases j r hr
    · rcases hres with hres | hres <;> cases hres
    · exact hinv.result j r hr res hres

theorem lock_inv (hinv : Inv s) (he : Enabled s (.lock k)) : Inv (step s (.lock k)) := by
  obtain ⟨⟨r₀, hr₀, hlocking⟩, hfree⟩ := he
  have hnone : ∀ j, ∀ r ∈ s.runs j, ¬ r.phase.Holds := by
    intro j r hr hholds
    have hrunning := (hinv.holds j r hr hholds).2
    rw [hfree] at hrunning
    cases hrunning
  have hstep : step s (.lock k) = { s.update k fun r => { r with phase := .writing } with
      atCmdRunning := some r₀.call.command
      cmdNbOfLines := r₀.call.nbLines
      waitForPrompt := r₀.call.prompt
      holder := some k } := by
    unfold step
    dsimp only
    rw [Option.mem_def.mp hr₀]
  have hfresh := hinv.fresh k r₀ hr₀ hlocking
  rw [hstep]
  constructor
  · intro j r hr hholds
    obtain ⟨rfl, r', hr', rfl⟩ | ⟨-, hr⟩ := mem_update hr
    · obtain rfl := Option.some.inj (hr₀.symm.trans hr')
      exact ⟨rfl, rfl⟩
    · exact absurd hholds (hnone j r hr)
  · intro j r hr hlock
    obtain ⟨rfl, r', hr', rfl⟩ | ⟨-, hr⟩ := mem_update hr
    · cases hlock
    · exact hinv.fresh j r hr hlock
  · intro j r hr hopen
    obtain ⟨rfl, r', hr', rfl⟩ | ⟨-, hr⟩ := mem_update hr
    · obtain rfl := Option.some.inj (hr₀.symm.trans hr')
      have hfresh' : { r₀ with phase := .writing : Run }.Fresh :=
        ⟨hfresh.echoed, hfresh.pending, hfresh.sent, hfresh.ended⟩
      exact ⟨hfresh'.not_complete,
        fun hechoed => absurd (hfresh.echoed.symm.trans hechoed) nofun, fun _ => ⟨hfresh', rfl, rfl⟩⟩
    · exact absurd hopen.holds (hnone j r hr)
  · intro j r hr res hres
    obtain ⟨rfl, r', hr', rfl⟩ | ⟨-, hr⟩ := mem_update hr
    · rcases hres with hres | hres <;> cases hres
    · exact hinv.result j r hr res hres

theorem Serves.phase {reader : Reader} {r : Run} (h : Serves reader r) (p : Phase) :
    Serves reader { r with phase := p } := by
  cases h with
  | prompt hprompt hsent hpending => exact .prompt (r := { r with phase := p }) hprompt hsent hpending
  | finish hsent hpending => exact .finish (r := { r with phase := p }) hsent hpending
  | lines hprompt hpending => exact .lines (r := { r with phase := p }) hprompt hpending

theorem written_inv (hinv : Inv s) (he : Enabled s (.written k)) : Inv (step s (.written k)) := by
  obtain ⟨r₀, hr₀, hwriting⟩ := he
  have hopen₀ : r₀.phase.IsOpen := hwriting ▸ trivial
  show Inv (s.update k fun r => { r with phase := .waiting })
  constructor
  · intro j r hr hholds
    obtain ⟨rfl, r', hr', rfl⟩ | ⟨-, hr⟩ := mem_update hr
    · obtain rfl := Option.some.inj (hr₀.symm.trans hr')
      exact hinv.holds j r₀ hr₀ hopen₀.holds
    · exact hinv.holds j r hr hholds
  · intro j r hr hlocking
    obtain ⟨rfl, r', hr', rfl⟩ | ⟨-, hr⟩ := mem_update hr
    · cases hlocking
    · exact hinv.fresh j r hr hlocking
  · intro j r hr hopen
    obtain ⟨rfl, r', hr', rfl⟩ | ⟨-, hr⟩ := mem_update hr
    · obtain rfl := Option.some.inj (hr₀.symm.trans hr')
      obtain ⟨hmissed, hserves, hfresh⟩ := hinv.opened j r₀ hr₀ hopen₀
      refine ⟨hmissed, fun hechoed => (hserves hechoed).phase .waiting, fun hechoed => ?_⟩
      obtain ⟨⟨hecho, hpending, hsent, hended⟩, hglobals⟩ := hfresh hechoed
      exact ⟨⟨hecho, hpending, hsent, hended⟩, hglobals⟩
    · obtain ⟨hmissed, hserves, hfresh⟩ := hinv.opened j r hr hopen
      exact ⟨hmissed, hserves, hfresh⟩
  · intro j r hr res hres
    obtain ⟨rfl, r', hr', rfl⟩ | ⟨-, hr⟩ := mem_update hr
    · rcases hres with hres | hres <;> cases hres
    · exact hinv.result j r hr res hres

/-- A task that returns leaves no command in progress. -/
theorem unlock_inv {r₀ : Run} {p : Phase} (hinv : Inv s) (hr₀ : r₀ ∈ s.runs k)
    (hholds₀ : r₀.phase.Holds) (hp : ¬ p.Holds) (hlocking : p ≠ .locking)
    (hresult : ∀ res, p = .returned res → r₀.Complete ∧ res = r₀.expected) :
    Inv (s.unlock k p) := by
  have hholder := (hinv.holds k r₀ hr₀ hholds₀).1
  have hnone : ∀ j, j ≠ k → ∀ r ∈ s.runs j, ¬ r.phase.Holds := by
    intro j hj r hr hholds
    exact hj (Option.some.inj ((hinv.holds j r hr hholds).1.symm.trans hholder))
  constructor
  · intro j r hr hholds
    obtain ⟨rfl, r', hr', rfl⟩ | ⟨hj, hr⟩ := mem_update hr
    · exact absurd hholds hp
    · exact absurd hholds (hnone j hj r hr)
  · intro j r hr hlock
    obtain ⟨rfl, r', hr', rfl⟩ | ⟨-, hr⟩ := mem_update hr
    · exact absurd hlock hlocking
    · exact hinv.fresh j r hr hlock
  · intro j r hr hopen
    obtain ⟨rfl, r', hr', rfl⟩ | ⟨hj, hr⟩ := mem_update hr
    · exact absurd hopen.holds hp
    · exact absurd hopen.holds (hnone j hj r hr)
  · intro j r hr res hres
    obtain ⟨rfl, r', hr', rfl⟩ | ⟨-, hr⟩ := mem_update hr
    · obtain rfl := Option.some.inj (hr₀.symm.trans hr')
      rcases hres with hres | hres
      · have heq : p = .answered res := hres
        exact absurd (heq ▸ trivial) hp
      · exact hresult res hres
    · exact hinv.result j r hr res hres

theorem timeout_inv (hinv : Inv s) (he : Enabled s (.timeout k)) : Inv (step s (.timeout k)) := by
  obtain ⟨r₀, hr₀, hwaiting⟩ := he
  exact unlock_inv hinv hr₀ (hwaiting ▸ trivial) id nofun nofun

theorem resume_inv (hinv : Inv s) (he : Enabled s (.resume k)) : Inv (step s (.resume k)) := by
  obtain ⟨r₀, hr₀, hholds, hopen⟩ := he
  unfold step
  dsimp only
  rw [Option.mem_def.mp hr₀]
  dsimp only
  cases hphase : r₀.phase with
  | answered result =>
    refine unlock_inv hinv hr₀ hholds id nofun fun res hres => ?_
    rw [← Phase.returned.inj hres]
    exact hinv.result k r₀ hr₀ result (.inl hphase)
  | locking | writing | waiting | returned _ | timedOut => exact hinv

theorem prompted_inv (hinv : Inv s) (he : Enabled s (.prompted k)) (hsound : Sound s (.prompted k)) :
    Inv (step s (.prompted k)) := by
  obtain ⟨r₀, hr₀, hechoed₀, hended₀, hprompt₀, hpending₀, hsent₀⟩ := he
  unfold step
  constructor
  · intro j r hr hholds
    obtain ⟨rfl, r', hr', rfl⟩ | ⟨-, hr⟩ := mem_update hr
    · exact hinv.holds j r' hr' hholds
    · exact hinv.holds j r hr hholds
  · intro j r hr hlocking
    obtain ⟨rfl, r', hr', rfl⟩ | ⟨-, hr⟩ := mem_update hr
    · obtain rfl := Option.some.inj (hr₀.symm.trans hr')
      exact absurd (hechoed₀.symm.trans (hinv.fresh j r₀ hr₀ hlocking).echoed) nofun
    · exact hinv.fresh j r hr hlocking
  · intro j r hr hopen
    obtain ⟨rfl, r', hr', rfl⟩ | ⟨hj, hr⟩ := mem_update hr
    · obtain rfl := Option.some.inj (hr₀.symm.trans hr')
      obtain ⟨hmissed, hserves, -⟩ := hinv.opened j r₀ hr₀ hopen
      refine ⟨hmissed, fun _ => ?_, fun hnot => absurd (hechoed₀.symm.trans hnot) nofun⟩
      have hserves₀ := hserves hechoed₀
      cases hreader : s.reader with
      | idle =>
        rw [hreader] at hserves₀
        cases hserves₀
      | prompt nb prompt =>
        rw [hreader] at hserves₀
        cases hserves₀ with
        | prompt hprompt hsent hpending =>
          exact .finish (r := { r₀ with pending := r₀.call.prompt }) hsent hprompt
      | finish nb prompt =>
        rw [hreader] at hserves₀
        cases hserves₀ with
        | finish hsent hpending => exact absurd (hpending₀.symm.trans hpending) nofun
      | lines nb result =>
        rw [hreader] at hserves₀
        cases hserves₀ with
        | lines hprompt hpending => exact absurd (hprompt hsent₀) hprompt₀
    · obtain ⟨hmissed, hserves, hfresh⟩ := hinv.opened j r hr hopen
      refine ⟨hmissed, fun hechoed => ?_, hfresh⟩
      have hother : s.reader.isPrompt = true → k = j :=
        hsound j (hinv.holds j r hr hopen.holds).1 r hr hopen hechoed
      cases hreader : s.reader with
      | prompt nb prompt =>
        rw [hreader] at hother
        exact absurd (hother rfl).symm hj
      | idle | finish _ _ | lines _ _ =>
        have hserves' := hserves hechoed
        rw [hreader] at hserves'
        exact hserves'
  · intro j r hr res hres
    obtain ⟨rfl, r', hr', rfl⟩ | ⟨-, hr⟩ := mem_update hr
    · exact hinv.result j r' hr' res hres
    · exact hinv.result j r hr res hres

end

/-! ## Runs -/

theorem step_inv {s : State} {e : Event} (hinv : Inv s) (he : Enabled s e) (hsound : Sound s e) :
    Inv (step s e) := by
  cases e with
  | call k c => exact call_inv hinv
  | lock k => exact lock_inv hinv he
  | written k => exact written_inv hinv he
  | timeout k => exact timeout_inv hinv he
  | resume k => exact resume_inv hinv he
  | line text o => exact line_inv hinv he hsound
  | prompted k => exact prompted_inv hinv he hsound

theorem init_inv : Inv .init where
  holds _ _ hr := nomatch hr
  fresh _ _ hr := nomatch hr
  opened _ _ hr := nomatch hr
  result _ _ hr := nomatch hr

end Mihini.Serial
