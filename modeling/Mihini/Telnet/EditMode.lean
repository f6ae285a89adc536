import Mihini.Telnet.Stream

/-!
# Edit mode

What `teel_reader` makes of a stream that it reads well: the line editor gets the bytes of the text, and
the window sizes are read.
-/

namespace Mihini.Telnet

open Mihini.Lib List
open Place (run AllFit MayEnd Ready Settled run_text_iac)

/-! ## Window sizes -/

section

variable {contents rest : List Nat}

/-- A byte of a window size. -/
theorem readEscByte_fits (hfit : AllFit .edit (.inside naws contents) rest) (hlen : contents.length < 4)
    (hend : MayEnd .edit .text (run .edit (.inside naws contents) rest).1) :
    ∃ v read rest', read ++ rest' = rest ∧ run .edit (.inside naws contents) read =
        (.inside naws (contents ++ [v]), []) ∧
      (∀ allocated marked, ReadBuffer.readEscByte ⟨allocated, marked, rest⟩ =
        (some v, ⟨allocated, marked ++ read, rest'⟩)) ∧
      AllFit .edit (.inside naws (contents ++ [v])) rest' ∧
      MayEnd .edit .text (run .edit (.inside naws (contents ++ [v])) rest').1 := by
  suffices hread : ∃ v read rest', read ++ rest' = rest ∧ run .edit (.inside naws contents) read =
        (.inside naws (contents ++ [v]), []) ∧
      ∀ allocated marked, ReadBuffer.readEscByte ⟨allocated, marked, rest⟩ =
        (some v, ⟨allocated, marked ++ read, rest'⟩) by
    obtain ⟨v, read, rest', rfl, hrun, hbyte⟩ := hread
    rw [Place.run_append, hrun] at hend
    have hfit' := (Place.allFit_append.mp hfit).2
    rw [hrun] at hfit'
    exact ⟨v, read, rest', rfl, hrun, hbyte, hfit', hend⟩
  cases rest with
  | nil => exact absurd rfl hend
  | cons b rest =>
    by_cases hb : b = 255
    · subst hb
      cases rest with
      | nil => exact hend.elim
      | cons c rest =>
        obtain rfl : c = iac := by
          rcases hfit.2.1 with h | h
          · have hlen' := h.2 rfl
            omega
          · exact h.1
        refine ⟨255, [255, 255], rest, rfl, rfl, fun allocated marked => ?_⟩
        simp only [ReadBuffer.readEscByte, ReadBuffer.readByte, if_true, append_assoc]
        rfl
    · refine ⟨b, [b], rest, rfl, ?_, fun allocated marked => ?_⟩
      · rw [run, Place.step, if_neg hb]
        rfl
      · simp only [ReadBuffer.readEscByte, ReadBuffer.readByte, if_neg hb]

theorem end_fits (hfit : AllFit .edit (.inside naws contents) rest) (hlen : contents.length = 4)
    (hend : MayEnd .edit .text (run .edit (.inside naws contents) rest).1) :
    ∃ rest', rest = iac :: se :: rest' := by
  cases rest with
  | nil => exact absurd rfl hend
  | cons b rest =>
    obtain rfl : b = iac := by
      rcases hfit.1 with h | h
      · exact h
      · have hlt := h.2.2
        omega
    cases rest with
    | nil => exact hend.elim
    | cons c rest =>
      obtain rfl : c = se := by
        rcases hfit.2.1 with h | h
        · exact h.1
        · have hlt := h.2.2.2
          omega
      exact ⟨rest, rfl⟩

/-- A window size is read to its end. -/
theorem naws_read (ts : TelnetState) (hmode : ts.editmode = .edit)
    (hfit : AllFit .edit (.inside naws []) ts.input.rest)
    (hend : MayEnd .edit .text (run .edit (.inside naws []) ts.input.rest).1) :
    ∃ read rest ts', read ++ rest = ts.input.rest ∧ run .edit (.inside naws []) read = (.text, []) ∧
      ts.parsesuboption naws = .ok ts' ∧ ts'.input.rest = rest ∧
      ts'.input.allocated = ts.input.allocated ∧ ts'.editmode = .edit ∧ ts'.typed = ts.typed := by
  obtain ⟨out, ⟨allocated, marked, rest⟩, editmode, line, typed, displaysize⟩ := ts
  obtain rfl : editmode = .edit := hmode
  obtain ⟨w1, read1, rest1, rfl, hrun1, hbyte1, hfit, hend⟩ := readEscByte_fits hfit (by decide) hend
  obtain ⟨w0, read2, rest2, rfl, hrun2, hbyte2, hfit, hend⟩ := readEscByte_fits hfit (by simp) hend
  obtain ⟨h1, read3, rest3, rfl, hrun3, hbyte3, hfit, hend⟩ := readEscByte_fits hfit (by simp) hend
  obtain ⟨h0, read4, rest4, rfl, hrun4, hbyte4, hfit, hend⟩ := readEscByte_fits hfit (by simp) hend
  obtain ⟨rest', rfl⟩ := end_fits hfit (by simp) hend
  have hsub : TelnetState.parsesuboption
      ⟨out, ⟨allocated, marked, read1 ++ (read2 ++ (read3 ++ (read4 ++ iac :: se :: rest')))⟩, .edit, line,
        typed, displaysize⟩ naws =
      .ok ⟨out, ⟨allocated, marked ++ read1 ++ read2 ++ read3 ++ read4 ++ [iac] ++ [se], rest'⟩, .edit, line,
        typed, some (w1 * 256 + w0, h1 * 256 + h0)⟩ := by
    rw [TelnetState.parsesuboption, if_pos rfl]
    simp only [ReadBuffer.readEach, hbyte1, hbyte2, hbyte3, hbyte4, ReadBuffer.readByte]
    rfl
  refine ⟨read1 ++ (read2 ++ (read3 ++ (read4 ++ [iac, se]))), rest', _, ?_, ?_, hsub, rfl, rfl, rfl, rfl⟩
  · simp only [append_assoc]
    rfl
  · rw [Place.run_append, hrun1, Place.run_append, hrun2, Place.run_append, hrun3, Place.run_append, hrun4]
    rfl

end

/-! ## The reader -/

/-- What a turn of the loop of `teel_reader` does with the bytes that are left. -/
inductive TeelTurned (p : Place) (ts : TelnetState) :
    TelnetState ⊕ Result (Option Nat × TelnetState) → Prop where
  | eos (hrest : ts.input.rest = []) :
    TeelTurned p ts (.inr (.ok (none, { ts with input := ⟨ts.input.allocated, [], []⟩ })))
  | more (read rest : List Nat) (ts' : TelnetState) (hread : read ++ rest = ts.input.rest)
    (hne : read ≠ []) (hready : Ready (run .edit p read).1) (hrest : ts'.input.rest = rest)
    (halloc : ts'.input.allocated = ts.input.allocated) (hmode : ts'.editmode = ts.editmode)
    (htyped : ts'.typed = ts.typed) (hkeys : (run .edit p read).2 = []) : TeelTurned p ts (.inl ts')
  | val (read rest : List Nat) (b : Nat) (ts' : TelnetState) (hread : read ++ rest = ts.input.rest)
    (hne : read ≠ []) (hready : Ready (run .edit p read).1) (hrest : ts'.input.rest = rest)
    (halloc : ts'.input.allocated = ts.input.allocated) (hmode : ts'.editmode = ts.editmode)
    (htyped : ts'.typed = ts.typed) (hkeys : (run .edit p read).2.flatMap keys = [b]) :
    TeelTurned p ts (.inr (.ok (some b, ts')))

section

variable {ts : TelnetState} {p : Place} {r : List Nat}

/-- A command of the client. -/
theorem teelCommand_turned (hmode : ts.editmode = .edit) (hrest : ts.input.rest = iac :: r)
    (hfit : AllFit .edit .iac r) (hend : MayEnd .edit .text (run .edit .iac r).1) :
    TeelTurned .text ts
      ({ ts with input := ⟨ts.input.allocated, [iac], r⟩ } : TelnetState).teelCommand := by
  cases r with
  | nil => exact hend.elim
  | cons a r =>
    have hread : ∀ read rest, read ++ rest = a :: r → (iac :: read) ++ rest = ts.input.rest := by
      intro read rest heq
      rw [hrest, ← heq, cons_append]
    rw [TelnetState.teelCommand]
    simp only [ReadBuffer.readByte]
    by_cases hoption : will ≤ a ∧ a ≤ dont
    · have hplace : Place.step .edit .iac a = (.option a, []) := if_pos hoption
      rw [if_pos hoption]
      cases r with
      | nil =>
        rw [run, hplace] at hend
        exact hend.elim
      | cons o r =>
        have hrun : run .edit .text [iac, a, o] = (.text, []) := by
          rw [run_text_iac, run, hplace]
          rfl
        exact .more [iac, a, o] r _ (hread [a, o] r rfl) (by rintro ⟨⟩) (by rw [hrun]; trivial) rfl rfl rfl rfl
          (by rw [hrun])
    · rw [if_neg hoption]
      by_cases hsb : a = sb
      · subst hsb
        rw [if_pos rfl]
        cases r with
        | nil => exact hend.elim
        | cons o r =>
          by_cases hnaws : o = naws
          · subst hnaws
            obtain ⟨read, rest, ts', hsub, hrun, hparse, hrest', halloc', hmode', htyped'⟩ := naws_read
              { ts with input := ⟨ts.input.allocated, [iac, sb, naws], r⟩ } hmode hfit.2.2 hend
            have hrun' : run .edit .text (iac :: sb :: naws :: read) = (.text, []) := hrun
            simp only [cons_append, nil_append, hparse]
            exact .more (iac :: sb :: naws :: read) rest ts'
              (hread (sb :: naws :: read) rest (congrArg (sb :: naws :: ·) hsub)) (by rintro ⟨⟩)
              (by rw [hrun']; trivial) hrest' halloc' (hmode'.trans hmode.symm) htyped' (by rw [hrun'])
          · simp only [TelnetState.parsesuboption, if_neg hnaws]
            exact .more [iac, sb, o] r _ (hread [sb, o] r rfl) (by rintro ⟨⟩) ⟨hnaws, rfl⟩ rfl rfl rfl rfl rfl
      · rw [if_neg hsb]
        by_cases hip : a = ip
        · subst hip
          exact .val [iac, ip] r 3 _ (hread [ip] r rfl) (by rintro ⟨⟩) trivial rfl rfl rfl rfl rfl
        rw [if_neg hip]
        by_cases hsusp : a = susp
        · subst hsusp
          exact .val [iac, susp] r 26 _ (hread [susp] r rfl) (by rintro ⟨⟩) trivial rfl rfl rfl rfl rfl
        rw [if_neg hsusp]
        by_cases heof : a = eof_
        · subst heof
          exact .val [iac, eof_] r 4 _ (hread [eof_] r rfl) (by rintro ⟨⟩) trivial rfl rfl rfl rfl rfl
        rw [if_neg heof]
        by_cases hiac : a = iac
        · subst hiac
          exact .val [iac, iac] r 255 _ (hread [iac] r rfl) (by rintro ⟨⟩) trivial rfl rfl rfl rfl rfl
        rw [if_neg hiac]
        have hrun : run .edit .text [iac, a] = (.text, []) := by
          rw [run_text_iac, run, Place.step, Place.command, if_neg hoption, if_neg hsb, if_neg hip,
            if_neg hsusp, if_neg heof, if_neg hiac]
          rfl
        exact .more [iac, a] r _ (hread [a] r rfl) (by rintro ⟨⟩) (by rw [hrun]; trivial) rfl rfl rfl rfl
          (by rw [hrun])

theorem teelTurn_turned (hp : Ready p) (hmode : ts.editmode = .edit) (hfit : AllFit .edit p ts.input.rest)
    (hend : MayEnd .edit .text (run .edit p ts.input.rest).1) : TeelTurned p ts ts.teelTurn := by
  rw [TelnetState.teelTurn]
  simp only [ReadBuffer.readByte, ReadBuffer.readMark]
  cases hrest : ts.input.rest with
  | nil => exact .eos hrest
  | cons b r =>
    rw [hrest] at hfit hend
    simp only [nil_append]
    cases p with
    | text =>
      by_cases hiac : b = iac
      · subst hiac
        exact teelCommand_turned hmode hrest hfit.2 hend
      rw [if_neg hiac]
      have hrun : run .edit .text [b] = (.text, [.byte b]) := by
        rw [run, Place.step, Place.plain, if_neg hiac]
        rfl
      exact .val [b] r b _ hrest.symm (by rintro ⟨⟩) (by rw [hrun]; trivial) rfl rfl rfl rfl (by rw [hrun]; rfl)
    | inside o contents =>
      -- After a sub-negotiation was opened comes its end.
      obtain ⟨ho, rfl⟩ := hp
      obtain rfl : b = iac := hfit.1.resolve_right fun h => ho h.2.1
      rw [if_pos rfl, TelnetState.teelCommand]
      simp only [ReadBuffer.readByte]
      cases r with
      | nil => exact hend.elim
      | cons c r =>
        obtain rfl : c = se := by
          rcases hfit.2.1 with h | h
          · exact h.1
          · exact absurd h.2.2.1 ho
        exact .more [iac, se] r _ hrest.symm (by rintro ⟨⟩) trivial rfl rfl rfl rfl rfl
    | iac | option | sb | insideIac | cr => exact hp.elim

end

/-! ## The loops -/

/-- What a call of `teel_reader` does with the bytes that are left. -/
inductive TeelRead (p : Place) (ts : TelnetState) : Result (Option Nat × TelnetState) → Prop where
  | eos (ts' : TelnetState) (hready : Ready (run .edit p ts.input.rest).1)
    (hinput : ts'.input = ⟨ts.input.allocated, [], []⟩) (hmode : ts'.editmode = ts.editmode)
    (htyped : ts'.typed = ts.typed) (hkeys : (run .edit p ts.input.rest).2.flatMap keys = []) :
    TeelRead p ts (.ok (none, ts'))
  | val (read rest : List Nat) (b : Nat) (ts' : TelnetState) (hread : read ++ rest = ts.input.rest)
    (hne : read ≠ []) (hready : Ready (run .edit p read).1) (hrest : ts'.input.rest = rest)
    (halloc : ts'.input.allocated = ts.input.allocated) (hmode : ts'.editmode = ts.editmode)
    (htyped : ts'.typed = ts.typed) (hkeys : (run .edit p read).2.flatMap keys = [b]) :
    TeelRead p ts (.ok (some b, ts'))

section

variable {ts ts' : TelnetState} {p : Place} {read rest : List Nat}

/-- Some bytes of commands are read before. -/
theorem TeelRead.back (hread : read ++ rest = ts.input.rest) (hrest : ts'.input.rest = rest)
    (halloc : ts'.input.allocated = ts.input.allocated) (hmode : ts'.editmode = ts.editmode)
    (htyped : ts'.typed = ts.typed) (hkeys : (run .edit p read).2 = [])
    {r : Result (Option Nat × TelnetState)} (h : TeelRead (run .edit p read).1 ts' r) :
    TeelRead p ts r := by
  have hrun : ∀ more, run .edit p (read ++ more) = run .edit (run .edit p read).1 more := by
    intro more
    rw [Place.run_append, hkeys]
    rfl
  cases h with
  | eos ts'' hready hinput hmode' htyped' hkeys' =>
    rw [hrest, ← hrun, hread] at hready hkeys'
    rw [halloc] at hinput
    exact .eos ts'' hready hinput (hmode'.trans hmode) (htyped'.trans htyped) hkeys'
  | val read' rest' b ts'' hread' hne hready hrest' halloc' hmode' htyped' hkeys' =>
    rw [← hrun] at hready hkeys'
    refine .val (read ++ read') rest' b ts'' ?_ ?_ hready hrest' (halloc'.trans halloc)
      (hmode'.trans hmode) (htyped'.trans htyped) hkeys'
    · rw [append_assoc, hread', hrest, hread]
    · exact fun hnil => hne (append_eq_nil_iff.mp hnil).2

/-- What is left fits, where some bytes are read that fit. -/
theorem fits_rest (hread : read ++ rest = ts.input.rest) (hfit : AllFit .edit p ts.input.rest)
    (hend : MayEnd .edit .text (run .edit p ts.input.rest).1) :
    AllFit .edit (run .edit p read).1 rest ∧
      MayEnd .edit .text (run .edit (run .edit p read).1 rest).1 := by
  rw [← hread] at hfit hend
  rw [Place.run_append] at hend
  exact ⟨(Place.allFit_append.mp hfit).2, hend⟩

theorem size_lt (hread : read ++ rest = ts.input.rest) (hne : read ≠ []) (hrest : ts'.input.rest = rest) :
    ts'.size < ts.size := by
  rw [TelnetState.size, TelnetState.size, hrest, ← hread, length_append]
  have hpos := length_pos_iff.mpr hne
  omega

theorem teelReader_read (hp : Ready p) (hmode : ts.editmode = .edit)
    (hfit : AllFit .edit p ts.input.rest) (hend : MayEnd .edit .text (run .edit p ts.input.rest).1) :
    TeelRead p ts ts.teelReader := by
  have hloop := loop_rule TelnetState.size TelnetState.teelTurn
    (I := fun p ts => Ready p ∧ ts.editmode = .edit ∧ AllFit .edit p ts.input.rest ∧
      MayEnd .edit .text (run .edit p ts.input.rest).1)
    (Q := TeelRead) ?_ ⟨hp, hmode, hfit, hend⟩
  · obtain ⟨r, hr, hread⟩ := hloop
    rw [TelnetState.teelReader, hr]
    cases hread with
    | eos ts' hready hinput hmode' htyped hkeys =>
      exact .eos _ hready (congrArg ReadBuffer.readMark hinput) hmode' htyped hkeys
    | val read rest b ts' hread hne hready hrest halloc hmode' htyped hkeys =>
      exact .val read rest b _ hread hne hready hrest halloc hmode' htyped hkeys
  · rintro p ts ⟨hp, hmode, hfit, hend⟩
    have hturned := teelTurn_turned hp hmode hfit hend
    generalize ts.teelTurn = turned at hturned
    cases hturned with
    | eos hrest =>
      refine Or.inr ⟨_, rfl, .eos _ ?_ rfl rfl rfl ?_⟩
      · rw [hrest]
        exact hp
      · rw [hrest]
        rfl
    | more read rest ts' hread hne hready hrest halloc hmode' htyped hkeys =>
      obtain ⟨hfit', hend'⟩ := fits_rest hread hfit hend
      rw [← hrest] at hfit' hend'
      exact Or.inl ⟨ts', (run .edit p read).1, rfl, size_lt hread hne hrest,
        ⟨hready, hmode'.trans hmode, hfit', hend'⟩, fun r =>
        TeelRead.back hread hrest halloc hmode' htyped hkeys⟩
    | val read rest b ts' hread hne hready hrest halloc hmode' htyped hkeys =>
      exact Or.inr ⟨_, rfl, .val read rest b ts' hread hne hready hrest halloc hmode' htyped hkeys⟩

/-- What a call of `teel_run` does with the bytes that are left. -/
inductive TeelRan (p : Place) (ts : TelnetState) : Result (Option TeelCmd × TelnetState) → Prop where
  | eos (ts' : TelnetState) (hready : Ready (run .edit p ts.input.rest).1)
    (hinput : ts'.input = ⟨ts.input.allocated, [], []⟩) (hmode : ts'.editmode = ts.editmode)
    (htyped : ts'.typed = ts.typed ++ (run .edit p ts.input.rest).2.flatMap keys) :
    TeelRan p ts (.ok (none, ts'))
  | command (read rest : List Nat) (tc : TeelCmd) (ts' : TelnetState)
    (hread : read ++ rest = ts.input.rest) (hne : read ≠ []) (hready : Ready (run .edit p read).1)
    (hrest : ts'.input.rest = rest) (halloc : ts'.input.allocated = ts.input.allocated)
    (hmode : ts'.editmode = ts.editmode)
    (htyped : ts'.typed = ts.typed ++ (run .edit p read).2.flatMap keys) :
    TeelRan p ts (.ok (some tc, ts'))

/-- A byte is read before. -/
theorem TeelRan.back (ts' : TelnetState) (hread : read ++ rest = ts.input.rest) (hrest : ts'.input.rest = rest)
    (halloc : ts'.input.allocated = ts.input.allocated) (hmode : ts'.editmode = ts.editmode)
    (htyped : ts'.typed = ts.typed ++ (run .edit p read).2.flatMap keys)
    {r : Result (Option TeelCmd × TelnetState)} (h : TeelRan (run .edit p read).1 ts' r) :
    TeelRan p ts r := by
  cases h with
  | eos ts'' hready hinput hmode' htyped' =>
    have hrun := Place.run_append .edit p read rest
    rw [hread] at hrun
    rw [hrest] at hready htyped'
    rw [halloc] at hinput
    refine .eos ts'' ?_ hinput (hmode'.trans hmode) ?_
    · rw [hrun]
      exact hready
    · rw [hrun, htyped', htyped, flatMap_append, append_assoc]
  | command read' rest' tc ts'' hread' hne hready hrest' halloc' hmode' htyped' =>
    have hrun := Place.run_append .edit p read read'
    refine .command (read ++ read') rest' tc ts'' ?_ ?_ ?_ hrest' (halloc'.trans halloc)
      (hmode'.trans hmode) ?_
    · rw [append_assoc, hread', hrest, hread]
    · exact fun hnil => hne (append_eq_nil_iff.mp hnil).2
    · rw [hrun]
      exact hready
    · rw [hrun, htyped', htyped, flatMap_append, append_assoc]

theorem teelRun_ran (editor : Editor) (hp : Ready p) (hmode : ts.editmode = .edit)
    (hfit : AllFit .edit p ts.input.rest) (hend : MayEnd .edit .text (run .edit p ts.input.rest).1) :
    ∃ r, loop TelnetState.size (TelnetState.runTurn editor) ts = some r ∧ TeelRan p ts r := by
  refine loop_rule TelnetState.size (TelnetState.runTurn editor)
    (I := fun p ts => Ready p ∧ ts.editmode = .edit ∧ AllFit .edit p ts.input.rest ∧
      MayEnd .edit .text (run .edit p ts.input.rest).1)
    (Q := TeelRan) ?_ ⟨hp, hmode, hfit, hend⟩
  rintro p ts ⟨hp, hmode, hfit, hend⟩
  have hread := teelReader_read hp hmode hfit hend
  rw [TelnetState.runTurn]
  generalize ts.teelReader = r at hread
  cases hread with
  | eos ts' hready hinput hmode' htyped hkeys =>
    refine Or.inr ⟨_, rfl, .eos ts' hready hinput hmode' ?_⟩
    rw [hkeys, append_nil]
    exact htyped
  | val read rest b ts' hread hne hready hrest halloc hmode' htyped hkeys =>
    have htyped' : ts'.typed ++ [b] = ts.typed ++ (run .edit p read).2.flatMap keys := by
      rw [htyped, hkeys]
    simp only
    cases editor.run (ts'.typed ++ [b]) with
    | some tc => exact Or.inr ⟨_, rfl, .command read rest tc _ hread hne hready hrest halloc hmode' htyped'⟩
    | none =>
      obtain ⟨hfit', hend'⟩ := fits_rest hread hfit hend
      rw [← hrest] at hfit' hend'
      exact Or.inl ⟨_, (run .edit p read).1, rfl, size_lt hread hne hrest,
        ⟨hready, hmode'.trans hmode, hfit', hend'⟩, fun r =>
        TeelRan.back { ts' with typed := ts'.typed ++ [b] } hread hrest halloc hmode' htyped'⟩

theorem processeditmode_read (editor : Editor) (hp : Ready p) (hmode : ts.editmode = .edit)
    (hfit : AllFit .edit p ts.input.rest) (hend : MayEnd .edit .text (run .edit p ts.input.rest).1) :
    Read editor .edit p ts (ts.processeditmode editor) := by
  obtain ⟨r, hr, hran⟩ := teelRun_ran editor hp hmode hfit hend
  rw [TelnetState.processeditmode, hr]
  cases hran with
  | eos ts' hready hinput hmode' htyped =>
    refine .eos ts' (Place.settled_of_ready hready) ?_ hmode' htyped
    rw [Place.kept_of_ready hready]
    exact hinput
  | command read rest tc ts' hread hne hready hrest halloc hmode' htyped =>
    have htold : ∀ cmd, Says .edit (run .edit p read).2 ts (ts'.finish editor cmd).1.signal.toList
        (ts'.finish editor cmd).2 := fun cmd => htyped
    cases tc with
    | done => exact .command read rest .line ts' hread hne hready nofun hrest halloc hmode' (htold .line)
    | ip => exact .command read rest .ip ts' hread hne hready nofun hrest halloc hmode' (htold .ip)
    | susp => exact .command read rest .susp ts' hread hne hready nofun hrest halloc hmode' (htold .susp)
    | eof => exact .command read rest .close ts' hread hne hready nofun hrest halloc hmode' (htold .close)

end

end Mihini.Telnet
