import Mihini.Telnet.Stream

/-!
# Line mode

What `processlinemode` makes of a stream that it reads well: it goes from one command or byte of the text
to the next, and the line and the signals are those of the stream.
-/

namespace Mihini.Telnet

open Mihini.Lib List

open Place (run AllFit Ready Settled run_text_iac)

inductive LineTurned (p : Place) (ts : TelnetState) :
    TelnetState ⊕ Result (InterpretCommand × TelnetState) → Prop where
  | eos (hkept : run .line p ts.input.rest = ((run .line p ts.input.rest).1, []))
    (hrest : (run .line p ts.input.rest).1.kept = ts.input.rest) :
    LineTurned p ts (.inr (.ok (.eos, { ts with
      input := ⟨ts.input.allocated, (run .line p ts.input.rest).1.kept, []⟩ })))
  | more (read rest : List Nat) (ts' : TelnetState) (hread : read ++ rest = ts.input.rest)
    (hne : read ≠ []) (hready : Ready (run .line p read).1) (hrest : ts'.input.rest = rest)
    (halloc : ts'.input.allocated = ts.input.allocated) (hmode : ts'.editmode = ts.editmode)
    (hline : ∀ signals, (run .line p read).2.foldl deliver (signals, ts.line) = (signals, ts'.line)) :
    LineTurned p ts (.inl ts')
  | command (read rest : List Nat) (cmd : InterpretCommand) (ts' : TelnetState)
    (hread : read ++ rest = ts.input.rest) (hne : read ≠ []) (hready : Ready (run .line p read).1)
    (hcmd : cmd ≠ .eos) (hrest : ts'.input.rest = rest)
    (halloc : ts'.input.allocated = ts.input.allocated) (hmode : ts'.editmode = ts.editmode)
    (hline : ∀ signals, (run .line p read).2.foldl deliver (signals, ts.line) =
      (signals ++ (cmd.signal ts'.line).toList, if cmd = .line then [] else ts'.line)) :
    LineTurned p ts (.inr (.ok (cmd, ts')))

section

variable {ts : TelnetState} {p : Place} {r : List Nat}

/-- The bytes end within a command. -/
theorem LineTurned.short {q : Place} (hrest : ts.input.rest = r) (hrun : run .line p r = (q, []))
    (hkept : q.kept = r) :
    LineTurned p ts (.inr (.ok (.eos, { ts with input := ⟨ts.input.allocated, r, []⟩ }))) := by
  subst hrest
  have heos := @LineTurned.eos p ts (by rw [hrun]) (by rw [hrun]; exact hkept)
  rwa [hrun, hkept] at heos

/-- The end of a file is sent. -/
theorem endOfFile_turned (read : List Nat) {rest : List Nat} (input : ReadBuffer) (hread : read ++ rest = ts.input.rest)
    (hne : read ≠ []) (hrun : run .line p read = (.text, [.eof])) (hrest : input.rest = rest)
    (halloc : input.allocated = ts.input.allocated) :
    LineTurned p ts { ts with input := input }.endOfFile := by
  have hready : Ready (run .line p read).1 := by
    rw [hrun]
    trivial
  rw [TelnetState.endOfFile]
  by_cases hline : ts.line = []
  · rw [if_pos hline]
    refine .command read rest .close _ hread hne hready nofun hrest halloc rfl fun signals => ?_
    rw [hrun]
    show deliver (signals, ts.line) .eof = _
    rw [hline]
    rfl
  · rw [if_neg hline]
    refine .more read rest _ hread hne hready hrest halloc rfl fun signals => ?_
    rw [hrun]
    exact if_neg hline

/-- A command of the client. -/
theorem lineCommand_turned (hrest : ts.input.rest = iac :: r) (hfit : AllFit .line .iac r) :
    LineTurned .text ts
      ({ ts with input := ⟨ts.input.allocated, [iac], r⟩ } : TelnetState).lineCommand := by
  cases r with
  | nil =>
    exact .short hrest rfl rfl
  | cons a r =>
    have hread : ∀ read rest, read ++ rest = a :: r → (iac :: read) ++ rest = ts.input.rest := by
      intro read rest heq
      rw [hrest, ← heq, cons_append]
    rw [TelnetState.lineCommand]
    simp only [ReadBuffer.readByte]
    by_cases hoption : will ≤ a ∧ a ≤ dont
    · have hplace : Place.step .line .iac a = (.option a, []) := if_pos hoption
      rw [if_pos hoption]
      cases r with
      | nil =>
        have hrun : run .line .text [iac, a] = (.option a, []) := by
          rw [run_text_iac, run, hplace]
          rfl
        exact .short hrest hrun rfl
      | cons o r =>
        have hrun : run .line .text [iac, a, o] = (.text, []) := by
          rw [run_text_iac, run, hplace]
          rfl
        exact .more [iac, a, o] r _ (hread [a, o] r rfl) (by rintro ⟨⟩) (by rw [hrun]; trivial) rfl rfl rfl
          fun signals => by rw [hrun]; rfl
    · rw [if_neg hoption]
      by_cases hsb : a = sb
      · subst hsb
        rw [if_pos rfl]
        cases r with
        | nil =>
          exact .short hrest rfl rfl
        | cons o r =>
          have hnaws : o ≠ naws := hfit.2.1.resolve_left (by rintro ⟨⟩)
          simp only [TelnetState.parsesuboption, if_neg hnaws]
          exact .more [iac, sb, o] r _ (hread [sb, o] r rfl) (by rintro ⟨⟩) ⟨hnaws, rfl⟩ rfl rfl rfl fun _ => rfl
      · rw [if_neg hsb]
        by_cases hip : a = ip
        · subst hip
          exact .command [iac, ip] r .ip _ (hread [ip] r rfl) (by rintro ⟨⟩) trivial (by rintro ⟨⟩) rfl rfl rfl fun _ => rfl
        rw [if_neg hip]
        by_cases hsusp : a = susp
        · subst hsusp
          exact .command [iac, susp] r .susp _ (hread [susp] r rfl) (by rintro ⟨⟩) trivial (by rintro ⟨⟩) rfl rfl rfl
            fun _ => rfl
        rw [if_neg hsusp]
        by_cases heof : a = eof_
        · subst heof
          exact endOfFile_turned [iac, eof_] _ (hread [eof_] r rfl) (by rintro ⟨⟩) rfl rfl rfl
        rw [if_neg heof]
        by_cases hiac : a = 255
        · subst hiac
          exact .more [iac, 255] r _ (hread [255] r rfl) (by rintro ⟨⟩) trivial rfl rfl rfl fun _ => rfl
        rw [if_neg hiac]
        have hrun : run .line .text [iac, a] = (.text, []) := by
          rw [run_text_iac, run, Place.step, Place.command, if_neg hoption, if_neg hsb, if_neg hip,
            if_neg hsusp, if_neg heof, if_neg hiac]
          rfl
        exact .more [iac, a] r _ (hread [a] r rfl) (by rintro ⟨⟩) (by rw [hrun]; trivial) rfl rfl rfl
          fun _ => by rw [hrun]; rfl

/-- A byte of the text, or a command. -/
theorem lineTurn_text (hfit : AllFit .line .text ts.input.rest) :
    LineTurned .text ts ts.lineTurn := by
  rw [TelnetState.lineTurn]
  simp only [ReadBuffer.readByte, ReadBuffer.readMark]
  cases hrest : ts.input.rest with
  | nil =>
    exact .short hrest rfl rfl
  | cons b r =>
    rw [hrest] at hfit
    simp only [nil_append]
    by_cases hiac : b = iac
    · subst hiac
      exact lineCommand_turned hrest hfit.2
    rw [if_neg hiac]
    by_cases hnl : b = 10
    · subst hnl
      exact .command [10] r .line _ hrest.symm (by rintro ⟨⟩) trivial (by rintro ⟨⟩) rfl rfl rfl fun _ => rfl
    rw [if_neg hnl]
    by_cases hcr : b = 13
    · subst hcr
      rw [if_pos rfl]
      cases r with
      | nil =>
        exact .short hrest rfl rfl
      | cons c r =>
        have hend : c = 0 ∨ c = 10 := hfit.2.1
        simp only [if_pos hend]
        have hrun : run .line .text [13, c] = (.text, [.newline]) := by
          rcases hend with rfl | rfl <;> rfl
        exact .command [13, c] r .line _ hrest.symm (by rintro ⟨⟩) (by rw [hrun]; trivial) (by rintro ⟨⟩) rfl rfl rfl
          fun _ => by rw [hrun]; rfl
    · rw [if_neg hcr]
      by_cases heof : b = 4
      · subst heof
        exact endOfFile_turned [4] _ hrest.symm (by rintro ⟨⟩) rfl rfl rfl
      rw [if_neg heof]
      by_cases hip : b = 3
      · subst hip
        exact .command [3] r .ip _ hrest.symm (by rintro ⟨⟩) trivial (by rintro ⟨⟩) rfl rfl rfl fun _ => rfl
      rw [if_neg hip]
      by_cases hsusp : b = 19
      · subst hsusp
        exact .command [19] r .susp _ hrest.symm (by rintro ⟨⟩) trivial (by rintro ⟨⟩) rfl rfl rfl fun _ => rfl
      rw [if_neg hsusp]
      have hrun : run .line .text [b] = (.text, [.byte b]) := by
        simp only [run, Place.step, Place.plain, if_neg hiac, if_neg hnl, if_neg hcr, if_neg heof,
          if_neg hip, if_neg hsusp, append_nil]
      exact .more [b] r _ hrest.symm (by rintro ⟨⟩) (by rw [hrun]; trivial) rfl rfl rfl
        fun _ => by rw [hrun]; rfl

theorem lineTurn_inside {o : Nat} (hfit : AllFit .line (.inside o []) ts.input.rest) :
    LineTurned (.inside o []) ts ts.lineTurn := by
  rw [TelnetState.lineTurn]
  simp only [ReadBuffer.readByte, ReadBuffer.readMark]
  cases hrest : ts.input.rest with
  | nil =>
    exact .short hrest rfl rfl
  | cons b r =>
    rw [hrest] at hfit
    obtain rfl : b = iac := hfit.1.resolve_right nofun
    simp only [nil_append]
    rw [TelnetState.lineCommand]
    simp only [ReadBuffer.readByte]
    cases r with
    | nil =>
      exact .short hrest rfl rfl
    | cons c r =>
      obtain rfl : c = se := by
        rcases hfit.2.1 with h | h
        · exact h.1
        · nomatch h.2.1
      exact .more [iac, se] r _ hrest.symm nofun trivial rfl rfl rfl fun _ => rfl

theorem lineTurn_turned (hp : Ready p) (hfit : AllFit .line p ts.input.rest) :
    LineTurned p ts ts.lineTurn := by
  cases p with
  | text => exact lineTurn_text hfit
  | inside o contents =>
    obtain ⟨-, rfl⟩ := hp
    exact lineTurn_inside hfit
  | iac | option | sb | insideIac | cr => exact hp.elim

end

/-! ## The loop -/

theorem processlinemode_read (editor : Editor) {ts : TelnetState} {p : Place} (hp : Ready p)
    (hmode : ts.editmode = .line) (hfit : AllFit .line p ts.input.rest) :
    Read editor .line p ts ts.processlinemode := by
  have hloop := loop_rule TelnetState.size TelnetState.lineTurn
    (I := fun p ts => Ready p ∧ ts.editmode = .line ∧ AllFit .line p ts.input.rest)
    (Q := Read editor .line) ?_ ⟨hp, hmode, hfit⟩
  · obtain ⟨r, hr, hread⟩ := hloop
    rw [TelnetState.processlinemode, hr]
    exact hread
  · rintro p ts ⟨hp, hmode, hfit⟩
    have hturned := lineTurn_turned hp hfit
    generalize ts.lineTurn = turned at hturned
    cases hturned with
    | eos hkept hrest =>
      refine Or.inr ⟨_, rfl, .eos _ ⟨p, hp, ?_, ?_⟩ rfl rfl fun before => ?_⟩
      · rw [hrest]
        exact hkept
      · rw [hrest]
        exact hfit
      · rw [hkept, append_nil]
        rfl
    | more read rest ts' hread hne hready hrest halloc hmode' hline =>
      have htold : Says .line (run .line p read).2 ts [] ts' := by
        intro before
        rw [append_nil]
        exact hline before
      refine Or.inl ⟨ts', (run .line p read).1, rfl, ?_, ⟨hready, hmode'.trans hmode, ?_⟩, fun r =>
        Read.back hread hrest halloc hmode' htold⟩
      · rw [TelnetState.size, TelnetState.size, hrest, ← hread, length_append]
        have hpos := length_pos_iff.mpr hne
        omega
      · rw [← hread] at hfit
        rw [hrest]
        exact (Place.allFit_append.mp hfit).2
    | command read rest cmd ts' hread hne hready hcmd hrest halloc hmode' hline =>
      refine Or.inr ⟨_, rfl, .command read rest cmd ts' hread hne hready hcmd hrest halloc hmode' ?_⟩
      intro before
      rw [hline before]
      simp only [TelnetState.finish, hmode'.trans hmode]

end Mihini.Telnet
