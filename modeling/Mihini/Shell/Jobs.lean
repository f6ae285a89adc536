import Mihini.Shell.Telnet

/-!
# The job table

The numbers and the tasks of `runningjobs` are those of the living tasks in background, as long as a job
that is killed ends.
-/

namespace Mihini.Shell

open Mihini.Lib Function

/-! ## Tables -/

/-- The table has the tasks of `living`, each with its number, and the number of each with the task. -/
structure Exact (jobs : Table) (living : Task → Prop) : Prop where
  both : ∀ i t, jobs (.number i) = some (.task t) ↔ jobs (.task t) = some (.number i)
  numbers : ∀ i v, jobs (.number i) = some v → ∃ t, v = .task t
  tasks : ∀ t v, jobs (.task t) = some v → ∃ i, v = .number i
  listed : ∀ t, (∃ i, jobs (.task t) = some (.number i)) ↔ living t

def Table.add (jobs : Table) (i : Nat) (t : Task) : Table :=
  update (update jobs (.number i) (some (.task t))) (.task t) (some (.number i))

def Table.remove (jobs : Table) (i : Nat) (t : Task) : Table :=
  update (update jobs (.number i) none) (.task t) none

theorem number_ne_task (i : Nat) (t : Task) : Key.number i ≠ .task t := nofun

theorem Table.add_number (jobs : Table) (i : Nat) (t : Task) (i' : Nat) :
    jobs.add i t (.number i') = if i' = i then some (.task t) else jobs (.number i') := by
  rw [Table.add, update_of_ne (number_ne_task i' t), update_apply]
  simp only [Key.number.injEq]

theorem Table.add_task (jobs : Table) (i : Nat) (t t' : Task) :
    jobs.add i t (.task t') = if t' = t then some (.number i) else jobs (.task t') := by
  rw [Table.add, update_apply, update_of_ne (number_ne_task i t').symm]
  simp only [Key.task.injEq]

theorem Table.remove_number (jobs : Table) (i : Nat) (t : Task) (i' : Nat) :
    jobs.remove i t (.number i') = if i' = i then none else jobs (.number i') := by
  rw [Table.remove, update_of_ne (number_ne_task i' t), update_apply]
  simp only [Key.number.injEq]

theorem Table.remove_task (jobs : Table) (i : Nat) (t t' : Task) :
    jobs.remove i t (.task t') = if t' = t then none else jobs (.task t') := by
  rw [Table.remove, update_apply, update_of_ne (number_ne_task i t').symm]
  simp only [Key.task.injEq]

namespace Exact

variable {jobs : Table} {living living' : Task → Prop}

theorem empty : Exact (fun _ => none) fun _ => False :=
  ⟨fun _ _ => iff_of_false nofun nofun, nofun, nofun, fun _ => iff_of_false nofun nofun⟩

theorem congr (h : Exact jobs living) (hsame : ∀ t, living' t ↔ living t) : Exact jobs living' :=
  ⟨h.both, h.numbers, h.tasks, fun t => (h.listed t).trans (hsame t).symm⟩

theorem task_none (h : Exact jobs living) {t : Task} (ht : ¬ living t) : jobs (.task t) = none := by
  cases hjob : jobs (.task t) with
  | none => rfl
  | some v =>
    obtain ⟨i, rfl⟩ := h.tasks t v hjob
    exact absurd ((h.listed t).mp ⟨i, hjob⟩) ht

theorem add (h : Exact jobs living) {i : Nat} {t : Task} (hi : jobs (.number i) = none)
    (ht : ¬ living t) (hsame : ∀ t', living' t' ↔ living t' ∨ t' = t) :
    Exact (jobs.add i t) living' where
  both i' t' := by
    have htask := h.task_none ht
    rw [jobs.add_number, jobs.add_task]
    by_cases hi' : i' = i <;> by_cases ht' : t' = t
    · rw [if_pos hi', if_pos ht', hi', ht']
      exact iff_of_true rfl rfl
    · rw [if_pos hi', if_neg ht', hi', ← h.both, hi]
      refine iff_of_false (fun heq => ht' ?_) nofun
      cases heq
      rfl
    · rw [if_neg hi', if_pos ht', h.both, ht', htask]
      refine iff_of_false nofun fun heq => hi' ?_
      cases heq
      rfl
    · rw [if_neg hi', if_neg ht']
      exact h.both i' t'
  numbers i' v hv := by
    rw [jobs.add_number] at hv
    split at hv
    · exact ⟨t, (Option.some.inj hv).symm⟩
    · exact h.numbers i' v hv
  tasks t' v hv := by
    rw [jobs.add_task] at hv
    split at hv
    · exact ⟨i, (Option.some.inj hv).symm⟩
    · exact h.tasks t' v hv
  listed t' := by
    rw [jobs.add_task, hsame]
    by_cases ht' : t' = t
    · rw [if_pos ht']
      exact iff_of_true ⟨i, rfl⟩ (.inr ht')
    · rw [if_neg ht', h.listed]
      exact ⟨.inl, fun hor => hor.resolve_right ht'⟩

theorem remove (h : Exact jobs living) {i : Nat} {t : Task} (hjob : jobs (.task t) = some (.number i))
    (hsame : ∀ t', living' t' ↔ living t' ∧ t' ≠ t) : Exact (jobs.remove i t) living' where
  both i' t' := by
    have hnumber := (h.both i t).mpr hjob
    rw [jobs.remove_number, jobs.remove_task]
    by_cases hi' : i' = i <;> by_cases ht' : t' = t
    · rw [if_pos hi', if_pos ht']
      exact iff_of_false nofun nofun
    · rw [if_pos hi', if_neg ht', hi', ← h.both, hnumber]
      refine iff_of_false nofun fun heq => ht' ?_
      cases heq
      rfl
    · rw [if_neg hi', if_pos ht', h.both, ht', hjob]
      refine iff_of_false (fun heq => hi' ?_) nofun
      cases heq
      rfl
    · rw [if_neg hi', if_neg ht']
      exact h.both i' t'
  numbers i' v hv := by
    rw [jobs.remove_number] at hv
    split at hv
    · cases hv
    · exact h.numbers i' v hv
  tasks t' v hv := by
    rw [jobs.remove_task] at hv
    split at hv
    · cases hv
    · exact h.tasks t' v hv
  listed t' := by
    rw [jobs.remove_task, hsame]
    by_cases ht' : t' = t
    · rw [if_pos ht']
      exact iff_of_false nofun fun hand => hand.2 ht'
    · rw [if_neg ht', h.listed]
      exact ⟨fun hliving => ⟨hliving, ht'⟩, And.left⟩

end Exact

/-! ## The job table of the shell -/

def State.living (s : State) (t : Task) : Prop := t ∈ s.background ∧ t ∈ s.hooked

def JobTable (s : State) : Prop := Exact s.runningjobs s.living

def SoundJobs (s : State) : Event → Prop
  | .killjob jobid outcome => ∀ t, s.runningjobs (.number jobid) = some (.task t) → outcome ≠ .survives
  | _ => True

instance (s : State) : DecidablePred (SoundJobs s)
  | .killjob jobid outcome =>
    match h : s.runningjobs (.number jobid) with
    | some (.task t) =>
      decidable_of_iff (outcome ≠ .survives)
        ⟨fun hne _ _ => hne, fun hall => hall t h⟩
    | some (.number _) => isTrue fun _ heq => absurd (h.symm.trans heq) nofun
    | none => isTrue fun _ heq => absurd (h.symm.trans heq) nofun
  | .receive _ | .interrupt | .suspend | .turn _ _ | .finish _ _ => isTrue trivial

namespace JobTable

variable {s : State}

theorem init : JobTable .init := Exact.empty.congr fun _ => iff_of_false (fun h => nomatch h.1) id

/-- A job is taken off the table when it ends. -/
theorem die (h : JobTable s) (htasks : Tasks s) (t : Task) {results : Option Bool}
    (hr : results ≠ none ∨ s.foreground = some t) : JobTable (s.die t results) := by
  have herase : ∀ t', t' ∈ s.hooked.erase t ↔ t' ≠ t ∧ t' ∈ s.hooked := fun t' =>
    htasks.nodup.mem_erase_iff
  rcases s.die_cases t results with ⟨-, heq⟩ | ⟨hhooked, hfg, heq⟩ | ⟨-, -, -, v, hv, heq⟩ |
    ⟨hhooked, hne, hfail, heq⟩
  · rwa [heq]
  · rw [heq]
    refine Exact.congr h fun t' => and_congr_right fun hback => ?_
    rw [herase]
    refine ⟨And.right, fun hmem => ⟨?_, hmem⟩⟩
    rintro rfl
    exact (htasks.foreground t' hfg).2 hback
  · obtain ⟨i, rfl⟩ := Exact.tasks h t v hv
    rw [heq]
    refine Exact.remove h hv fun t' => ?_
    show t' ∈ s.background ∧ t' ∈ s.hooked.erase t ↔ _
    rw [herase]
    exact ⟨fun ⟨hback, hne, hmem⟩ => ⟨⟨hback, hmem⟩, hne⟩, fun ⟨⟨hback, hmem⟩, hne⟩ => ⟨hback, hne, hmem⟩⟩
  · -- the task is listed, since it is not in foreground
    have hback : t ∈ s.background := by
      by_contra hback
      exact hne (htasks.single t hhooked hback)
    obtain ⟨i, hi⟩ := (Exact.listed h t).mpr ⟨hback, hhooked⟩
    rcases hfail with hnone | hnone
    · rcases hr with hsome | hfg
      · exact absurd hnone hsome
      · exact absurd hfg hne
    · rw [hi] at hnone
      cases hnone

variable {border : Nat}

theorem putInBackground (h : JobTable s) (htasks : Tasks s)
    (hborder : s.runningjobs.array.IsBorder border) : JobTable (s.putInBackground border) := by
  unfold State.putInBackground
  cases hfg : s.foreground with
  | none => exact h
  | some t =>
    obtain ⟨hhooked, hback⟩ := htasks.foreground t hfg
    refine Exact.add h hborder.2 (fun hliving => hback hliving.1) fun t' => ?_
    show t' ∈ t :: s.background ∧ t' ∈ s.hooked ↔ (t' ∈ s.background ∧ t' ∈ s.hooked) ∨ t' = t
    rw [List.mem_cons]
    constructor
    · rintro ⟨rfl | hback', hmem⟩
      · exact .inr rfl
      · exact .inl ⟨hback', hmem⟩
    · rintro (⟨hback', hmem⟩ | rfl)
      · exact ⟨.inr hback', hmem⟩
      · exact ⟨.inl rfl, hhooked⟩

theorem tryToCompileAndRun (h : JobTable s) (htasks : Tasks s) (load : List Str → Loaded)
    (hborder : s.runningjobs.array.IsBorder border) :
    JobTable (s.tryToCompileAndRun load border) := by
  have hfresh : s.fresh ∉ s.background := fun hmem => Nat.lt_irrefl _ (htasks.old_background _ hmem)
  rcases s.tryToCompileAndRun_cases load border with ⟨lines, heq⟩ | heq | heq
  · rw [heq]
    exact h
  · rw [heq]
    refine Exact.congr h fun t => and_congr_right fun hback => ?_
    rw [List.mem_cons]
    refine ⟨fun hor => hor.resolve_left ?_, .inr⟩
    rintro rfl
    exact hfresh hback
  · rw [heq]
    refine Exact.add h hborder.2 (fun hliving => hfresh hliving.1) fun t => ?_
    show t ∈ s.fresh :: s.background ∧ t ∈ s.fresh :: s.hooked ↔ _
    rw [List.mem_cons, List.mem_cons]
    constructor
    · rintro ⟨heq | hback, heq' | hmem⟩
      · exact .inr heq
      · exact .inr heq
      · exact .inr heq'
      · exact .inl ⟨hback, hmem⟩
    · rintro (⟨hback, hmem⟩ | rfl)
      · exact ⟨.inr hback, .inr hmem⟩
      · exact ⟨.inl rfl, .inl rfl⟩

theorem handle (h : JobTable s) (htasks : Tasks s) (load : List Str → Loaded)
    (hborder : s.runningjobs.array.IsBorder border) (outcome : Outcome) (item : Item) :
    JobTable (s.handle load border outcome item) := by
  cases item with
  | line l =>
    unfold State.handle
    simp only
    split
    · exact tryToCompileAndRun (s := { s with
        lines := s.lines ++ [l.text], used := s.used ++ [l.id] }) h
        (htasks.congr rfl rfl rfl rfl) load hborder
    · exact h
  | done => exact h
  | interrupt received =>
    unfold State.handle
    simp only
    cases hfg : s.foreground with
    | none => exact h
    | some t =>
      cases outcome with
      | survives => exact h.die htasks t (.inr hfg)
      | ends shown => exact h.die htasks t (.inl nofun)
  | suspend received => exact h.putInBackground htasks hborder

theorem step (h : JobTable s) (htasks : Tasks s) (load : List Str → Loaded) {e : Event}
    (he : Enabled s e) (hs : SoundJobs s e) : JobTable (step load s e) := by
  cases e with
  | receive _ | interrupt | suspend => exact h
  | turn border outcome =>
    unfold Shell.step
    cases s.fifo with
    | nil => exact h
    | cons item fifo =>
      exact handle (s := { s with fifo := fifo }) h (htasks.congr rfl rfl rfl rfl) load he outcome item
  | finish t shown => exact h.die htasks t (.inl nofun)
  | killjob jobid outcome =>
    cases hjob : s.runningjobs (.number jobid) with
    | none =>
      rw [Shell.step, hjob]
      exact h
    | some v =>
      obtain ⟨t, rfl⟩ := Exact.numbers h jobid v hjob
      rw [Shell.step, hjob]
      cases outcome with
      | survives => exact absurd rfl (hs t hjob)
      | ends shown => exact h.die htasks t (.inl nofun)

theorem sound_of_step (h : JobTable s) (htasks : Tasks s) {load : List Str → Loaded} {e : Event}
    (h' : JobTable (Shell.step load s e)) : SoundJobs s e := by
  cases e with
  | receive _ | interrupt | suspend | turn _ _ | finish _ _ => trivial
  | killjob jobid outcome =>
    rintro t hjob rfl
    have hlisted : s.runningjobs (.task t) = some (.number jobid) := (Exact.both h jobid t).mp hjob
    obtain ⟨hback, hhooked⟩ := (Exact.listed h t).mp ⟨jobid, hlisted⟩
    have hstep : Shell.step load s (.killjob jobid .survives) = s.die t none := by
      rw [Shell.step, hjob]
      rfl
    rcases s.die_cases t none with ⟨hnot, -⟩ | ⟨-, hfg, -⟩ | ⟨-, -, hnone, -⟩ | ⟨-, -, -, heq⟩
    · exact hnot hhooked
    · exact (htasks.foreground t hfg).2 hback
    · exact hnone rfl
    · rw [hstep, heq] at h'
      have hliving := (Exact.listed h' t).mp ⟨jobid, hlisted⟩
      exact (htasks.nodup.mem_erase_iff.mp hliving.2).1 rfl

end JobTable

/-! ## Every run -/

/-- In every run in which the jobs that are killed end, the job table is exact; and a job that survives
its killing makes it wrong. -/
theorem job_table_exact (load : List Str → Loaded) {s : State}
    (h : Runs (step load) (fun s e => Enabled s e ∧ SoundJobs s e) .init s) :
    JobTable s ∧ ∀ e, Enabled s e → (JobTable (step load s e) ↔ SoundJobs s e) := by
  have hinv : Tasks s ∧ JobTable s :=
    h.invariant (I := fun s => Tasks s ∧ JobTable s)
      (fun _ e he hi => ⟨hi.1.step load e, hi.2.step hi.1 load he.1 he.2⟩) ⟨.init, .init⟩
  exact ⟨hinv.2, fun e he => ⟨hinv.2.sound_of_step hinv.1, fun hs => hinv.2.step hinv.1 load he hs⟩⟩

/-- A line runs in background, another one is suspended, and the first one is killed. -/
theorem job_table_exact_killed :
    JobTable ([.receive ['&'], .turn 0 .survives, .receive [], .turn 1 .survives, .suspend,
      .turn 1 .survives, .killjob 1 (.ends true), .turn 0 .survives].foldl
        (step fun _ => .code) .init) :=
  (job_table_exact _ (Along.runs (by decide))).1

/-- A job is killed before it begins: its end is signalled, and it stays in the table. -/
theorem killed_job_listed :
    let events : List Event := [.receive ['&'], .turn 0 .survives, .killjob 1 .survives]
    let s := events.foldl (step fun _ => .code) .init
    Along (step fun _ => .code) Enabled .init events ∧
      s.runningjobs (.number 1) = some (.task 0) ∧ s.hooked = [] := by
  decide

end Mihini.Shell
