import Mihini.Update.Machine

/-!
# The invariant of the update machine

It holds of the runs in which one task at a time moves the update.
-/

namespace Mihini.Update

open Mihini.Lib List

/-! ## Updates -/

namespace CurrentUpdate

def ledger (u : CurrentUpdate) : Option (List (Cmp × Option Int)) :=
  u.manifest.map fun comps => comps.map fun c => (c.cmp, c.result)

def Complete (u : CurrentUpdate) : Prop := ∃ cs, u.ledger = some cs ∧ ∀ c ∈ cs, c.2 = some 200

def forget (u : CurrentUpdate) : CurrentUpdate :=
  { u with
    updateDirectory := false
    manifest := u.manifest.map fun comps => comps.map fun c => { c with retries := 0 } }

@[simp]
theorem forget_ledger (u : CurrentUpdate) : u.forget.ledger = u.ledger := by
  cases hman : u.manifest with
  | none => simp [forget, ledger, hman]
  | some comps => simp [forget, ledger, hman]

end CurrentUpdate

/-- What the machine keeps of an update; `full` asks for what its reports and its package need,
too. -/
structure Good (full : Prop) (u : CurrentUpdate) : Prop where
  pos : 1 ≤ u.step
  le : u.step ≤ lastStep
  early : u.step < lastStep → u.result = none
  index : u.step < 4 → u.index = 0
  done : ∀ cs, u.ledger = some cs → ∀ c ∈ cs.take (u.index - 1), c.2 = some 200
  rest : ∀ cs, u.ledger = some cs → ∀ c ∈ cs.drop u.index, c.2 = none
  complete : u.step = lastStep → u.result = none ∨ u.result = some 200 → u.Complete
  updatefile : full → u.infos.dropped → 3 ≤ u.step → u.updatefile

variable {full : Prop}

namespace Good

variable {u u' : CurrentUpdate}

theorem congr (h : Good full u) (hforget : u'.forget = u.forget) : Good full u' := by
  have hledger : u'.ledger = u.ledger := by
    rw [← u'.forget_ledger, hforget, u.forget_ledger]
  have hstep : u'.step = u.step := (congrArg CurrentUpdate.step hforget :)
  have hresult : u'.result = u.result := (congrArg CurrentUpdate.result hforget :)
  have hindex : u'.index = u.index := (congrArg CurrentUpdate.index hforget :)
  have hinfos : u'.infos = u.infos := (congrArg CurrentUpdate.infos hforget :)
  have hfile : u'.updatefile = u.updatefile := (congrArg CurrentUpdate.updatefile hforget :)
  constructor
  · rw [hstep]; exact h.pos
  · rw [hstep]; exact h.le
  · rw [hstep, hresult]; exact h.early
  · rw [hstep, hindex]; exact h.index
  · rw [hledger, hindex]; exact h.done
  · rw [hledger, hindex]; exact h.rest
  · rw [hstep, hresult, CurrentUpdate.Complete, hledger]; exact h.complete
  · rw [hinfos, hstep, hfile]; exact h.updatefile

theorem next (h : Good full u) (hlt : u.step < lastStep) (hcomplete : u.step = 4 → u.Complete)
    (hfile : full → u.step = 2 → u.infos.dropped → u.updatefile) :
    Good full { u with step := u.step + 1 } where
  pos := by simp
  le := hlt
  early _ := h.early hlt
  index hstep := h.index (by simp at hstep; omega)
  done := h.done
  rest := h.rest
  complete hstep _ := hcomplete (by simpa [lastStep] using hstep)
  updatefile hfull hdropped hstep := by
    by_cases htwo : u.step = 2
    · exact hfile hfull htwo hdropped
    · exact h.updatefile hfull hdropped (by simp at hstep; omega)

theorem fail {code : Int} (h : Good full u) (hcode : code ≠ 200)
    (hfile : full → u.infos.dropped → u.updatefile) :
    Good full { u with result := some code, step := lastStep } where
  pos := by simp [lastStep]
  le := le_refl _
  early hstep := absurd hstep (by simp)
  index hstep := absurd hstep (by simp [lastStep])
  done := h.done
  rest := h.rest
  complete _ hres := by simp [hcode] at hres
  updatefile hfull hdropped _ := hfile hfull hdropped

theorem abort (h : Good full u) (hfile : full → u.infos.dropped → u.updatefile) :
    Good full (abortupdate u) where
  pos := by simp [abortupdate, lastStep]
  le := le_refl _
  early hstep := absurd hstep (by simp [abortupdate])
  index hstep := absurd hstep (by simp [abortupdate, lastStep])
  done := h.done
  rest := h.rest
  complete _ hres := by simp [abortupdate] at hres
  updatefile hfull hdropped _ := hfile hfull hdropped

theorem requested (h : Good full u) (r : Option Request) (paused : Bool) :
    Good full { u with request := r, paused := paused } :=
  ⟨h.pos, h.le, h.early, h.index, h.done, h.rest, h.complete, h.updatefile⟩

end Good

/-! ## Worlds -/

def Fits (u : CurrentUpdate) : Task → Prop
  | .stepstart | .resumeupdate => True
  | .starting => u.step < lastStep
  | .start step => u.step = step
  | .download _ => u.step = 2 ∧ u.infos.dropped = false
  | .check => u.step = 3
  | .nextdispatchstep | .alert _ | .sendmsgasset _ => u.step = 4
  | .failed code => u.step = 4 ∧ code ≠ 200
  | .acknowledge | .acknowledged => u.step = lastStep ∧ u.result.isSome ∧ u.infos.ticketid
  | .cleaned => u.step = lastStep ∧ u.result.isSome

def Follows (full : Prop) (w : World) (u : CurrentUpdate) : Busy → Prop
  | .recorded _ | .identified _ => u.step = 4
  | .indexed => u.step = 4 ∧ 1 ≤ u.index
  | .closing =>
    u.step = lastStep ∧ u.result.isSome ∧ w.swlist.lastupdate = u.result ∧
      (full → w.drop ≠ some u.infos.id)

def Task.ends : Task → Bool
  | .acknowledged | .cleaned => true
  | _ => false

def Acknowledged (w : World) (u : CurrentUpdate) : Prop :=
  u.infos.ticketid ∧ ((∃ t ∈ w.tasks, t.ends) ∨ w.busy = some .closing)

def Stored (w : World) : Prop :=
  w.savedUpdate.map CurrentUpdate.forget = w.update.map CurrentUpdate.forget

structure Inv (full : Prop) (w : World) : Prop where
  good : ∀ u, w.update = some u → Good full u
  stored : Stored w
  single : w.tasks.length ≤ 1
  fits : ∀ u, w.update = some u → ∀ t ∈ w.tasks, Fits u t
  follows : ∀ u, w.update = some u → ∀ b, w.busy = some b → w.tasks = [] ∧ Follows full w u b
  absent : w.update = none → w.tasks = [] ∧ w.busy = none
  reported : full → ∀ u, w.update = some u → Acknowledged w u → w.reports = 1
  unreported : full → ∀ u, w.update = some u → ¬Acknowledged w u → w.reports = 0
  drop : full → ∀ id, w.drop = some id → id ∉ w.finished
  own : full → ∀ u, w.update = some u → w.drop = some u.infos.id → u.infos.dropped
  gone : full → ∀ u, w.update = some u → .cleaned ∈ w.tasks → w.drop ≠ some u.infos.id

/-- The world in the middle of a task that acts on `u`. -/
structure Idle (full : Prop) (w : World) (u : CurrentUpdate) : Prop where
  update : w.update = some u
  good : Good full u
  tasks : w.tasks = []
  busy : w.busy = none
  reports : full → w.reports = 0
  drop : full → ∀ id, w.drop = some id → id ∉ w.finished
  own : full → w.drop = some u.infos.id → u.infos.dropped

structure After (full : Prop) (step : Nat) (w : World) : Prop where
  inv : Inv full w
  update : ∃ u, w.update = some u ∧ step ≤ u.step

variable {w : World}

theorem After.mono {m n : Nat} (h : After full n w) (hle : m ≤ n) : After full m w where
  inv := h.inv
  update := by
    obtain ⟨u, hu, hn⟩ := h.update
    exact ⟨u, hu, le_trans hle hn⟩

namespace Idle

variable {w : World} {u : CurrentUpdate}

theorem notAcknowledged (h : Idle full w u) : ¬Acknowledged w u := by
  simp [Acknowledged, h.tasks, h.busy]

theorem rest (h : Idle full w u) (hs : Stored w) : After full u.step w where
  update := ⟨u, h.update, le_refl _⟩
  inv :=
    { good := by simpa [h.update] using h.good
      stored := hs
      single := by simp [h.tasks]
      fits := by simp [h.tasks]
      follows := by simp [h.busy]
      absent := by simp [h.update]
      reported := by
        simp only [h.update, Option.some.injEq, forall_eq']
        intro _ hack
        exact absurd hack h.notAcknowledged
      unreported := fun hfull _ _ _ => h.reports hfull
      drop := h.drop
      own := by simpa [h.update] using h.own
      gone := by simp [h.tasks] }

/-- A task is started. -/
theorem run {t : Task} (h : Idle full w u) (hs : Stored w) (ht : Fits u t) (hne : t.ends = false) :
    After full u.step (w.run t) where
  update := ⟨u, h.update, le_refl _⟩
  inv :=
    { good := by simpa [World.run, h.update] using h.good
      stored := hs
      single := by simp [World.run, h.tasks]
      fits := by simpa [World.run, h.tasks, h.update] using ht
      follows := by simp [World.run, h.busy]
      absent := by simp [World.run, h.update]
      reported := by
        intro _ u' _ hack
        simp [Acknowledged, World.run, h.tasks, h.busy, hne] at hack
      unreported := fun hfull _ _ _ => h.reports hfull
      drop := h.drop
      own := by simpa [World.run, h.update] using h.own
      gone := by
        intro _ _ _ hmem
        have heq : t = .cleaned := by simpa [World.run, h.tasks, eq_comm] using hmem
        simp [heq, Task.ends] at hne }

theorem write {b : Busy} (h : Idle full w u) (hs : Stored w) (hb : Follows full w u b)
    (hne : b ≠ .closing) : After full u.step { w with busy := some b } where
  update := ⟨u, h.update, le_refl _⟩
  inv :=
    { good := by simpa [h.update] using h.good
      stored := hs
      single := by simp [h.tasks]
      fits := by simp [h.tasks]
      follows := by
        simp only [h.update, Option.some.injEq, forall_eq']
        refine ⟨h.tasks, ?_⟩
        cases b with
        | closing => exact absurd rfl hne
        | _ => exact hb
      absent := by simp [h.update]
      reported := by
        intro _ u' _ hack
        simp [Acknowledged, h.tasks, hne] at hack
      unreported := fun hfull _ _ _ => h.reports hfull
      drop := h.drop
      own := by simpa [h.update] using h.own
      gone := by simp [h.tasks] }

theorem modify (h : Idle full w u) (f : CurrentUpdate → CurrentUpdate) (hgood : Good full (f u))
    (hinfos : (f u).infos = u.infos) : Idle full (w.modify f) (f u) where
  update := by simp [World.modify, h.update]
  good := hgood
  tasks := h.tasks
  busy := h.busy
  reports := h.reports
  drop := h.drop
  own := by simpa [World.modify, hinfos] using h.own

theorem savecurrentupdate (h : Idle full w u) : Idle full w.savecurrentupdate u :=
  ⟨h.update, h.good, h.tasks, h.busy, h.reports, h.drop, h.own⟩

theorem stophooks (h : Idle full w u) : Idle full w.stophooks u :=
  ⟨h.update, h.good, h.tasks, h.busy, h.reports, h.drop, h.own⟩

end Idle

theorem stored_savecurrentupdate (w : World) : Stored w.savecurrentupdate := rfl

/-! ## Steps -/

variable {u : CurrentUpdate}

theorem startEvent_of_good (h : Good full u) :
    startEvent u.step = some (decide (u.step < lastStep)) := by
  have hpos := h.pos
  have hle := h.le
  by_cases hlt : u.step < lastStep
  · simp [startEvent, hpos, hlt]
  · have heq : u.step = lastStep := by omega
    simp [startEvent, heq]

namespace Idle

variable {w : World} {u : CurrentUpdate}

theorem startstep (h : Idle full w u) (hs : Stored w) : After full u.step w.startstep := by
  have heq : w.startstep = { w with starts := w.starts + 1 }.run (.start u.step) := by
    simp [World.startstep, h.update, startEvent_of_good h.good, World.run]
  rw [heq]
  have hidle : Idle full { w with starts := w.starts + 1 } u :=
    ⟨h.update, h.good, h.tasks, h.busy, h.reports, h.drop, h.own⟩
  exact hidle.run hs rfl rfl

theorem stepstart (h : Idle full w u) (hs : Stored w) : After full u.step w.stepstart := by
  by_cases hlt : u.step < lastStep
  · have heq : w.stepstart = w.run .starting := by
      simp [World.stepstart, h.update, startEvent_of_good h.good, hlt]
    rw [heq]
    exact h.run hs hlt rfl
  · have heq : w.stepstart = w.startstep := by
      simp [World.stepstart, h.update, startEvent_of_good h.good, hlt]
    rw [heq]
    exact h.startstep hs

theorem resumeupdate (h : Idle full w u) (hs : Stored w) : After full u.step w.resumeupdate := by
  by_cases hpaused : u.paused
  · have heq : w.resumeupdate = w := by simp [World.resumeupdate, h.update, hpaused]
    rw [heq]
    exact h.rest hs
  · have heq : w.resumeupdate = w.stepstart := by simp [World.resumeupdate, h.update, hpaused]
    rw [heq]
    exact h.stepstart hs

theorem abortupdate (h : Idle full w u) (hfile : full → u.infos.dropped → u.updatefile) :
    Idle full (w.modify Update.abortupdate).savecurrentupdate (Update.abortupdate u) :=
  (h.modify _ (h.good.abort hfile) rfl).savecurrentupdate

theorem pauseupdate (h : Idle full w u) :
    Idle full (w.modify Update.pauseupdate).savecurrentupdate (Update.pauseupdate u) :=
  (h.modify _ (h.good.requested none true) rfl).savecurrentupdate

theorem starting (h : Idle full w u) (hs : Stored w)
    (hfile : full → u.request = some .abort → u.infos.dropped → u.updatefile) :
    After full u.step w.starting := by
  match hreq : u.request with
  | none =>
    have heq : w.starting = w.startstep := by simp [World.starting, h.update, hreq]
    rw [heq]
    exact h.startstep hs
  | some .resume =>
    have heq : w.starting =
        ((w.modify fun u => { u with request := none }).savecurrentupdate).startstep := by
      simp [World.starting, h.update, hreq]
    rw [heq]
    have hcleared := h.modify (fun u => { u with request := none })
      (h.good.requested none u.paused) rfl
    exact hcleared.savecurrentupdate.startstep (stored_savecurrentupdate _)
  | some .abort =>
    have heq : w.starting =
        ((w.modify Update.abortupdate).savecurrentupdate).startstep := by
      simp [World.starting, h.update, hreq]
    rw [heq]
    have habort := (h.abortupdate fun hfull => hfile hfull hreq).startstep (stored_savecurrentupdate _)
    exact habort.mono h.good.le
  | some .pause =>
    have heq : w.starting = (w.modify Update.pauseupdate).savecurrentupdate := by
      simp [World.starting, h.update, hreq]
    rw [heq]
    exact h.pauseupdate.rest (stored_savecurrentupdate _)

theorem succeed (h : Idle full w u) (hlt : u.step < lastStep) (hcomplete : u.step = 4 → u.Complete)
    (hfile : full → u.step = 2 → u.infos.dropped → u.updatefile) :
    After full u.step (w.stepfinished none) := by
  have heq : w.stepfinished none =
      ((w.modify fun u => { u with step := u.step + 1 }).savecurrentupdate).stepstart := by
    simp [World.stepfinished, h.update, startEvent_of_good h.good]
  rw [heq]
  have hnext := h.modify (fun u => { u with step := u.step + 1 })
    (h.good.next hlt hcomplete hfile) rfl
  exact (hnext.savecurrentupdate.stepstart (stored_savecurrentupdate _)).mono (Nat.le_succ _)

theorem fail {code : Int} (h : Idle full w u) (hcode : code ≠ 200)
    (hfile : full → u.infos.dropped → u.updatefile) : After full u.step (w.stepfinished (some code)) := by
  have heq : w.stepfinished (some code) =
      ((w.modify fun u =>
        { u with result := some code, step := lastStep }).savecurrentupdate).stepstart := by
    simp [World.stepfinished, h.update, startEvent_of_good h.good]
  rw [heq]
  have hfailed := h.modify (fun u => { u with result := some code, step := lastStep })
    (h.good.fail hcode hfile) rfl
  exact (hfailed.savecurrentupdate.stepstart (stored_savecurrentupdate _)).mono h.good.le

/-! ## The dispatcher -/

end Idle

theorem forget_countRetry (c : Ref) (u : CurrentUpdate) :
    (World.countRetry c u).forget = u.forget := by
  by_cases htable : u.table = c.table ∧ u.copy = c.copy
  · cases hman : u.manifest with
    | none => simp [World.countRetry, htable, CurrentUpdate.forget, hman]
    | some comps =>
      have hmap : (comps.modify (c.index - 1) World.addRetry).map
          (fun c => { c with retries := 0 }) = comps.map fun c => { c with retries := 0 } := by
        apply ext_getElem?
        intro j
        rw [List.getElem?_map, List.getElem?_map, List.getElem?_modify, Option.map_eq_map,
          Option.map_map]
        apply Option.map_congr
        intro comp _
        by_cases hij : c.index - 1 = j
        · simp [hij, World.addRetry]
        · simp [hij]
      simp [World.countRetry, htable, CurrentUpdate.forget, hman, hmap]
  · simp [World.countRetry, htable]

namespace Idle

variable {w : World} {u : CurrentUpdate}

theorem sendmsgasset (h : Idle full w u) (hs : Stored w) (c : Ref) :
    After full u.step (w.sendmsgasset c) := by
  have hforget := forget_countRetry c u
  have hinfos : (World.countRetry c u).infos = u.infos :=
    (congrArg CurrentUpdate.infos hforget :)
  have hstep : (World.countRetry c u).step = u.step := (congrArg CurrentUpdate.step hforget :)
  have hcounted := h.modify (World.countRetry c) (h.good.congr hforget) hinfos
  have heq : w.sendmsgasset c =
      { w.modify (World.countRetry c) with
        timercell := true
        sent := (c, (World.countRetry c u).index) :: w.sent
        commands := c :: w.commands } := by
    simp [World.sendmsgasset, h.update, World.modify]
  rw [heq, ← hstep]
  have hsent : Idle full { w.modify (World.countRetry c) with
      timercell := true
      sent := (c, (World.countRetry c u).index) :: w.sent
      commands := c :: w.commands } (World.countRetry c u) :=
    ⟨hcounted.update, hcounted.good, h.tasks, h.busy, h.reports, h.drop, hcounted.own⟩
  apply hsent.rest
  simpa [Stored, World.modify, h.update, hforget] using hs

theorem alertcomponent (h : Idle full w u) (hs : Stored w) (hstep : u.step = 4) (retries : Nat) :
    After full u.step (w.alertcomponent retries) := by
  match hcomp : u.manifest.bind fun comps => World.component comps u.index with
  | none =>
    have heq : w.alertcomponent retries = w := by
      simp [World.alertcomponent, h.update, hcomp]
    rw [heq]
    exact h.rest hs
  | some comp =>
    by_cases hretries : retries ≤ comp.retries
    · have heq : w.alertcomponent retries = w.stepfinished (some 461) := by
        simp [World.alertcomponent, h.update, hcomp, hretries]
      rw [heq]
      exact h.fail (by decide) fun hfull hdropped => h.good.updatefile hfull hdropped (by omega)
    · have heq : w.alertcomponent retries = w.run (.alert ⟨u.table, u.copy, u.index⟩) := by
        simp [World.alertcomponent, h.update, hcomp, hretries, progressEvent, hstep, lastStep]
      rw [heq]
      exact h.run hs hstep rfl

/-- What `alert` leaves when the notification is over. -/
theorem alert (h : Idle full w u) (hs : Stored w) (hstep : u.step = 4) (c : Ref) :
    After full u.step (w.alert c) := by
  have hfile : full → u.infos.dropped → u.updatefile := fun hfull hdropped =>
    h.good.updatefile hfull hdropped (by omega)
  match hreq : u.request with
  | none =>
    have heq : w.alert c = w.sendmsgasset c := by
      simp [World.alert, World.stepprogress, h.update, hreq]
    rw [heq]
    exact h.sendmsgasset hs c
  | some .resume =>
    have heq : w.alert c = w.sendmsgasset c := by
      simp [World.alert, World.stepprogress, h.update, hreq]
    rw [heq]
    exact h.sendmsgasset hs c
  | some .abort =>
    have heq : w.alert c = ((w.modify Update.abortupdate).savecurrentupdate).run .stepstart := by
      simp [World.alert, World.stepprogress, h.update, hreq]
    rw [heq]
    have habort := (h.abortupdate hfile).run (stored_savecurrentupdate _)
      (show Fits _ .stepstart from trivial) rfl
    exact habort.mono h.good.le
  | some .pause =>
    have heq : w.alert c = (w.modify Update.pauseupdate).savecurrentupdate := by
      simp [World.alert, World.stepprogress, h.update, hreq]
    rw [heq]
    exact h.pauseupdate.rest (stored_savecurrentupdate _)

end Idle

theorem ledger_of_component {comps : List Dispatched} {comp : Dispatched}
    (hman : u.manifest = some comps) (hcomp : World.component comps u.index = some comp) :
    u.index ≠ 0 ∧ ∃ cs, u.ledger = some cs ∧ cs[u.index - 1]? = some (comp.cmp, comp.result) := by
  unfold World.component at hcomp
  split at hcomp
  case isTrue => cases hcomp
  case isFalse hindex =>
    refine ⟨hindex, comps.map fun c => (c.cmp, c.result), ?_, ?_⟩
    · simp [CurrentUpdate.ledger, hman]
    · simp [hcomp]

theorem Good.index_succ (h : Good full u) (hstep : u.step = 4)
    (hcurrent : u.index ≠ 0 → ∀ cs, u.ledger = some cs → ∀ c, cs[u.index - 1]? = some c →
      c.2 = some 200) : Good full { u with index := u.index + 1 } where
  pos := h.pos
  le := h.le
  early := h.early
  index hlt := absurd hlt (by simp [hstep])
  done := by
    intro cs hcs c hc
    by_cases hindex : u.index = 0
    · simp [hindex] at hc
    have hsucc : u.index + 1 - 1 = u.index - 1 + 1 := by omega
    simp only [hsucc, take_add_one] at hc
    rcases mem_append.mp hc with hc | hc
    · exact h.done cs hcs c hc
    · exact hcurrent hindex cs hcs c (by simpa using hc)
  rest := by
    intro cs hcs c hc
    have hmem : c ∈ (cs.drop u.index).drop 1 := by simpa using hc
    exact h.rest cs hcs c (mem_of_mem_drop hmem)
  complete hlast := absurd hlast (by simp [hstep, lastStep])
  updatefile := h.updatefile

theorem Good.complete_of_index {comps : List Dispatched} (h : Good full u)
    (hman : u.manifest = some comps) (hindex : 1 ≤ u.index)
    (hcomp : World.component comps u.index = none) : u.Complete := by
  have hlen : comps.length ≤ u.index - 1 := by
    have hne : u.index ≠ 0 := by omega
    simpa [World.component, hne] using hcomp
  have hledger : u.ledger = some (comps.map fun c => (c.cmp, c.result)) := by
    simp [CurrentUpdate.ledger, hman]
  have hdone := h.done _ hledger
  rw [take_of_length_le (by simpa using hlen)] at hdone
  exact ⟨_, hledger, hdone⟩

namespace Idle

variable {w : World} {u : CurrentUpdate}

theorem indexed (h : Idle full w u) (hs : Stored w) (hstep : u.step = 4) (hindex : 1 ≤ u.index)
    (retries : Nat) : After full u.step (w.indexed retries) := by
  match hman : u.manifest with
  | none =>
    have heq : w.indexed retries = w := by simp [World.indexed, h.update, hman]
    rw [heq]
    exact h.rest hs
  | some comps =>
    match hcomp : World.component comps u.index with
    | none =>
      have heq : w.indexed retries = w.stepfinished none := by
        simp [World.indexed, h.update, hman, hcomp]
      rw [heq]
      exact h.succeed (by simp [hstep, lastStep])
        (fun _ => h.good.complete_of_index hman hindex hcomp) (by simp [hstep])
    | some comp =>
      have heq : w.indexed retries = w.alertcomponent retries := by
        simp [World.indexed, h.update, hman, hcomp]
      rw [heq]
      exact h.alertcomponent hs hstep retries

theorem nextindex (h : Idle full w u) (hstep : u.step = 4)
    (hcurrent : u.index ≠ 0 → ∀ cs, u.ledger = some cs → ∀ c, cs[u.index - 1]? = some c →
      c.2 = some 200) :
    After full u.step
      { (w.modify fun u => { u with index := u.index + 1 }).savecurrentupdate with
        busy := some .indexed } := by
  have hnext := h.modify (fun u => { u with index := u.index + 1 })
    (h.good.index_succ hstep hcurrent) rfl
  exact hnext.savecurrentupdate.write (stored_savecurrentupdate _) ⟨hstep, by simp⟩ nofun

theorem nextdispatchstep (h : Idle full w u) (hs : Stored w) (hstep : u.step = 4) (retries : Nat) :
    After full u.step (w.nextdispatchstep retries) := by
  match hman : u.manifest with
  | none =>
    have heq : w.nextdispatchstep retries = w := by simp [World.nextdispatchstep, h.update, hman]
    rw [heq]
    exact h.rest hs
  | some comps =>
    by_cases hindex : u.index = 0
    · have heq : w.nextdispatchstep retries =
          { (w.modify fun u => { u with index := u.index + 1 }).savecurrentupdate with
            busy := some .indexed } := by
        simp [World.nextdispatchstep, h.update, hman, hindex]
      rw [heq]
      exact h.nextindex hstep (absurd hindex)
    match hcomp : World.component comps u.index with
    | none =>
      have heq : w.nextdispatchstep retries = w := by
        simp [World.nextdispatchstep, h.update, hman, hindex, hcomp]
      rw [heq]
      exact h.rest hs
    | some comp =>
      match hres : comp.result with
      | none =>
        have heq : w.nextdispatchstep retries = w.alertcomponent retries := by
          simp [World.nextdispatchstep, h.update, hman, hindex, hcomp, hres]
        rw [heq]
        exact h.alertcomponent hs hstep retries
      | some code =>
        by_cases hcode : code = 200
        · have heq : w.nextdispatchstep retries =
              { (w.modify fun u => { u with index := u.index + 1 }).savecurrentupdate with
                busy := some .indexed } := by
            simp [World.nextdispatchstep, h.update, hman, hindex, hcomp, hres, hcode]
          rw [heq]
          apply h.nextindex hstep
          intro _ cs hcs c hc
          obtain ⟨_, cs', hcs', hget⟩ := ledger_of_component hman hcomp
          rw [hcs] at hcs'
          cases hcs'
          rw [hget] at hc
          cases hc
          simp [hres, hcode]
        · have heq : w.nextdispatchstep retries = w.stepfinished (some code) := by
            simp [World.nextdispatchstep, h.update, hman, hindex, hcomp, hres, hcode]
          rw [heq]
          exact h.fail hcode fun hfull hdropped => h.good.updatefile hfull hdropped (by omega)

theorem swlist (h : Idle full w u) (l l' : SwList) :
    Idle full { w with swlist := l, savedSwlist := l' } u :=
  ⟨h.update, h.good, h.tasks, h.busy, h.reports, h.drop, h.own⟩

theorem applied (h : Idle full w u) (hs : Stored w) (hstep : u.step = 4) (uid : Nat) :
    After full u.step (w.applied uid) := by
  match hcomp : u.manifest.bind fun comps => World.component comps u.index with
  | none =>
    have heq : w.applied uid = w := by simp [World.applied, h.update, hcomp]
    rw [heq]
    exact h.rest hs
  | some comp =>
    let l := World.putSwlist w.swlist uid comp.cmp
    have heq : w.applied uid =
        { w with swlist := l, savedSwlist := l }.run .nextdispatchstep := by
      simp [World.applied, World.saveswlist, h.update, hcomp, l]
    rw [heq]
    exact (h.swlist l l).run hs hstep rfl

theorem recorded (h : Idle full w u) (hs : Stored w) (hstep : u.step = 4) (code : Int) :
    After full u.step (w.recorded code) := by
  have hstopped := h.stophooks
  by_cases hcode : code = 200
  · match hcomp : u.manifest.bind fun comps => World.component comps u.index with
    | none =>
      have heq : w.recorded code = w.stophooks := by
        simp [World.recorded, hcode, hstopped.update, hcomp]
      rw [heq]
      exact hstopped.rest hs
    | some comp =>
      match huid : World.uidOf w.stophooks.swlist comp.cmp.name with
      | some uid =>
        have heq : w.recorded code = w.stophooks.applied uid := by
          simp [World.recorded, hcode, hstopped.update, hcomp, huid]
        rw [heq]
        exact hstopped.applied hs hstep uid
      | none =>
        let uid := World.newUid w.stophooks.swlist
        let l := { w.stophooks.swlist with appuid := some uid }
        have heq : w.recorded code =
            { { w.stophooks with swlist := l, savedSwlist := l } with
              busy := some (.identified uid) } := by
          simp [World.recorded, hcode, hstopped.update, hcomp, huid, World.saveswlist, uid, l]
        rw [heq]
        exact (hstopped.swlist l l).write hs hstep nofun
  · have heq : w.recorded code = w.stophooks.run (.failed code) := by
      simp [World.recorded, hcode]
    rw [heq]
    exact hstopped.run hs ⟨hstep, hcode⟩ rfl

end Idle

theorem ledger_setResult (u : CurrentUpdate) (code : Int) :
    (World.setResult u code).ledger =
      u.ledger.map fun cs => cs.modify (u.index - 1) fun c => (c.1, some code) := by
  cases hman : u.manifest with
  | none => simp [CurrentUpdate.ledger, World.setResult, hman]
  | some comps =>
    simp only [CurrentUpdate.ledger, World.setResult, hman, Option.map_some, Option.some.injEq]
    apply ext_getElem?
    intro j
    rw [List.getElem?_map, List.getElem?_modify, List.getElem?_modify, List.getElem?_map,
      Option.map_eq_map, Option.map_eq_map, Option.map_map, Option.map_map]
    apply Option.map_congr
    intro comp _
    by_cases hj : u.index - 1 = j
    · simp [hj]
    · simp [hj]

theorem Good.setResult (h : Good full u) (hstep : u.step = 4)
    (hindex : u.index ≠ 0) (code : Int) : Good full (World.setResult u code) where
  pos := h.pos
  le := h.le
  early := h.early
  index := h.index
  done := by
    intro cs hcs c hc
    rw [ledger_setResult] at hcs
    obtain ⟨cs', hcs', rfl⟩ := Option.map_eq_some_iff.mp hcs
    have htake : (cs'.modify (u.index - 1) fun c => (c.1, some code)).take (u.index - 1) =
        cs'.take (u.index - 1) := by
      apply ext_getElem?
      intro j
      simp only [List.getElem?_take, List.getElem?_modify]
      by_cases hj : j < u.index - 1
      · have hne : u.index - 1 ≠ j := by omega
        simp [hj, hne]
      · simp [hj]
    rw [show (World.setResult u code).index = u.index from rfl, htake] at hc
    exact h.done cs' hcs' c hc
  rest := by
    intro cs hcs c hc
    rw [ledger_setResult] at hcs
    obtain ⟨cs', hcs', rfl⟩ := Option.map_eq_some_iff.mp hcs
    have hdrop : (cs'.modify (u.index - 1) fun c => (c.1, some code)).drop u.index =
        cs'.drop u.index := by
      apply ext_getElem?
      intro j
      have hne : u.index - 1 ≠ u.index + j := by omega
      simp [hne]
    rw [show (World.setResult u code).index = u.index from rfl, hdrop] at hc
    exact h.rest cs' hcs' c hc
  complete hlast := absurd hlast (by simp [World.setResult, hstep, lastStep])
  updatefile := h.updatefile

namespace Idle

variable {w : World} {u : CurrentUpdate}

theorem updateResult (h : Idle full w u) (hstep : u.step = 4) {cmpname : String}
    (hacc : w.accepts cmpname) (code : Int) : After full u.step (w.updateResult cmpname code) := by
  have hindex : u.index ≠ 0 := by
    intro hzero
    have hcomp : (u.manifest.bind fun comps => World.component comps u.index) = none := by
      cases u.manifest with
      | none => rfl
      | some comps => simp [World.component, hzero]
    simp [World.accepts, h.update, hcomp] at hacc
  have heq : w.updateResult cmpname code =
      { (w.modify fun u => World.setResult u code).savecurrentupdate with
        busy := some (.recorded code) } := by
    simp [World.updateResult, hacc]
  rw [heq]
  have hset := h.modify (fun u => World.setResult u code) (h.good.setResult hstep hindex code) rfl
  exact hset.savecurrentupdate.write (stored_savecurrentupdate _) hstep nofun

end Idle

/-! ## The end -/

theorem Good.finish (h : Good full u) (hstep : u.step = lastStep) :
    Good full { u with result := some (u.result.getD 200) } where
  pos := h.pos
  le := h.le
  early hlt := absurd hlt (by simp [hstep])
  index := h.index
  done := h.done
  rest := h.rest
  complete _ hres := by
    apply h.complete hstep
    cases hr : u.result with
    | none => exact .inl rfl
    | some code => exact .inr (by simpa [hr] using hres)
  updatefile := h.updatefile

/-- `savestate`, when the result has been acknowledged or needs not be. -/
theorem savestate_after (hu : w.update = some u)
    (hgood : Good full u) (hstep : u.step = lastStep) (hres : u.result.isSome) (hs : Stored w)
    (htasks : w.tasks = []) (hbusy : w.busy = none)
    (hrep : full → w.reports = if u.infos.ticketid then 1 else 0)
    (hdrop : full → ∀ id, w.drop = some id → id ∉ w.finished)
    (hown : full → w.drop = some u.infos.id → u.infos.dropped) :
    After full u.step w.savestate := by
  let d := if u.updatefile && u.infos.dropped then none else w.drop
  have heq : w.savestate = { w with drop := d, tasks := [.cleaned] } := by
    simp [World.savestate, World.run, hu, htasks, d]
  have hd : ∀ id, d = some id → w.drop = some id := by
    intro id hid
    by_cases hc : (u.updatefile && u.infos.dropped) = true
    · simp [d, hc] at hid
    · simpa [d, hc] using hid
  have hgone : full → d ≠ some u.infos.id := by
    intro hfull hid
    have hdropped := hown hfull (hd _ hid)
    have hfile := hgood.updatefile hfull hdropped (by simp [hstep, lastStep])
    simp [d, hfile, hdropped] at hid
  rw [heq]
  exact
    { update := ⟨u, hu, le_refl _⟩
      inv :=
        { good := by simpa [hu] using hgood
          stored := hs
          single := by simp
          fits := by simpa [hu, Fits] using ⟨hstep, hres⟩
          follows := by simp [hbusy]
          absent := by simp [hu]
          reported := by
            simp only [hu, Option.some.injEq, forall_eq']
            intro hfull hack
            simpa [hack.1] using hrep hfull
          unreported := by
            simp only [hu, Option.some.injEq, forall_eq']
            intro hfull hack
            have hticket : ¬u.infos.ticketid = true := by
              simpa [Acknowledged, Task.ends] using hack
            simpa [hticket] using hrep hfull
          drop := fun hfull id hid => hdrop hfull id (hd id hid)
          own := by
            simp only [hu, Option.some.injEq, forall_eq']
            exact fun hfull hid => absurd hid (hgone hfull)
          gone := by
            simp only [hu, Option.some.injEq, forall_eq']
            exact fun hfull _ => hgone hfull } }

/-- The end of `savestate`. -/
theorem cleaned_after (hu : w.update = some u)
    (hgood : Good full u) (ht : Fits u .cleaned) (hs : Stored w) (htasks : w.tasks = [])
    (hrep : full → w.reports = if u.infos.ticketid then 1 else 0)
    (hdrop : full → ∀ id, w.drop = some id → id ∉ w.finished)
    (hown : full → w.drop = some u.infos.id → u.infos.dropped)
    (hgone : full → w.drop ≠ some u.infos.id) : After full u.step w.cleaned := by
  let l := { w.swlist with lastupdate := u.result }
  have heq : w.cleaned = { w with swlist := l, savedSwlist := l, busy := some .closing } := by
    simp [World.cleaned, World.saveswlist, hu, l]
  rw [heq]
  exact
    { update := ⟨u, hu, le_refl _⟩
      inv :=
        { good := by simpa [hu] using hgood
          stored := hs
          single := by simp [htasks]
          fits := by simp [htasks]
          follows := by
            simp only [hu, Option.some.injEq, forall_eq']
            exact ⟨htasks, ht.1, ht.2, rfl, hgone⟩
          absent := by simp [hu]
          reported := by
            simp only [hu, Option.some.injEq, forall_eq']
            intro hfull hack
            simpa [hack.1] using hrep hfull
          unreported := by
            simp only [hu, Option.some.injEq, forall_eq']
            intro hfull hack
            have hticket : ¬u.infos.ticketid = true := by
              simpa [Acknowledged, htasks] using hack
            simpa [hticket] using hrep hfull
          drop := hdrop
          own := by
            simp only [hu, Option.some.injEq, forall_eq']
            exact hown
          gone := by simp [htasks] } }

namespace Idle

variable {w : World} {u : CurrentUpdate}

theorem finishUpdate (h : Idle full w u) (hstep : u.step = lastStep) :
    After full u.step w.finishUpdate := by
  have hfin := (h.modify (fun u => { u with result := some (u.result.getD 200) })
    (h.good.finish hstep) rfl).savecurrentupdate
  by_cases hticket : u.infos.ticketid
  · have heq : w.finishUpdate = ((w.modify fun u =>
        { u with result := some (u.result.getD 200) }).savecurrentupdate).run .acknowledge := by
      simp [World.finishUpdate, World.modify, World.savecurrentupdate, h.update, hticket]
    rw [heq]
    exact hfin.run (stored_savecurrentupdate _) ⟨hstep, rfl, hticket⟩ rfl
  · have heq : w.finishUpdate = ((w.modify fun u =>
        { u with result := some (u.result.getD 200) }).savecurrentupdate).savestate := by
      simp [World.finishUpdate, World.modify, World.savecurrentupdate, h.update, hticket]
    rw [heq]
    have hclosing := savestate_after hfin.update hfin.good hstep rfl (stored_savecurrentupdate _)
      hfin.tasks hfin.busy (by simpa [hticket] using hfin.reports) hfin.drop hfin.own
    exact hclosing

theorem acknowledged (h : Idle full w u) (hs : Stored w) (ht : Fits u .acknowledge) :
    After full u.step { w.run .acknowledged with reports := w.reports + 1 } where
  update := ⟨u, h.update, le_refl _⟩
  inv :=
    { good := by simpa [World.run, h.update] using h.good
      stored := hs
      single := by simp [World.run, h.tasks]
      fits := by simpa [World.run, h.tasks, h.update, Fits] using ht
      follows := by simp [World.run, h.busy]
      absent := by simp [World.run, h.update]
      reported := fun hfull _ _ _ => by simp [h.reports hfull]
      unreported := by
        simp only [World.run, h.update, Option.some.injEq, forall_eq']
        intro _ hunack
        exact absurd ⟨ht.2.2, .inl ⟨.acknowledged, mem_cons_self .., rfl⟩⟩ hunack
      drop := h.drop
      own := by simpa [World.run, h.update] using h.own
      gone := by simp [World.run, h.tasks] }

/-! ## The other steps -/

theorem updatefile (h : Idle full w u) (hstep : u.step = 2) :
    Idle full (w.modify fun u => { u with updatefile := true }) { u with updatefile := true } :=
  h.modify (fun u => { u with updatefile := true })
    ⟨h.good.pos, h.good.le, h.good.early, h.good.index, h.good.done, h.good.rest,
      fun hlast => absurd hlast (by simp [hstep, lastStep]), fun _ _ _ => rfl⟩ rfl

variable {o : World.Outcome}

theorem download (h : Idle full w u) (ht : Fits u (.download 0))
    (ho : o.Possible) : After full u.step (w.download o) := by
  have hstep : u.step = 2 := ht.1
  cases o with
  | success cmps =>
    exact h.succeed (by simp [hstep, lastStep]) (by simp [hstep]) (by simp [ht.2])
  | failure code =>
    have hcode : code ≠ 200 := by
      intro heq
      have hmem : code ∈ World.failureCodes := ho
      rw [heq] at hmem
      exact absurd hmem (by decide)
    exact h.fail hcode (by simp [ht.2])

theorem download_package (h : Idle full w u) (hstep : u.step = 2) (ho : o.Possible) :
    After full u.step (w.start 2 o) := by
  have hfile := h.updatefile hstep
  by_cases hm3da : u.infos.m3da
  · have hdropped : u.infos.dropped = false := by
      cases hd : u.infos.dropped with
      | false => rfl
      | true => simp [Package.m3da_of_dropped hd] at hm3da
    cases o with
    | failure code =>
      have heq : w.start 2 (.failure code) = w.download (.failure code) := by
        simp [World.start, World.download, h.update, hm3da]
      rw [heq]
      exact h.download ⟨hstep, hdropped⟩ ho
    | success cmps =>
      have heq : w.start 2 (.success cmps) =
          { ((w.modify fun u => { u with updatefile := true }).savecurrentupdate).run
              (.download w.made) with made := w.made + 1 } := by
        simp [World.start, h.update, hm3da]
      have hmade : Idle full { (w.modify fun u =>
          { u with updatefile := true }).savecurrentupdate with made := w.made + 1 }
          { u with updatefile := true } :=
        ⟨hfile.update, hfile.good, hfile.tasks, hfile.busy, hfile.reports, hfile.drop, hfile.own⟩
      rw [heq]
      exact hmade.run (t := .download w.made) rfl ⟨hstep, hdropped⟩ rfl
  · have heq : w.start 2 o =
        (w.modify fun u => { u with updatefile := true }).stepfinished none := by
      simp [World.start, h.update, hm3da]
    rw [heq]
    exact hfile.succeed (by simp [hstep, lastStep]) (by simp [hstep]) (by simp)

theorem failure (h : Idle full w u) (hstep : 3 ≤ u.step) {code : Int}
    (ho : (World.Outcome.failure code).Possible) : After full u.step (w.stepfinished (some code)) := by
  have hcode : code ≠ 200 := by
    intro heq
    have hmem : code ∈ World.failureCodes := ho
    rw [heq] at hmem
    exact absurd hmem (by decide)
  exact h.fail hcode fun hfull hdropped => h.good.updatefile hfull hdropped hstep

theorem check_package (h : Idle full w u) (hs : Stored w) (hstep : u.step = 3)
    (ho : o.Possible) : After full u.step (w.start 3 o) := by
  cases o with
  | failure code => exact h.failure (Nat.le_of_eq hstep.symm) ho
  | success cmps =>
    have hforget : { u with updateDirectory := true }.forget = u.forget := rfl
    have hdir := h.modify (fun u => { u with updateDirectory := true }) (h.good.congr hforget) rfl
    have hstored : Stored (w.modify fun u => { u with updateDirectory := true }) := by
      simpa [Stored, World.modify, h.update, hforget] using hs
    exact hdir.run (t := .check) hstored hstep rfl

theorem check (h : Idle full w u) (hstep : u.step = 3) (ho : o.Possible) :
    After full u.step (w.check o) := by
  cases o with
  | failure code => exact h.failure (Nat.le_of_eq hstep.symm) ho
  | success cmps =>
    let comps : List Dispatched := cmps.map fun c => ⟨c, none, 0⟩
    have hledger : { u with manifest := some comps }.ledger = some (cmps.map fun c => (c, none)) := by
      simp [CurrentUpdate.ledger, comps]
    have hindex : u.index = 0 := h.good.index (by omega)
    have hgood : Good full { u with manifest := some comps } :=
      { pos := h.good.pos
        le := h.good.le
        early := h.good.early
        index := h.good.index
        done := by simp [hindex]
        rest := by
          intro cs hcs c hc
          rw [hledger] at hcs
          cases hcs
          have hmem := mem_of_mem_drop hc
          simp only [mem_map] at hmem
          obtain ⟨cmp, _, rfl⟩ := hmem
          rfl
        complete := fun hlast => absurd hlast (by simp [hstep, lastStep])
        updatefile := h.good.updatefile }
    have hchecked := h.modify (fun u => { u with manifest := some comps }) hgood rfl
    exact hchecked.succeed (by simp [hstep, lastStep]) (by simp [hstep]) (by simp [hstep])

theorem dispatch_update (h : Idle full w u) (hs : Stored w) (hstep : u.step = 4)
    (o : World.Outcome) : After full u.step (w.start 4 o) := by
  by_cases hc : (u.updatefile && u.manifest.isSome) = true
  · let d := if u.infos.dropped then none else w.drop
    have heq : w.start 4 o = { w with drop := d }.run .nextdispatchstep := by
      simp only [World.start, h.update, hc, if_true, d]
    have hd : ∀ id, d = some id → w.drop = some id := by
      intro id hid
      by_cases hdropped : u.infos.dropped
      · simp [d, hdropped] at hid
      · simpa [d, hdropped] using hid
    have hidle : Idle full { w with drop := d } u :=
      { h with
        drop := fun hfull id hid => h.drop hfull id (hd id hid)
        own := fun hfull hid => h.own hfull (hd _ hid) }
    rw [heq]
    exact hidle.run hs hstep rfl
  · have heq : w.start 4 o = w.stepfinished (some 464) := by
      simp only [World.start, h.update, hc]
      rfl
    rw [heq]
    exact h.fail (by decide) fun hfull hdropped => h.good.updatefile hfull hdropped (by omega)

theorem start (h : Idle full w u) (hs : Stored w) (ho : o.Possible) :
    After full u.step (w.start u.step o) := by
  have hpos := h.good.pos
  have hle := h.good.le
  simp only [lastStep] at hle
  have hcases : u.step = 1 ∨ u.step = 2 ∨ u.step = 3 ∨ u.step = 4 ∨ u.step = 5 := by omega
  rcases hcases with hstep | hstep | hstep | hstep | hstep
  · rw [show w.start u.step o = w.stepfinished none by rw [hstep]; rfl]
    exact h.succeed (by simp [hstep, lastStep]) (by simp [hstep]) (by simp [hstep])
  · rw [show w.start u.step o = w.start 2 o by rw [hstep]]
    exact h.download_package hstep ho
  · rw [show w.start u.step o = w.start 3 o by rw [hstep]]
    exact h.check_package hs hstep ho
  · rw [show w.start u.step o = w.start 4 o by rw [hstep]]
    exact h.dispatch_update hs hstep o
  · rw [show w.start u.step o = w.finishUpdate by rw [hstep]; rfl]
    exact h.finishUpdate hstep

end Idle

/-! ## Tasks -/

namespace Inv

variable {w : World} {u : CurrentUpdate}

theorem idle (h : Inv full w) (hu : w.update = some u) (hbusy : w.busy = none)
    (htasks : w.tasks = []) : Idle full w u where
  update := hu
  good := h.good u hu
  tasks := htasks
  busy := hbusy
  reports := fun hfull => h.unreported hfull u hu (by simp [Acknowledged, htasks, hbusy])
  drop := h.drop
  own := fun hfull => h.own hfull u hu

/-- The task that runs is the only one. -/
theorem erase (h : Inv full w) {t : Task} (ht : t ∈ w.tasks) :
    w.tasks = [t] ∧ w.tasks.erase t = [] := by
  have hsingle := h.single
  match htasks : w.tasks with
  | [] => simp [htasks] at ht
  | [t'] =>
    have heq : t = t' := by simpa [htasks] using ht
    simp [heq]
  | _ :: _ :: _ => simp [htasks] at hsingle

theorem take (h : Inv full w) (hu : w.update = some u) (hbusy : w.busy = none) {t : Task}
    (ht : t ∈ w.tasks) (hne : t.ends = false) :
    Idle full { w with tasks := w.tasks.erase t } u := by
  have herase := h.erase ht
  have hunack : ¬Acknowledged w u := by
    simp [Acknowledged, herase.1, hbusy, hne]
  exact ⟨hu, h.good u hu, herase.2, hbusy, fun hfull => h.unreported hfull u hu hunack, h.drop,
    fun hfull => h.own hfull u hu⟩

end Inv

end Mihini.Update
