import Mihini.Update.Soundness

/-!
# Paused updates

What happens to a paused update in the runs in which nothing but a resume or an abort moves it,
and in which no task starts while another one moves the update.
-/

namespace Mihini.Update

open Mihini.Lib Option

/-! ## The condition -/

def Running (w : World) : Prop := ∀ u ∈ w.update, u.paused = false

def Undisturbed (w : World) : Event → Prop
  | .answer _ indextmp r => Refused w indextmp r → w.tasks = [] ∧ Running w
  | .notified n =>
    (∃ u ∈ w.update, u.request = some .abort ∨ u.request = some .pause) → .download n ∈ w.tasks
  | .assetresponsetimeout => w.timercell → w.current.isSome → w.tasks = [] ∧ Running w
  | .registered => w.assetcxhook.isSome → w.tasks = [] ∧ Running w
  | .result cmpname _ => w.accepts cmpname → w.tasks = [] ∧ Running w
  | .request r => (∃ u ∈ w.update, u.paused) → r ≠ .pause → w.tasks = []
  | .localupdate | .newupdate _ => w.update = none → w.tasks = []
  | _ => True

instance (w : World) : Decidable (Running w) := inferInstanceAs (Decidable (∀ u ∈ _, _))

instance (w : World) : (e : Event) → Decidable (Undisturbed w e)
  | .answer _ _ _ | .notified _ | .assetresponsetimeout | .registered | .result _ _ | .request _
  | .localupdate | .newupdate _ => inferInstanceAs (Decidable (_ → _))
  | .run _ _ | .goOn | .notifier _ | .drop _ | .restart => isTrue trivial

/-! ## The invariant -/

def Started (u : CurrentUpdate) : Task → Prop
  | .start step => u.step = step
  | .check => u.step = 3
  | _ => True

structure Calm (w : World) : Prop where
  stored : Stored w
  single : w.tasks.length ≤ 1
  busy : w.busy ≠ none → w.tasks = []
  paused : ∀ u, w.update = some u → u.paused → w.busy = none ∧ ∀ t ∈ w.tasks, t = .resumeupdate
  started : ∀ u, w.update = some u → ∀ t ∈ w.tasks, Started u t

structure Turn (w : World) : Prop where
  tasks : w.tasks = []
  busy : w.busy = none
  running : Running w

namespace Turn

variable {w : World}

theorem rest (h : Turn w) (hs : Stored w) : Calm w where
  stored := hs
  single := by simp [h.tasks]
  busy := fun _ => h.tasks
  paused := fun u hu hpaused => by simp [h.running u hu] at hpaused
  started := by simp [h.tasks]

theorem run (h : Turn w) (hs : Stored w) {t : Task}
    (ht : ∀ u, w.update = some u → Started u t) : Calm (w.run t) where
  stored := hs
  single := by simp [World.run, h.tasks]
  busy := fun hbusy => absurd h.busy hbusy
  paused := fun u hu hpaused => by simp [h.running u hu] at hpaused
  started := by simpa [World.run, h.tasks] using ht

theorem write (h : Turn w) (hs : Stored w) (b : Busy) : Calm { w with busy := some b } where
  stored := hs
  single := by simp [h.tasks]
  busy := fun _ => h.tasks
  paused := fun u hu hpaused => by simp [h.running u hu] at hpaused
  started := by simp [h.tasks]

theorem modify (h : Turn w) (f : CurrentUpdate → CurrentUpdate)
    (hf : ∀ u, u.paused = false → (f u).paused = false) : Turn (w.modify f) where
  tasks := h.tasks
  busy := h.busy
  running := by
    intro u hu
    obtain ⟨u', hu', rfl⟩ := map_eq_some_iff.mp hu
    exact hf u' (h.running u' hu')

theorem save (h : Turn w) : Turn w.savecurrentupdate := ⟨h.tasks, h.busy, h.running⟩

theorem pauseupdate (h : Turn w) : Calm (w.modify Update.pauseupdate).savecurrentupdate where
  stored := rfl
  single := by simp [World.modify, World.savecurrentupdate, h.tasks]
  busy := fun _ => h.tasks
  paused := fun _ _ _ => ⟨h.busy, by simp [World.modify, World.savecurrentupdate, h.tasks]⟩
  started := by simp [World.modify, World.savecurrentupdate, h.tasks]

theorem startstep (h : Turn w) (hs : Stored w) : Calm w.startstep := by
  cases hu : w.update with
  | none =>
    have heq : w.startstep = w := by simp [World.startstep, hu]
    rw [heq]
    exact h.rest hs
  | some u =>
    cases hev : startEvent u.step with
    | none =>
      have heq : w.startstep = w := by simp [World.startstep, hu, hev]
      rw [heq]
      exact h.rest hs
    | some _ =>
      have heq : w.startstep = { w with starts := w.starts + 1 }.run (.start u.step) := by
        simp [World.startstep, World.run, hu, hev]
      have hcounted : Turn { w with starts := w.starts + 1 } := ⟨h.tasks, h.busy, h.running⟩
      rw [heq]
      apply hcounted.run hs
      intro u' hu'
      rw [Option.some.inj (hu'.symm.trans hu)]
      exact rfl

theorem stepstart (h : Turn w) (hs : Stored w) : Calm w.stepstart := by
  rw [World.stepstart]
  split
  · exact h.rest hs
  · split
    · exact h.rest hs
    · exact h.run hs fun _ _ => trivial
    · exact h.startstep hs

theorem stepfinished (h : Turn w)
    (hs : (∀ u, w.update = some u → startEvent u.step = none) → Stored w) (code : Option Int) :
    Calm (w.stepfinished code) := by
  cases hu : w.update with
  | none =>
    have heq : w.stepfinished code = w := by simp [World.stepfinished, hu]
    rw [heq]
    exact h.rest (hs (by simp [hu]))
  | some u =>
    cases hev : startEvent u.step with
    | none =>
      have heq : w.stepfinished code = w := by simp [World.stepfinished, hu, hev]
      rw [heq]
      exact h.rest (hs (by simpa [hu] using hev))
    | some _ =>
      cases code with
      | none =>
        have heq : w.stepfinished none =
            ((w.modify fun u => { u with step := u.step + 1 }).savecurrentupdate).stepstart := by
          simp [World.stepfinished, hu, hev]
        rw [heq]
        exact stepstart (save (h.modify _ fun _ hrun => hrun)) rfl
      | some code =>
        have heq : w.stepfinished (some code) = ((w.modify fun u =>
            { u with result := some code, step := lastStep }).savecurrentupdate).stepstart := by
          simp [World.stepfinished, hu, hev]
        rw [heq]
        exact stepstart (save (h.modify _ fun _ hrun => hrun)) rfl

theorem starting (h : Turn w) (hs : Stored w) : Calm w.starting := by
  rw [World.starting]
  split
  · exact h.rest hs
  split
  · exact h.startstep hs
  · exact startstep (save (h.modify _ fun _ hrun => hrun)) rfl
  · exact startstep (save (h.modify _ fun _ _ => rfl)) rfl
  · exact h.pauseupdate

theorem resumeupdate (h : Turn w) (hs : Stored w) : Calm w.resumeupdate := by
  rw [World.resumeupdate]
  split
  · exact h.rest hs
  · split
    · exact h.rest hs
    · exact h.stepstart hs

/-! ### The dispatcher -/

theorem stophooks (h : Turn w) : Turn w.stophooks := ⟨h.tasks, h.busy, h.running⟩

theorem sendmsgasset (h : Turn w) (hs : Stored w) (c : Ref) : Calm (w.sendmsgasset c) := by
  have hcounted : Turn (w.modify (World.countRetry c)) := by
    apply h.modify
    intro u hrun
    have hpaused : (World.countRetry c u).paused = u.paused :=
      (congrArg CurrentUpdate.paused (forget_countRetry c u) :)
    rw [hpaused, hrun]
  have hstored : Stored (w.modify (World.countRetry c)) := by
    rw [Stored, World.modify, map_map]
    rw [show CurrentUpdate.forget ∘ World.countRetry c = CurrentUpdate.forget from
      funext (forget_countRetry c)]
    exact hs
  rw [World.sendmsgasset]
  split
  · exact hcounted.rest hstored
  · exact rest ⟨hcounted.tasks, hcounted.busy, hcounted.running⟩ hstored

theorem alertcomponent (h : Turn w) (hs : Stored w) (retries : Nat) :
    Calm (w.alertcomponent retries) := by
  rw [World.alertcomponent]
  split
  · exact h.rest hs
  split
  · exact h.rest hs
  · split
    · exact h.stepfinished (fun _ => hs) _
    · split
      · exact h.rest hs
      · exact h.run hs fun _ _ => trivial
      · exact h.sendmsgasset hs _

theorem alert (h : Turn w) (hs : Stored w) (c : Ref) : Calm (w.alert c) := by
  cases hu : w.update with
  | none =>
    have heq : w.alert c = w := by simp [World.alert, World.stepprogress, hu]
    rw [heq]
    exact h.rest hs
  | some u =>
    cases hreq : u.request with
    | none =>
      have heq : w.alert c = w.sendmsgasset c := by
        simp [World.alert, World.stepprogress, hu, hreq]
      rw [heq]
      exact h.sendmsgasset hs c
    | some r =>
      cases r with
      | resume =>
        have heq : w.alert c = w.sendmsgasset c := by
          simp [World.alert, World.stepprogress, hu, hreq]
        rw [heq]
        exact h.sendmsgasset hs c
      | abort =>
        have heq : w.alert c = ((w.modify abortupdate).savecurrentupdate).run .stepstart := by
          simp [World.alert, World.stepprogress, hu, hreq]
        rw [heq]
        exact run (save (h.modify _ fun _ _ => rfl)) rfl fun _ _ => trivial
      | pause =>
        have heq : w.alert c = (w.modify Update.pauseupdate).savecurrentupdate := by
          simp [World.alert, World.stepprogress, hu, hreq]
        rw [heq]
        exact h.pauseupdate

theorem nextindex (h : Turn w) :
    Calm { (w.modify fun u => { u with index := u.index + 1 }).savecurrentupdate with
      busy := some .indexed } :=
  (h.modify (fun u => { u with index := u.index + 1 }) fun _ hrun => hrun).save.write rfl _

theorem nextdispatchstep (h : Turn w) (hs : Stored w) (retries : Nat) :
    Calm (w.nextdispatchstep retries) := by
  rw [World.nextdispatchstep]
  split
  · exact h.rest hs
  split
  · exact h.rest hs
  · simp only
    split
    · exact h.nextindex
    split
    · exact h.rest hs
    · split
      · exact h.alertcomponent hs retries
      · split
        · exact h.nextindex
        · exact h.stepfinished (fun _ => hs) _

theorem indexed (h : Turn w) (hs : Stored w) (retries : Nat) : Calm (w.indexed retries) := by
  rw [World.indexed]
  split
  · exact h.rest hs
  split
  · exact h.rest hs
  · split
    · exact h.alertcomponent hs retries
    · exact h.stepfinished (fun _ => hs) _

theorem updateResult (h : Turn w) (hs : Stored w) (cmpname : String) (code : Int) :
    Calm (w.updateResult cmpname code) := by
  rw [World.updateResult]
  split
  · exact (h.modify (fun u => World.setResult u code) fun _ hrun => hrun).save.write rfl _
  · exact h.rest hs

theorem swlist (h : Turn w) (l l' : SwList) : Turn { w with swlist := l, savedSwlist := l' } :=
  ⟨h.tasks, h.busy, h.running⟩

theorem applied (h : Turn w) (hs : Stored w) (uid : Nat) : Calm (w.applied uid) := by
  rw [World.applied]
  split
  · exact h.rest hs
  · next comp _ =>
    have hput := h.swlist (World.putSwlist w.swlist uid comp.cmp)
      (World.putSwlist w.swlist uid comp.cmp)
    exact hput.run hs fun _ _ => trivial

theorem recorded (h : Turn w) (hs : Stored w) (code : Int) : Calm (w.recorded code) := by
  rw [World.recorded]
  simp only
  split
  · split
    · exact h.stophooks.rest hs
    · split
      · exact h.stophooks.applied hs _
      · exact write (h.stophooks.swlist _ _) hs _
  · exact h.stophooks.run hs fun _ _ => trivial

/-! ### The end -/

theorem savestate (h : Turn w) (hs : Stored w) : Calm w.savestate := by
  rw [World.savestate]
  split
  · exact h.rest hs
  · next u _ =>
    have hremoved : Turn { w with
        drop := if u.updatefile && u.infos.dropped then none else w.drop } :=
      ⟨h.tasks, h.busy, h.running⟩
    exact hremoved.run hs fun _ _ => trivial

theorem cleaned (h : Turn w) (hs : Stored w) : Calm w.cleaned := by
  rw [World.cleaned]
  split
  · exact h.rest hs
  · next u _ =>
    have hlisted := h.swlist { w.swlist with lastupdate := u.result }
      { w.swlist with lastupdate := u.result }
    exact hlisted.write hs _

theorem closed (h : Turn w) (hs : Stored w) : Calm w.closed := by
  rw [World.closed]
  split
  · exact h.rest hs
  · exact rest ⟨h.tasks, h.busy, by simp [Running]⟩ rfl

theorem finishUpdate (h : Turn w) : Calm w.finishUpdate := by
  rw [World.finishUpdate]
  have hfin : Turn (w.modify fun u =>
      { u with result := some (u.result.getD 200) }).savecurrentupdate :=
    save (h.modify _ fun _ hrun => hrun)
  split
  · exact hfin.rest rfl
  · split
    · exact hfin.run rfl fun _ _ => trivial
    · exact hfin.savestate rfl

/-! ### The other steps -/

theorem start (h : Turn w) (hs : Stored w) {step : Nat}
    (hstep : ∀ u, w.update = some u → u.step = step) (o : World.Outcome) :
    Calm (w.start step o) := by
  have hvalid : 1 ≤ step → step ≤ 4 → ∀ u, w.update = some u → startEvent u.step ≠ none := by
    intro hpos hle u hu
    have hbounds : 1 ≤ step ∧ step < lastStep := ⟨hpos, Nat.lt_succ_of_le hle⟩
    simp [hstep u hu, startEvent, hbounds]
  have hsteps : step = 1 ∨ step = 2 ∨ step = 3 ∨ step = 4 ∨ step = 0 ∨ 5 ≤ step := by omega
  rcases hsteps with rfl | rfl | rfl | rfl | rfl | hle
  · exact h.stepfinished (fun _ => hs) _
  · cases hu : w.update with
    | none =>
      have heq : w.start 2 o = w := by simp [World.start, hu]
      rw [heq]
      exact h.rest hs
    | some u =>
      have hfile : Turn (w.modify fun u => { u with updatefile := true }) :=
        h.modify _ fun _ hrun => hrun
      by_cases hm3da : u.infos.m3da
      · cases o with
        | failure code =>
          have heq : w.start 2 (.failure code) = w.stepfinished (some code) := by
            simp [World.start, hu, hm3da]
          rw [heq]
          exact h.stepfinished (fun _ => hs) _
        | success cmps =>
          have heq : w.start 2 (.success cmps) =
              { ((w.modify fun u => { u with updatefile := true }).savecurrentupdate).run
                  (.download w.made) with made := w.made + 1 } := by
            simp [World.start, hu, hm3da]
          rw [heq]
          have hmade : Turn { (w.modify fun u =>
              { u with updatefile := true }).savecurrentupdate with made := w.made + 1 } :=
            ⟨hfile.tasks, hfile.busy, hfile.running⟩
          exact hmade.run (t := .download w.made) rfl fun _ _ => trivial
      · have heq : w.start 2 o =
            (w.modify fun u => { u with updatefile := true }).stepfinished none := by
          simp [World.start, hu, hm3da]
        rw [heq]
        apply hfile.stepfinished
        intro hnone
        have hnone' := hnone { u with updatefile := true } (by simp [World.modify, hu])
        exact absurd hnone' (hvalid (by omega) (by omega) u hu)
  · cases o with
    | failure code => exact h.stepfinished (fun _ => hs) _
    | success cmps =>
      have hdirectory : Turn (w.modify fun u => { u with updateDirectory := true }) :=
        h.modify _ fun _ hrun => hrun
      have hstored : Stored (w.modify fun u => { u with updateDirectory := true }) := by
        rw [Stored, World.modify, map_map]
        exact hs
      apply hdirectory.run hstored
      intro u' hu'
      obtain ⟨u, hu, rfl⟩ := map_eq_some_iff.mp hu'
      exact hstep u hu
  · rw [World.start]
    split
    · exact h.rest hs
    · next u _ =>
      split
      · have hdropped : Turn { w with drop := if u.infos.dropped then none else w.drop } :=
          ⟨h.tasks, h.busy, h.running⟩
        exact hdropped.run hs fun _ _ => trivial
      · exact h.stepfinished (fun _ => hs) _
  · exact h.finishUpdate
  · obtain ⟨n, rfl⟩ := Nat.exists_eq_add_of_le' hle
    exact h.finishUpdate

theorem check (h : Turn w) (hs : Stored w) (hstep : ∀ u, w.update = some u → u.step = 3)
    (o : World.Outcome) : Calm (w.check o) := by
  cases o with
  | failure code => exact h.stepfinished (fun _ => hs) _
  | success cmps =>
    have hchecked : Turn (w.modify fun u =>
        { u with manifest := some (cmps.map fun c => ⟨c, none, 0⟩) }) :=
      h.modify _ fun _ hrun => hrun
    apply hchecked.stepfinished
    intro hnone
    match hu : w.update with
    | none => simpa [Stored, World.modify, hu] using hs
    | some u =>
      have hnone' := hnone { u with manifest := some (cmps.map fun c => ⟨c, none, 0⟩) }
        (by simp [World.modify, hu])
      exact absurd hnone' (by simp [hstep u hu, startEvent, lastStep])

theorem download (h : Turn w) (hs : Stored w) (o : World.Outcome) : Calm (w.download o) := by
  cases o with
  | success cmps => exact h.stepfinished (fun _ => hs) _
  | failure code => exact h.stepfinished (fun _ => hs) _

end Turn

/-! ## Events -/

theorem calm_of_idle {w : World} (hs : Stored w) (htasks : w.tasks = []) (hbusy : w.busy = none) :
    Calm w where
  stored := hs
  single := by simp [htasks]
  busy := fun _ => htasks
  paused := fun _ _ _ => ⟨hbusy, by simp [htasks]⟩
  started := by simp [htasks]

namespace Calm

variable {w : World} {u : CurrentUpdate}

theorem aside (h : Calm w) (sent : List (Ref × Nat)) (notifiers : List Nat) (timercell : Bool)
    (assetcxhook : Option Ref) :
    Calm { w with
      sent := sent, notifiers := notifiers, timercell := timercell, assetcxhook := assetcxhook } :=
  ⟨h.stored, h.single, h.busy, h.paused, h.started⟩

theorem save (h : Calm w) : Calm w.savecurrentupdate :=
  ⟨rfl, h.single, h.busy, h.paused, h.started⟩

theorem erase (h : Calm w) {t : Task} (ht : t ∈ w.tasks) :
    w.tasks = [t] ∧ w.tasks.erase t = [] := by
  have hsingle := h.single
  match htasks : w.tasks with
  | [] => simp [htasks] at ht
  | [t'] =>
    have heq : t = t' := by simpa [htasks] using ht
    simp [heq]
  | _ :: _ :: _ => simp [htasks] at hsingle

theorem run {t : Task} {o : World.Outcome} (h : Calm w) (he : Enabled w (.run t o))
    (retries : Nat) : Calm (runTask retries w t o) := by
  obtain ⟨hbusy, ht, _⟩ := he
  have herase := (h.erase ht).2
  by_cases hrun : Running w
  · have hturn : Turn { w with tasks := w.tasks.erase t } := ⟨herase, hbusy, hrun⟩
    cases t with
    | stepstart => exact hturn.stepstart h.stored
    | starting => exact hturn.starting h.stored
    | start step => exact hturn.start h.stored (fun u hu => h.started u hu _ ht) o
    | check => exact hturn.check h.stored (fun u hu => h.started u hu _ ht) o
    | download n => exact hturn.download h.stored o
    | nextdispatchstep => exact hturn.nextdispatchstep h.stored retries
    | alert c => exact hturn.alert h.stored c
    | sendmsgasset c => exact hturn.sendmsgasset h.stored c
    | failed code => exact hturn.stepfinished (fun _ => h.stored) _
    | acknowledge =>
      cases o with
      | failure code => exact hturn.rest h.stored
      | success cmps =>
        have hreported : Turn { w with
            tasks := w.tasks.erase .acknowledge, reports := w.reports + 1 } :=
          ⟨herase, hbusy, hrun⟩
        exact hreported.run (t := .acknowledged) h.stored fun _ _ => trivial
    | acknowledged => exact hturn.savestate h.stored
    | cleaned => exact hturn.cleaned h.stored
    | resumeupdate => exact hturn.resumeupdate h.stored
  · have hpaused : ∃ u, w.update = some u ∧ u.paused := by
      by_contra hnone
      exact hrun fun u hu => by simpa using fun hp => hnone ⟨u, hu, hp⟩
    obtain ⟨u, hu, hp⟩ := hpaused
    have hresume := (h.paused u hu hp).2 t ht
    subst hresume
    have heq : runTask retries w .resumeupdate o =
        { w with tasks := w.tasks.erase .resumeupdate } := by
      simp [runTask, World.resumeupdate, hu, hp]
    rw [heq]
    exact calm_of_idle h.stored herase hbusy

theorem goOn (h : Calm w) (he : Enabled w .goOn) (retries : Nat) : Calm (goOn retries w) := by
  have hrun : Running w := by
    intro u hu
    by_contra hp
    exact he (h.paused u hu (by simpa using hp)).1
  have hturn : Turn { w with busy := none } := ⟨h.busy he, rfl, hrun⟩
  rw [Update.goOn]
  split
  · exact h
  · exact hturn.recorded h.stored _
  · exact hturn.applied h.stored _
  · exact hturn.indexed h.stored retries
  · exact hturn.closed h.stored

theorem answered (h : Calm w) (hbusy : w.busy = none) {indextmp : Nat} {r : World.Response}
    (hfree : Refused w indextmp r → w.tasks = [] ∧ Running w) (c : Ref) :
    Calm (w.answered c indextmp r) := by
  rw [World.answered]
  split
  · exact h
  · next u hu =>
    split
    · exact h
    · next comp hcomp =>
      split
      · exact h
      · next hres =>
        split
        · exact (h.aside w.sent w.notifiers w.timercell (some c)).save
        · next hhook =>
          split
          · next hok =>
            obtain ⟨htasks, hrun⟩ := hfree (refused_of_answered hu hcomp hres hhook hok)
            exact (Turn.stophooks ⟨htasks, hbusy, hrun⟩).stepfinished (fun _ => h.stored) _
          · exact h.save

theorem notified (h : Calm w) (hbusy : w.busy = none) {n : Nat}
    (hfree : Undisturbed w (.notified n)) : Calm (w.notified n) := by
  by_cases hreq : ∃ u ∈ w.update, u.request = some .abort ∨ u.request = some .pause
  · have hmem := hfree hreq
    obtain ⟨htasks, herase⟩ := h.erase hmem
    have hrun : Running w := by
      intro u hu
      by_contra hp
      have hresume := (h.paused u hu (by simpa using hp)).2 _ hmem
      cases hresume
    have hturn : Turn { w with tasks := [] } := ⟨rfl, hbusy, hrun⟩
    obtain ⟨u, hu, hreq⟩ := hreq
    have hu' : w.update = some u := hu
    rcases hreq with hreq | hreq
    · have heq : w.notified n =
          (({ w with tasks := [] }.modify abortupdate).savecurrentupdate).run .stepstart := by
        simp [World.notified, World.stepprogress, World.run, World.modify, World.savecurrentupdate,
          hu', hreq, htasks]
      rw [heq]
      exact Turn.run (Turn.save (hturn.modify _ fun _ _ => rfl)) rfl fun _ _ => trivial
    · have heq : w.notified n =
          ({ w with tasks := [] }.modify pauseupdate).savecurrentupdate := by
        simp [World.notified, World.stepprogress, World.modify, World.savecurrentupdate,
          hu', hreq, htasks]
      rw [heq]
      exact hturn.pauseupdate
  · cases hu : w.update with
    | none =>
      have heq : w.notified n = { w with tasks := w.tasks.erase (.download n) } := by
        simp [World.notified, World.stepprogress, hu]
      rw [heq]
      exact
        { stored := h.stored
          single := le_trans (List.length_erase_le ..) h.single
          busy := fun hb => absurd hbusy hb
          paused := by simp [hu]
          started := by simp [hu] }
    | some u =>
      rw [Inv.notified_of_request hu fun hr => hreq ⟨u, hu, hr⟩]
      exact h

theorem assetresponsetimeout (h : Calm w) (hbusy : w.busy = none)
    (hfree : Undisturbed w .assetresponsetimeout) (retries : Nat) :
    Calm (w.assetresponsetimeout retries) := by
  rw [World.assetresponsetimeout]
  split
  · next hc =>
    have htimer : w.timercell := by simpa using (Bool.and_eq_true_iff.mp hc).1
    by_cases hcur : w.current.isSome
    · obtain ⟨htasks, hrun⟩ := hfree htimer hcur
      exact (Turn.stophooks ⟨htasks, hbusy, hrun⟩).alertcomponent h.stored retries
    · have hnone : w.stophooks.current = none := not_isSome_iff_eq_none.mp hcur
      rw [alertcomponent_of_current hnone]
      exact h.aside w.sent w.notifiers false none
  · exact h

theorem registered (h : Calm w) (hbusy : w.busy = none) (hfree : Undisturbed w .registered) :
    Calm w.registered := by
  rw [World.registered]
  split
  · exact h
  · next c hhook =>
    obtain ⟨htasks, hrun⟩ := hfree (by simp [hhook])
    exact (Turn.stophooks ⟨htasks, hbusy, hrun⟩).run h.stored fun _ _ => trivial

theorem updateResult (h : Calm w) (hbusy : w.busy = none) {cmpname : String} {code : Int}
    (hfree : Undisturbed w (.result cmpname code)) : Calm (w.updateResult cmpname code) := by
  by_cases hacc : w.accepts cmpname
  · obtain ⟨htasks, hrun⟩ := hfree hacc
    exact (Turn.mk htasks hbusy hrun).updateResult h.stored cmpname code
  · have heq : w.updateResult cmpname code = w := by simp [World.updateResult, hacc]
    rw [heq]
    exact h

theorem request (h : Calm w) (hbusy : w.busy = none) {r : Request}
    (hfree : Undisturbed w (.request r)) : Calm (w.request r) := by
  cases hu : w.update with
  | none =>
    have heq : w.request r = w := by simp [World.request, hu]
    rw [heq]
    exact h
  | some u =>
    by_cases hp : u.paused
    · cases r with
      | pause =>
        have heq : w.request .pause = w := by simp [World.request, hu, hp]
        rw [heq]
        exact h
      | resume =>
        have heq : w.request .resume =
            ((w.modify fun u => { u with paused := false }).savecurrentupdate).run
              .resumeupdate := by
          simp [World.request, hu, hp]
        have hturn : Turn (w.modify fun u => { u with paused := false }).savecurrentupdate :=
          ⟨hfree ⟨u, hu, hp⟩ (by rintro ⟨⟩), hbusy,
            by simp [Running, World.modify, World.savecurrentupdate, hu]⟩
        rw [heq]
        exact hturn.run rfl fun _ _ => trivial
      | abort =>
        have heq : w.request .abort =
            ((w.modify abortupdate).savecurrentupdate).run .stepstart := by
          simp [World.request, hu, hp]
        have hturn : Turn (w.modify abortupdate).savecurrentupdate :=
          ⟨hfree ⟨u, hu, hp⟩ (by rintro ⟨⟩), hbusy,
            by simp [Running, World.modify, World.savecurrentupdate, hu, abortupdate]⟩
        rw [heq]
        exact hturn.run rfl fun _ _ => trivial
    · have heq : w.request r =
          (w.modify fun u => { u with request := some r }).savecurrentupdate := by
        simp [World.request, hu, hp]
      rw [heq]
      exact
        { stored := rfl
          single := h.single
          busy := h.busy
          paused := by simp [World.modify, World.savecurrentupdate, hu, hp]
          started := by
            simp only [World.modify, World.savecurrentupdate, hu, map_some,
              Option.some.injEq, forall_eq']
            intro t ht
            have hstarted := h.started u hu t ht
            cases t <;> exact hstarted }

theorem newupdate (h : Calm w) (hbusy : w.busy = none) (hfree : w.update = none → w.tasks = [])
    (p : Package) : Calm (w.newupdate p) := by
  rw [World.newupdate]
  split
  · exact h
  · next hu =>
    exact Turn.stepstart ⟨hfree hu, hbusy, by simp [Running, World.savecurrentupdate]⟩ rfl

theorem restart (w : World) : Calm w.restart where
  stored := rfl
  single := by
    rw [World.restart]
    split <;> simp
  busy := fun hbusy => absurd rfl hbusy
  paused := by
    intro u hu _
    refine ⟨rfl, ?_⟩
    rw [World.restart]
    split <;> simp
  started := by
    intro u hu t ht
    have hresume : t = .resumeupdate := by
      rw [World.restart] at ht
      split at ht
      · simpa using ht
      · simp at ht
    rw [hresume]
    exact trivial

theorem step (h : Calm w) {e : Event} (he : Enabled w e) (hfree : Undisturbed w e)
    (retries : Nat) : Calm (step retries w e) := by
  cases e with
  | run t o => exact h.run he retries
  | goOn => exact h.goOn he retries
  | answer c indextmp r =>
    have haside := h.aside (w.sent.erase (c, indextmp)) w.notifiers w.timercell w.assetcxhook
    exact haside.answered he.1 hfree c
  | notifier n =>
    rw [Update.step]
    split
    · exact h.aside w.sent (n :: w.notifiers) w.timercell w.assetcxhook
    · exact h
  | notified n =>
    have haside := h.aside w.sent (w.notifiers.erase n) w.timercell w.assetcxhook
    exact haside.notified he.1 hfree
  | assetresponsetimeout => exact h.assetresponsetimeout he hfree retries
  | registered => exact h.registered he hfree
  | result cmpname code => exact h.updateResult he hfree
  | request r => exact h.request he hfree
  | drop id => exact ⟨h.stored, h.single, h.busy, h.paused, h.started⟩
  | localupdate =>
    rw [Update.step, World.localupdate]
    split
    · exact h
    · exact h.newupdate he hfree _
  | newupdate p => exact h.newupdate he.1 hfree p
  | restart => exact restart w

end Calm

theorem calm_init (swlist : SwList) : Calm (init swlist) :=
  calm_of_idle rfl rfl rfl

/-! ## A paused update -/

structure Still (u : CurrentUpdate) (w w' : World) : Prop where
  update : ∃ u', w'.update = some u' ∧ u'.paused ∧ u'.step = u.step ∧ u'.index = u.index
  commands : w'.commands = w.commands
  starts : w'.starts = w.starts

theorem answered_kept {w : World} {indextmp : Nat} {r : World.Response}
    (hr : ¬Refused w indextmp r) (c : Ref) :
    (w.answered c indextmp r).update = w.update ∧
      (w.answered c indextmp r).commands = w.commands ∧
      (w.answered c indextmp r).starts = w.starts := by
  rw [World.answered]
  split
  · exact ⟨rfl, rfl, rfl⟩
  · next u hu =>
    split
    · exact ⟨rfl, rfl, rfl⟩
    · next comp hcomp =>
      split
      · exact ⟨rfl, rfl, rfl⟩
      · next hres =>
        split
        · exact ⟨rfl, rfl, rfl⟩
        · next hhook =>
          split
          · next hok => exact absurd (refused_of_answered hu hcomp hres hhook hok) hr
          · exact ⟨rfl, rfl, rfl⟩

namespace Calm

variable {w : World} {u : CurrentUpdate}

theorem still (h : Calm w) {e : Event} (he : Enabled w e) (hfree : Undisturbed w e)
    (hu : w.update = some u) (hp : u.paused) (hresume : e ≠ .request .resume)
    (habort : e ≠ .request .abort) (retries : Nat) : Still u w (Update.step retries w e) := by
  obtain ⟨hbusy, htasks⟩ := h.paused u hu hp
  have hnotRunning : ¬Running w := fun hrun => by simp [hrun u hu] at hp
  have hsame : ∀ w' : World, w'.update = w.update → w'.commands = w.commands →
      w'.starts = w.starts → Still u w w' := by
    intro w' hup hcommands hstarts
    exact ⟨⟨u, hup.trans hu, hp, rfl, rfl⟩, hcommands, hstarts⟩
  cases e with
  | run t o =>
    have ht := htasks t he.2.1
    subst ht
    have heq : Update.step retries w (.run .resumeupdate o) =
        { w with tasks := w.tasks.erase .resumeupdate } := by
      simp [Update.step, runTask, World.resumeupdate, hu, hp]
    rw [heq]
    exact hsame _ rfl rfl rfl
  | goOn => exact absurd hbusy he
  | answer c indextmp r =>
    have hkept := answered_kept (w := { w with sent := w.sent.erase (c, indextmp) })
      (fun hr => hnotRunning (hfree hr).2) c
    exact hsame _ hkept.1 hkept.2.1 hkept.2.2
  | notifier n =>
    rw [Update.step]
    split
    · exact hsame _ rfl rfl rfl
    · exact hsame _ rfl rfl rfl
  | notified n =>
    have hreq : ¬(u.request = some .abort ∨ u.request = some .pause) := by
      intro hreq
      cases htasks _ (hfree ⟨u, hu, hreq⟩)
    have hu' : { w with notifiers := w.notifiers.erase n }.update = some u := hu
    rw [Update.step, Inv.notified_of_request hu' hreq]
    exact hsame _ rfl rfl rfl
  | assetresponsetimeout =>
    rw [Update.step, World.assetresponsetimeout]
    split
    · next hc =>
      have htimer : w.timercell := by simpa using (Bool.and_eq_true_iff.mp hc).1
      have hnone : w.stophooks.current = none :=
        not_isSome_iff_eq_none.mp fun hcur => hnotRunning (hfree htimer hcur).2
      rw [alertcomponent_of_current hnone]
      exact hsame _ rfl rfl rfl
    · exact hsame _ rfl rfl rfl
  | registered =>
    have hnone : w.assetcxhook = none :=
      not_isSome_iff_eq_none.mp fun hhook => hnotRunning (hfree hhook).2
    have heq : Update.step retries w .registered = w := by
      simp [Update.step, World.registered, hnone]
    rw [heq]
    exact hsame _ rfl rfl rfl
  | result cmpname code =>
    have hacc : ¬w.accepts cmpname = true := fun hacc => hnotRunning (hfree hacc).2
    have heq : Update.step retries w (.result cmpname code) = w := by
      simp [Update.step, World.updateResult, hacc]
    rw [heq]
    exact hsame _ rfl rfl rfl
  | request r =>
    cases r with
    | pause =>
      have heq : Update.step retries w (.request .pause) = w := by
        simp [Update.step, World.request, hu, hp]
      rw [heq]
      exact hsame _ rfl rfl rfl
    | resume => exact absurd rfl hresume
    | abort => exact absurd rfl habort
  | drop id => exact hsame _ rfl rfl rfl
  | localupdate =>
    rw [Update.step, World.localupdate]
    split
    · exact hsame _ rfl rfl rfl
    · next id _ =>
      have heq : w.newupdate ⟨id, .localupdate true⟩ = w := by simp [World.newupdate, hu]
      rw [heq]
      exact hsame _ rfl rfl rfl
  | newupdate p =>
    have heq : Update.step retries w (.newupdate p) = w := by
      simp [Update.step, World.newupdate, hu]
    rw [heq]
    exact hsame _ rfl rfl rfl
  | restart =>
    have hstored : w.savedUpdate.map CurrentUpdate.forget = some u.forget := by
      simpa [Stored, hu] using h.stored
    obtain ⟨us, hus, hforget⟩ := map_eq_some_iff.mp hstored
    have hpaused : us.paused = u.paused := (congrArg CurrentUpdate.paused hforget :)
    exact ⟨⟨us, hus, by rw [hpaused, hp], (congrArg CurrentUpdate.step hforget :),
      (congrArg CurrentUpdate.index hforget :)⟩, rfl, rfl⟩

end Calm

structure Rests (retries : Nat) (w : World) (e : Event) : Prop where
  still : ∀ u, w.update = some u → u.paused → e ≠ .request .resume → e ≠ .request .abort →
    Still u w (step retries w e)
  resumed : ∀ u, w.update = some u → u.paused → e = .request .resume →
    (step retries w e).tasks = [.resumeupdate]
  single : (step retries w e).tasks.length ≤ 1

theorem paused_update_rests (retries : Nat) (swlist : SwList) {w : World}
    (h : Runs (step retries) (fun w e => Enabled w e ∧ Undisturbed w e) (init swlist) w)
    {e : Event} (he : Enabled w e) (hfree : Undisturbed w e) : Rests retries w e := by
  have hstep : ∀ w e, Enabled w e ∧ Undisturbed w e → Calm w → Calm (step retries w e) :=
    fun _ _ he hcalm => hcalm.step he.1 he.2 retries
  have hcalm := h.invariant hstep (calm_init swlist)
  refine ⟨fun _ hu hp hresume habort => hcalm.still he hfree hu hp hresume habort retries, ?_,
    (hcalm.step he hfree retries).single⟩
  rintro u hu hp rfl
  have htasks := hfree ⟨u, hu, hp⟩ nofun
  simp [step, World.request, World.run, World.modify, World.savecurrentupdate, hu, hp, htasks]

def pausedDispatch : List Event :=
  arrival true ++ [.request .pause, .assetresponsetimeout, .run (.alert ⟨0, 0, 1⟩) (.success [])]

theorem paused_update_rests_dispatch :
    Rests 2 (pausedDispatch.foldl (step 2) (init emptyList)) (.request .resume) :=
  paused_update_rests 2 emptyList (Along.runs (by decide +kernel)) (by decide +kernel)
    (by decide +kernel)

def lateDispatch : List Event := pausedDispatch ++ [.result "a.b" 200, .goOn, .goOn]

def pausedResult : World := lateDispatch.foldl (step 2) (init emptyList)

theorem paused_update_moves : ¬∀ (swlist : SwList) (w : World),
    Runs (step 2) Enabled (init swlist) w → ∀ e, Enabled w e → Rests 2 w e := by
  intro h
  have halong : Along (step 2) Enabled (init emptyList) lateDispatch := by decide +kernel
  have hruns : Runs (step 2) Enabled (init emptyList) pausedResult := halong.runs
  have hrests := h emptyList _ hruns (.run .nextdispatchstep (.success [])) (by decide +kernel)
  have hpaused : ∃ u ∈ pausedResult.update, u.paused = true ∧ u.index = 1 := by decide +kernel
  have htwo : ∀ u ∈ (step 2 pausedResult (.run .nextdispatchstep (.success []))).update,
      u.index = 2 := by
    decide +kernel
  obtain ⟨u, hu, hp, hindex⟩ := hpaused
  obtain ⟨u', hu', _, _, hindex'⟩ := (hrests.still u hu hp nofun nofun).update
  rw [htwo u' hu', hindex] at hindex'
  cases hindex'

end Mihini.Update
