import Mihini.Update.Soundness

/-!
# The cache of the update data

`src/agent/agent/update/common.lua`: a timer drops a subtable from the memory whenever a task
yields, the next access loads it from the flash.  References to the table that was dropped stay
with the tasks that hold them.
-/

namespace Mihini.Update

open Mihini.Lib List Option

/-! ## The cache -/

/-- The subtables of `cache`. -/
inductive Subtable where
  | swlist
  | currentupdate
  deriving DecidableEq

/-- `unloadsubtable`, and the load of the next access. -/
def World.unloadsubtable (w : World) : Subtable → World
  | .swlist => { w with swlist := w.savedSwlist }
  | .currentupdate =>
    let copy := match w.update with
      | none => 0
      | some u => u.copy + 1
    { w with update := w.savedUpdate.map fun u => { u with copy := copy } }

inductive CacheEvent where
  | event (e : Event)
  | unload (name : Subtable)

def cacheStep (retries : Nat) (w : World) : CacheEvent → World
  | .event e => step retries w e
  | .unload name => w.unloadsubtable name

def CacheEnabled (w : World) : CacheEvent → Prop
  | .event e => Enabled w e
  | .unload _ => w.busy = none

instance (w : World) : (e : CacheEvent) → Decidable (CacheEnabled w e)
  | .event e => inferInstanceAs (Decidable (Enabled w e))
  | .unload _ => inferInstanceAs (Decidable (_ = _))

/-! ## Without unloads -/

/-! There is one copy of each table then. -/

def Ref.resident (c : Ref) : Ref := { c with copy := 0 }

def CurrentUpdate.resident (u : CurrentUpdate) : CurrentUpdate := { u with copy := 0 }

def Task.resident : Task → Task
  | .alert c => .alert c.resident
  | .sendmsgasset c => .sendmsgasset c.resident
  | t => t

def Event.resident : Event → Event
  | .run t o => .run t.resident o
  | .answer c indextmp r => .answer c.resident indextmp r
  | e => e

def CacheEvent.resident : CacheEvent → Option Event
  | .event e => some e.resident
  | .unload _ => none

/-! ## The condition -/

def Saved (w : World) : Prop :=
  w.savedUpdate.map CurrentUpdate.resident = w.update.map CurrentUpdate.resident

def Counts (retries : Nat) (w : World) (c : Ref) : Prop :=
  ∃ u ∈ w.update, u.table = c.table ∧ u.copy = c.copy ∧
    ∃ comps ∈ u.manifest, ∃ comp ∈ World.component comps c.index, comp.retries < retries

/-- Nothing is unsaved when the update is dropped; a retry is counted in memory while there is one
left; the manifest is made once. -/
def Lasting (retries : Nat) (w : World) : CacheEvent → Prop
  | .event (.run (.alert c) _) =>
    (∃ u ∈ w.update, u.request ≠ some .abort ∧ u.request ≠ some .pause) → Counts retries w c
  | .event (.run (.sendmsgasset c) _) => w.update.isSome → Counts retries w c
  | .event (.run .check _) => ∀ u ∈ w.update, u.manifest = none
  | .event .restart | .unload .currentupdate => Saved w
  | _ => True

instance (w : World) : Decidable (Saved w) := inferInstanceAs (Decidable (_ = _))

instance (retries : Nat) (w : World) (c : Ref) : Decidable (Counts retries w c) :=
  inferInstanceAs (Decidable (∃ u ∈ _, _ ∧ _ ∧ ∃ comps ∈ _, ∃ comp ∈ _, _))

instance (retries : Nat) (w : World) : (e : CacheEvent) → Decidable (Lasting retries w e)
  | .event (.run (.alert _) _) | .event (.run (.sendmsgasset _) _) =>
    inferInstanceAs (Decidable (_ → _))
  | .event (.run .check _) => inferInstanceAs (Decidable (∀ u ∈ _, _))
  | .event .restart | .unload .currentupdate => inferInstanceAs (Decidable (Saved w))
  | .event (.run .stepstart _) | .event (.run .starting _) | .event (.run (.start _) _)
  | .event (.run (.download _) _) | .event (.run .nextdispatchstep _) | .event (.run (.failed _) _)
  | .event (.run .acknowledge _) | .event (.run .acknowledged _) | .event (.run .cleaned _)
  | .event (.run .resumeupdate _) | .event .goOn | .event (.answer _ _ _) | .event (.notifier _)
  | .event (.notified _) | .event .assetresponsetimeout | .event .registered
  | .event (.result _ _) | .event (.request _) | .event (.drop _) | .event .localupdate
  | .event (.newupdate _) | .unload .swlist => isTrue trivial

/-! ## The two worlds -/

def World.bare (w : World) : World :=
  { w with
    update := none
    savedUpdate := none
    tasks := []
    sent := []
    assetcxhook := none
    commands := [] }

structure Same (w w' : World) : Prop where
  update : w'.update = w.update.map CurrentUpdate.resident
  saved : w'.savedUpdate = w.savedUpdate.map CurrentUpdate.resident
  tasks : (w.tasks.map Task.resident).Perm w'.tasks
  sent : (w.sent.map fun s => (s.1.resident, s.2)).Perm w'.sent
  hook : w'.assetcxhook = w.assetcxhook.map Ref.resident
  commands : w'.commands = w.commands.map Ref.resident
  bare : w'.bare = w.bare
  listed : w.savedSwlist = w.swlist

theorem perm_erase_map {α β : Type} [BEq α] [LawfulBEq α] [BEq β] [LawfulBEq β] {f : α → β}
    {l : List α} {l' : List β} (h : (l.map f).Perm l') {a : α} (ha : a ∈ l) :
    ((l.erase a).map f).Perm (l'.erase (f a)) := by
  have hfront : (l.map f).Perm (f a :: (l.erase a).map f) :=
    (perm_cons_erase ha).map f
  have herase := (h.symm.trans hfront).erase (f a)
  rw [erase_cons_head] at herase
  exact herase.symm

namespace Same

variable {w w' : World} {u : CurrentUpdate}

theorem absent (h : Same w w') (hu : w.update = none) : w'.update = none := by
  rw [h.update, hu, map_none]

theorem present (h : Same w w') (hu : w.update = some u) : w'.update = some u.resident := by
  rw [h.update, hu, map_some]

theorem known (h : Same w w') (u : CurrentUpdate) :
    Same { w with update := some u } { w' with update := some u.resident } :=
  ⟨rfl, h.saved, h.tasks, h.sent, h.hook, h.commands, h.bare, h.listed⟩

theorem busy (h : Same w w') : w'.busy = w.busy := (congrArg World.busy h.bare :)

theorem swlist (h : Same w w') : w'.swlist = w.swlist := (congrArg World.swlist h.bare :)

theorem drop (h : Same w w') : w'.drop = w.drop := (congrArg World.drop h.bare :)

theorem made (h : Same w w') : w'.made = w.made := (congrArg World.made h.bare :)

theorem modify (h : Same w w') {f g : CurrentUpdate → CurrentUpdate}
    (hf : ∀ u, w.update = some u → (f u).resident = g u.resident) :
    Same (w.modify f) (w'.modify g) where
  update := by
    match hu : w.update with
    | none => simp [World.modify, hu, h.absent hu]
    | some u => simp [World.modify, hu, h.present hu, hf u hu]
  saved := h.saved
  tasks := h.tasks
  sent := h.sent
  hook := h.hook
  commands := h.commands
  bare := h.bare
  listed := h.listed

theorem save (h : Same w w') : Same w.savecurrentupdate w'.savecurrentupdate :=
  ⟨h.update, h.update, h.tasks, h.sent, h.hook, h.commands, h.bare, h.listed⟩

theorem change (h : Same w w') {f : CurrentUpdate → CurrentUpdate}
    (hf : ∀ u, (f u).resident = f u.resident) :
    Same (w.modify f).savecurrentupdate (w'.modify f).savecurrentupdate :=
  (h.modify fun u _ => hf u).save

theorem run (h : Same w w') (t : Task) : Same (w.run t) (w'.run t.resident) :=
  ⟨h.update, h.saved, h.tasks.cons _, h.sent, h.hook, h.commands, h.bare, h.listed⟩

theorem stophooks (h : Same w w') : Same w.stophooks w'.stophooks :=
  ⟨h.update, h.saved, h.tasks, h.sent, rfl, h.commands,
    congrArg (fun b : World => { b with timercell := false }) h.bare, h.listed⟩

theorem wait (h : Same w w') (b : Busy) : Same { w with busy := some b } { w' with busy := some b } :=
  ⟨h.update, h.saved, h.tasks, h.sent, h.hook, h.commands,
    congrArg (fun b' : World => { b' with busy := some b }) h.bare, h.listed⟩

theorem list (h : Same w w') (l : SwList) :
    Same { w with swlist := l }.saveswlist { w' with swlist := l }.saveswlist :=
  ⟨h.update, h.saved, h.tasks, h.sent, h.hook, h.commands,
    congrArg (fun b : World => { b with swlist := l, savedSwlist := l }) h.bare, rfl⟩

theorem remove (h : Same w w') (c : Bool) :
    Same { w with drop := if c then none else w.drop }
      { w' with drop := if c then none else w'.drop } :=
  ⟨h.update, h.saved, h.tasks, h.sent, h.hook, h.commands,
    congrArg (fun b : World => { b with drop := if c then none else b.drop }) h.bare,
    h.listed⟩

/-! ### Steps -/

theorem startstep (h : Same w w') : Same w.startstep w'.startstep := by
  match hu : w.update with
  | none => simpa only [World.startstep, hu, h.absent hu] using h
  | some u =>
    simp only [World.startstep, hu, h.present hu, CurrentUpdate.resident]
    split
    · exact h
    · exact ⟨h.update, h.saved, h.tasks.cons _, h.sent, h.hook, h.commands,
        congrArg (fun b : World => { b with starts := b.starts + 1 }) h.bare, h.listed⟩

theorem stepstart (h : Same w w') : Same w.stepstart w'.stepstart := by
  match hu : w.update with
  | none => simpa only [World.stepstart, hu, h.absent hu] using h
  | some u =>
    simp only [World.stepstart, hu, h.present hu, CurrentUpdate.resident]
    split
    · exact h
    · exact h.run .starting
    · exact h.startstep

theorem starting (h : Same w w') : Same w.starting w'.starting := by
  match hu : w.update with
  | none => simpa only [World.starting, hu, h.absent hu] using h
  | some u =>
    simp only [World.starting, hu, h.present hu, CurrentUpdate.resident]
    split
    · exact h.startstep
    · exact startstep (h.change fun _ => rfl)
    · exact startstep (h.change fun _ => rfl)
    · exact h.change fun _ => rfl

theorem stepfinished (h : Same w w') (code : Option Int) :
    Same (w.stepfinished code) (w'.stepfinished code) := by
  match hu : w.update with
  | none => simpa only [World.stepfinished, hu, h.absent hu] using h
  | some u =>
    simp only [World.stepfinished, hu, h.present hu, CurrentUpdate.resident]
    split
    · exact h
    · exact stepstart (h.change fun _ => rfl)
    · exact stepstart (h.change fun _ => rfl)

theorem resumeupdate (h : Same w w') : Same w.resumeupdate w'.resumeupdate := by
  match hu : w.update with
  | none => simpa only [World.resumeupdate, hu, h.absent hu] using h
  | some u =>
    simp only [World.resumeupdate, hu, h.present hu, CurrentUpdate.resident]
    split
    · exact h
    · exact h.stepstart

/-! ### The dispatcher -/

theorem countRetry_resident {c : Ref} {u : CurrentUpdate} (hc : u.table = c.table → u.copy = c.copy) :
    (World.countRetry c u).resident = World.countRetry c.resident u.resident := by
  by_cases htable : u.table = c.table
  · simp [World.countRetry, CurrentUpdate.resident, Ref.resident, htable, hc htable]
  · simp [World.countRetry, CurrentUpdate.resident, Ref.resident, htable]

theorem sendmsgasset (h : Same w w') {c : Ref}
    (hc : ∀ u, w.update = some u → u.table = c.table → u.copy = c.copy) :
    Same (w.sendmsgasset c) (w'.sendmsgasset c.resident) := by
  have hcounted : Same (w.modify (World.countRetry c)) (w'.modify (World.countRetry c.resident)) :=
    h.modify fun u hu => countRetry_resident (hc u hu)
  match hu : (w.modify (World.countRetry c)).update with
  | none => simpa only [World.sendmsgasset, hu, hcounted.absent hu] using hcounted
  | some u =>
    simp only [World.sendmsgasset, hu, hcounted.present hu, CurrentUpdate.resident]
    exact ⟨rfl, hcounted.saved, hcounted.tasks, hcounted.sent.cons _,
      hcounted.hook, congrArg (c.resident :: ·) hcounted.commands,
      congrArg (fun b : World => { b with timercell := true }) hcounted.bare, hcounted.listed⟩

theorem alertcomponent (h : Same w w') (retries : Nat) :
    Same (w.alertcomponent retries) (w'.alertcomponent retries) := by
  match hu : w.update with
  | none => simpa only [World.alertcomponent, hu, h.absent hu] using h
  | some u =>
    simp only [World.alertcomponent, hu, h.present hu, CurrentUpdate.resident]
    split
    · exact h
    split
    · exact h.stepfinished _
    · split
      · exact h
      · exact h.run (.alert ⟨u.table, u.copy, u.index⟩)
      · apply h.sendmsgasset (c := ⟨u.table, u.copy, u.index⟩)
        intro u' hu' _
        rw [Option.some.inj (hu'.symm.trans hu)]

theorem answered (h : Same w w') (c : Ref) (indextmp : Nat) (r : World.Response) :
    Same (w.answered c indextmp r) (w'.answered c.resident indextmp r) := by
  have hhook : w'.assetcxhook = none ↔ w.assetcxhook = none := by
    rw [h.hook, map_eq_none_iff]
  match hu : w.update with
  | none => simpa only [World.answered, hu, h.absent hu] using h
  | some u =>
    simp only [World.answered, hu, h.present hu, CurrentUpdate.resident, hhook]
    split
    · exact h
    split
    · exact h
    · split
      · exact ⟨rfl, rfl, h.tasks, h.sent, rfl, h.commands, h.bare, h.listed⟩
      · split
        · exact h.stophooks.stepfinished _
        · exact h.save

theorem stepprogress (h : Same w w') : Same w.stepprogress.1 w'.stepprogress.1 ∧
    w'.stepprogress.2 = w.stepprogress.2 := by
  match hu : w.update with
  | none => simpa only [World.stepprogress, hu, h.absent hu] using ⟨h, trivial⟩
  | some u =>
    simp only [World.stepprogress, hu, h.present hu, CurrentUpdate.resident]
    split
    · exact ⟨run (h.change (f := abortupdate) fun _ => rfl) .stepstart, rfl⟩
    · exact ⟨h.change (f := pauseupdate) fun _ => rfl, rfl⟩
    · exact ⟨h, rfl⟩

theorem stepprogress_goes (h : w.stepprogress.2 = true) : w.stepprogress.1 = w ∧
    ∃ u ∈ w.update, u.request ≠ some .abort ∧ u.request ≠ some .pause := by
  cases hu : w.update with
  | none => simp [World.stepprogress, hu] at h
  | some u =>
    cases hreq : u.request with
    | none => exact ⟨by simp [World.stepprogress, hu, hreq], u, rfl, by simp [hreq]⟩
    | some r =>
      cases r with
      | resume => exact ⟨by simp [World.stepprogress, hu, hreq], u, rfl, by simp [hreq]⟩
      | abort | pause => simp [World.stepprogress, hu, hreq] at h

theorem alert (h : Same w w') {c : Ref}
    (hc : (∃ u ∈ w.update, u.request ≠ some .abort ∧ u.request ≠ some .pause) →
      ∀ u, w.update = some u → u.table = c.table → u.copy = c.copy) :
    Same (w.alert c) (w'.alert c.resident) := by
  obtain ⟨hprogress, hon⟩ := h.stepprogress
  simp only [World.alert, hon]
  split
  · next hgoes =>
    obtain ⟨hsame, hfree⟩ := stepprogress_goes hgoes
    apply hprogress.sendmsgasset
    rw [hsame]
    exact hc hfree
  · exact hprogress

theorem nextindex (h : Same w w') :
    Same { (w.modify fun u => { u with index := u.index + 1 }).savecurrentupdate with
        busy := some .indexed }
      { (w'.modify fun u => { u with index := u.index + 1 }).savecurrentupdate with
        busy := some .indexed } :=
  wait (h.change (f := fun u => { u with index := u.index + 1 }) fun _ => rfl) .indexed

theorem nextdispatchstep (h : Same w w') (retries : Nat) :
    Same (w.nextdispatchstep retries) (w'.nextdispatchstep retries) := by
  match hu : w.update with
  | none => simpa only [World.nextdispatchstep, hu, h.absent hu] using h
  | some u =>
    simp only [World.nextdispatchstep, hu, h.present hu, CurrentUpdate.resident]
    split
    · exact h
    split
    · exact h.nextindex
    · split
      · exact h
      · split
        · exact h.alertcomponent retries
        · split
          · exact h.nextindex
          · exact h.stepfinished _

theorem indexed (h : Same w w') (retries : Nat) :
    Same (w.indexed retries) (w'.indexed retries) := by
  match hu : w.update with
  | none => simpa only [World.indexed, hu, h.absent hu] using h
  | some u =>
    simp only [World.indexed, hu, h.present hu, CurrentUpdate.resident]
    split
    · exact h
    · split
      · exact h.alertcomponent retries
      · exact h.stepfinished _

theorem assetresponsetimeout (h : Same w w') (retries : Nat) :
    Same (w.assetresponsetimeout retries) (w'.assetresponsetimeout retries) := by
  have htimer : w'.timercell = w.timercell := (congrArg World.timercell h.bare :)
  have hsome : w'.update.isSome = w.update.isSome := by rw [h.update, isSome_map]
  simp only [World.assetresponsetimeout, htimer, hsome]
  split
  · exact h.stophooks.alertcomponent retries
  · exact h

theorem registered (h : Same w w') : Same w.registered w'.registered := by
  match hhook : w.assetcxhook with
  | none =>
    have hhook' : w'.assetcxhook = none := by rw [h.hook, hhook, map_none]
    simpa only [World.registered, hhook, hhook'] using h
  | some c =>
    have hhook' : w'.assetcxhook = some c.resident := by rw [h.hook, hhook, map_some]
    simp only [World.registered, hhook, hhook']
    exact h.stophooks.run (.sendmsgasset c)

theorem updateResult (h : Same w w') (cmpname : String) (code : Int) :
    Same (w.updateResult cmpname code) (w'.updateResult cmpname code) := by
  have hacc : w'.accepts cmpname = w.accepts cmpname := by
    match hu : w.update with
    | none => simp only [World.accepts, hu, h.absent hu]
    | some u => simp only [World.accepts, hu, h.present hu, CurrentUpdate.resident]
  simp only [World.updateResult, hacc]
  split
  · exact wait (h.change (f := fun u => World.setResult u code) fun _ => rfl) _
  · exact h

theorem applied (h : Same w w') (uid : Nat) : Same (w.applied uid) (w'.applied uid) := by
  match hu : w.update with
  | none => simpa only [World.applied, hu, h.absent hu, bind_none] using h
  | some u =>
    simp only [World.applied, hu, h.present hu, h.swlist, CurrentUpdate.resident,
      bind_some]
    split
    · exact h
    · exact run ((h.known u).list _) .nextdispatchstep

theorem recorded (h : Same w w') (code : Int) : Same (w.recorded code) (w'.recorded code) := by
  have hstop := h.stophooks
  simp only [World.recorded]
  split
  · cases hu : w.stophooks.update with
    | none => simpa only [hstop.absent hu, bind_none] using hstop
    | some u =>
      simp only [hstop.present hu, hstop.swlist, CurrentUpdate.resident, bind_some]
      split
      · exact hstop
      · split
        · exact hstop.applied _
        · exact wait ((hstop.known u).list _) _
  · exact hstop.run (.failed code)

/-! ### The end -/

theorem savestate (h : Same w w') : Same w.savestate w'.savestate := by
  match hu : w.update with
  | none => simpa only [World.savestate, hu, h.absent hu] using h
  | some u =>
    simp only [World.savestate, hu, h.present hu, CurrentUpdate.resident]
    exact ((h.known u).remove _).run .cleaned

theorem cleaned (h : Same w w') : Same w.cleaned w'.cleaned := by
  match hu : w.update with
  | none => simpa only [World.cleaned, hu, h.absent hu] using h
  | some u =>
    simp only [World.cleaned, hu, h.present hu, h.swlist, CurrentUpdate.resident]
    exact wait ((h.known u).list _) .closing

theorem closed (h : Same w w') : Same w.closed w'.closed := by
  match hu : w.update with
  | none => simpa only [World.closed, hu, h.absent hu] using h
  | some u =>
    simp only [World.closed, hu, h.present hu, CurrentUpdate.resident]
    exact ⟨rfl, rfl, h.tasks, h.sent, h.hook, h.commands,
      congrArg (fun b : World => { b with
        reports := if u.infos.ticketid then b.reports else b.reports + 1
        finished := u.infos.id :: b.finished }) h.bare, h.listed⟩

theorem finishUpdate (h : Same w w') : Same w.finishUpdate w'.finishUpdate := by
  have hfin := h.change (f := fun u => { u with result := some (u.result.getD 200) }) fun _ => rfl
  simp only [World.finishUpdate]
  cases hu : (w.modify fun u =>
      { u with result := some (u.result.getD 200) }).savecurrentupdate.update with
  | none => simpa only [hu, hfin.absent hu] using hfin
  | some u =>
    simp only [hfin.present hu, CurrentUpdate.resident]
    split
    · exact hfin.run .acknowledge
    · exact hfin.savestate

/-! ### The other steps -/

theorem start (h : Same w w') (step : Nat) (o : World.Outcome) :
    Same (w.start step o) (w'.start step o) := by
  have hsteps : step = 1 ∨ step = 2 ∨ step = 3 ∨ step = 4 ∨ step = 0 ∨ 5 ≤ step := by omega
  rcases hsteps with rfl | rfl | rfl | rfl | rfl | hle
  · exact h.stepfinished _
  · have hfile := h.modify (f := fun u => { u with updatefile := true })
      (g := fun u => { u with updatefile := true }) fun _ _ => rfl
    cases hu : w.update with
    | none => simpa only [World.start, hu, h.absent hu] using h
    | some u =>
      simp only [World.start, hu, h.present hu, CurrentUpdate.resident, h.made]
      split
      · split
        · exact h.stepfinished _
        · have hsaved := hfile.save
          exact ⟨hsaved.update, hsaved.saved, hsaved.tasks.cons _, hsaved.sent, hsaved.hook,
            hsaved.commands, congrArg (fun b : World => { b with made := w.made + 1 }) hsaved.bare,
            hsaved.listed⟩
      · exact hfile.stepfinished _
  · cases o with
    | failure code => exact h.stepfinished _
    | success cmps =>
      have hdirectory := h.modify (f := fun u => { u with updateDirectory := true })
        (g := fun u => { u with updateDirectory := true }) fun _ _ => rfl
      exact hdirectory.run .check
  · cases hu : w.update with
    | none => simpa only [World.start, hu, h.absent hu] using h
    | some u =>
      simp only [World.start, hu, h.present hu, CurrentUpdate.resident]
      split
      · exact ((h.known u).remove _).run .nextdispatchstep
      · exact h.stepfinished _
  · exact h.finishUpdate
  · obtain ⟨n, rfl⟩ := Nat.exists_eq_add_of_le' hle
    exact h.finishUpdate

theorem download (h : Same w w') (o : World.Outcome) : Same (w.download o) (w'.download o) := by
  cases o with
  | success cmps => exact h.stepfinished _
  | failure code => exact h.stepfinished _

theorem check (h : Same w w') (o : World.Outcome) : Same (w.check o) (w'.check o) := by
  cases o with
  | failure code => exact h.stepfinished _
  | success cmps =>
    have hchecked := h.modify
      (f := fun u => { u with manifest := some (cmps.map fun c => ⟨c, none, 0⟩) })
      (g := fun u => { u with manifest := some (cmps.map fun c => ⟨c, none, 0⟩) }) fun _ _ => rfl
    exact hchecked.stepfinished _

/-! ### Events -/

theorem turn (h : Same w w') {t : Task} (ht : t ∈ w.tasks) :
    Same { w with tasks := w.tasks.erase t } { w' with tasks := w'.tasks.erase t.resident } :=
  ⟨h.update, h.saved, perm_erase_map h.tasks ht, h.sent, h.hook, h.commands, h.bare, h.listed⟩

theorem mem_tasks (h : Same w w') {t : Task} (ht : t ∈ w.tasks) : t.resident ∈ w'.tasks :=
  h.tasks.mem_iff.mp (mem_map_of_mem ht)

theorem runTask {retries : Nat} {t : Task} {o : World.Outcome} (h : Same w w') (ht : t ∈ w.tasks)
    (hlast : Lasting retries w (.event (.run t o))) :
    Same (runTask retries w t o) (runTask retries w' t.resident o) := by
  have hcopy : ∀ c, Counts retries w c → ∀ u, w.update = some u → u.table = c.table →
      u.copy = c.copy := by
    rintro c ⟨v, hv, _, hcopy, _⟩ u hu _
    rw [Option.some.inj (hu.symm.trans hv)]
    exact hcopy
  have hturn := h.turn ht
  cases t with
  | stepstart => exact hturn.stepstart
  | starting => exact hturn.starting
  | start step => exact hturn.start step o
  | download n => exact hturn.download o
  | check => exact hturn.check o
  | nextdispatchstep => exact hturn.nextdispatchstep retries
  | alert c => exact hturn.alert fun hfree => hcopy c (hlast hfree)
  | sendmsgasset c =>
    apply hturn.sendmsgasset
    intro u hu
    exact hcopy c (hlast (by simp [show w.update = some u from hu])) u hu
  | failed code => exact hturn.stepfinished _
  | acknowledge =>
    cases o with
    | failure code => exact hturn
    | success cmps =>
      exact ⟨hturn.update, hturn.saved, hturn.tasks.cons _, hturn.sent, hturn.hook, hturn.commands,
        congrArg (fun b : World => { b with reports := b.reports + 1 }) hturn.bare, hturn.listed⟩
  | acknowledged => exact hturn.savestate
  | cleaned => exact hturn.cleaned
  | resumeupdate => exact hturn.resumeupdate

theorem goOn (h : Same w w') (retries : Nat) : Same (goOn retries w) (goOn retries w') := by
  have hfree : Same { w with busy := none } { w' with busy := none } :=
    ⟨h.update, h.saved, h.tasks, h.sent, h.hook, h.commands,
      congrArg (fun b : World => { b with busy := none }) h.bare, h.listed⟩
  simp only [Update.goOn, h.busy]
  split
  · exact h
  · exact hfree.recorded _
  · exact hfree.applied _
  · exact hfree.indexed retries
  · exact hfree.closed

theorem notified (h : Same w w') (n : Nat) : Same (w.notified n) (w'.notified n) := by
  obtain ⟨hprogress, hon⟩ := h.stepprogress
  simp only [World.notified, hon]
  split
  · exact hprogress
  by_cases hmem : .download n ∈ w.stepprogress.1.tasks
  · exact hprogress.turn hmem
  · have hmem' : .download n ∉ w'.stepprogress.1.tasks := by
      intro hin
      obtain ⟨t, ht, heq⟩ := mem_map.mp (hprogress.tasks.mem_iff.mpr hin)
      cases t with
      | download m => exact hmem (heq ▸ ht)
      | _ => cases heq
    rw [erase_of_not_mem hmem, erase_of_not_mem hmem']
    exact hprogress

theorem request (h : Same w w') (r : Request) : Same (w.request r) (w'.request r) := by
  match hu : w.update with
  | none =>
    have heq : w.request r = w := by simp [World.request, hu]
    have heq' : w'.request r = w' := by simp [World.request, h.absent hu]
    rw [heq, heq']
    exact h
  | some u =>
    unfold World.request
    simp only [hu, h.present hu, CurrentUpdate.resident]
    split
    · split
      · exact run (h.change (f := fun u => { u with paused := false }) fun _ => rfl) .resumeupdate
      · exact run (h.change (f := abortupdate) fun _ => rfl) .stepstart
      · exact h
    · exact h.change fun _ => rfl

theorem newupdate (h : Same w w') (p : Package) : Same (w.newupdate p) (w'.newupdate p) := by
  match hu : w.update with
  | some u => simpa only [World.newupdate, hu, h.present hu] using h
  | none =>
    simp only [World.newupdate, hu, h.absent hu, h.made, h.swlist]
    apply stepstart
    exact ⟨rfl, rfl, h.tasks, h.sent, h.hook, h.commands,
      congrArg (fun b : World => { b with
        swlist := w.swlist
        made := w.made + 1
        reports := 0
        before := w.swlist }) h.bare, h.listed⟩

theorem localupdate (h : Same w w') : Same w.localupdate w'.localupdate := by
  simp only [World.localupdate, h.drop]
  split
  · exact h
  · exact h.newupdate _

theorem restart (h : Same w w') : Same w.restart w'.restart := by
  have hsome : w'.savedUpdate.isSome = w.savedUpdate.isSome := by rw [h.saved, isSome_map]
  refine ⟨h.saved, h.saved, ?_, .nil, rfl, h.commands, ?_, rfl⟩
  · simp only [World.restart, hsome]
    split
    · exact .refl _
    · exact .nil
  · exact congrArg (fun b : World => { b with
      swlist := b.savedSwlist
      busy := none
      notifiers := []
      timercell := false }) h.bare

theorem step {retries : Nat} {e : Event} (h : Same w w') (he : Enabled w e)
    (hlast : Lasting retries w (.event e)) :
    Same (step retries w e) (step retries w' e.resident) := by
  cases e with
  | run t o => exact h.runTask he.2.1 hlast
  | goOn => exact h.goOn retries
  | answer c indextmp r =>
    have hanswered : Same { w with sent := w.sent.erase (c, indextmp) }
        { w' with sent := w'.sent.erase (c.resident, indextmp) } :=
      ⟨h.update, h.saved, h.tasks, perm_erase_map h.sent he.2, h.hook, h.commands, h.bare, h.listed⟩
    exact hanswered.answered c indextmp r
  | notifier n =>
    have hevent : (w'.update.bind fun u => progressEvent u.step) =
        w.update.bind fun u => progressEvent u.step := by
      rw [h.update, bind_map]
      rfl
    simp only [Update.step, Event.resident, hevent]
    split
    · exact ⟨h.update, h.saved, h.tasks, h.sent, h.hook, h.commands,
        congrArg (fun b : World => { b with notifiers := n :: b.notifiers }) h.bare, h.listed⟩
    · exact h
  | notified n =>
    have herased : Same { w with notifiers := w.notifiers.erase n }
        { w' with notifiers := w'.notifiers.erase n } :=
      ⟨h.update, h.saved, h.tasks, h.sent, h.hook, h.commands,
        congrArg (fun b : World => { b with notifiers := b.notifiers.erase n }) h.bare, h.listed⟩
    exact herased.notified n
  | assetresponsetimeout => exact h.assetresponsetimeout retries
  | registered => exact h.registered
  | result cmpname code => exact h.updateResult cmpname code
  | request r => exact h.request r
  | drop id =>
    exact ⟨h.update, h.saved, h.tasks, h.sent, h.hook, h.commands,
      congrArg (fun b : World => { b with drop := some id }) h.bare, h.listed⟩
  | localupdate => exact h.localupdate
  | newupdate p => exact h.newupdate p
  | restart => exact h.restart

/-- An event that can happen can happen without unloads, too. -/
theorem enabled {e : Event} (h : Same w w') (he : Enabled w e) : Enabled w' e.resident := by
  have hfresh : ∀ id, w.fresh id → w'.fresh id := by
    rintro id ⟨hfinished, hdrop, hupdate⟩
    refine ⟨?_, h.drop ▸ hdrop, ?_⟩
    · rw [show w'.finished = w.finished from (congrArg World.finished h.bare :)]
      exact hfinished
    · rw [h.update]
      rintro _ hmap
      obtain ⟨u, hu, rfl⟩ := map_eq_some_iff.mp hmap
      exact hupdate u hu
  have hnotifiers : w'.notifiers = w.notifiers := (congrArg World.notifiers h.bare :)
  cases e with
  | run t o => exact ⟨h.busy.trans he.1, h.mem_tasks he.2.1, he.2.2⟩
  | goOn => exact fun hbusy => he (h.busy.symm.trans hbusy)
  | answer c indextmp r =>
    exact ⟨h.busy.trans he.1, h.sent.mem_iff.mp (mem_map_of_mem he.2)⟩
  | notifier n => exact ⟨h.busy.trans he.1, h.mem_tasks he.2⟩
  | notified n => exact ⟨h.busy.trans he.1, hnotifiers ▸ he.2⟩
  | assetresponsetimeout => exact h.busy.trans he
  | registered => exact h.busy.trans he
  | result cmpname code => exact h.busy.trans he
  | request r => exact h.busy.trans he
  | drop id => exact hfresh id he
  | localupdate => exact h.busy.trans he
  | newupdate p => exact ⟨h.busy.trans he.1, hfresh p.id he.2.1, he.2.2⟩
  | restart => trivial

theorem unloadsubtable (h : Same w w') {name : Subtable}
    (hsaved : name = .currentupdate → Saved w) : Same (w.unloadsubtable name) w' := by
  cases name with
  | swlist =>
    exact ⟨h.update, h.saved, h.tasks, h.sent, h.hook, h.commands,
      h.bare.trans (congrArg (fun l => { w with swlist := l }.bare) h.listed.symm), rfl⟩
  | currentupdate =>
    refine ⟨?_, h.saved, h.tasks, h.sent, h.hook, h.commands, h.bare, h.listed⟩
    rw [h.update, ← hsaved rfl, World.unloadsubtable, Option.map_map]
    rfl

end Same

end Mihini.Update
