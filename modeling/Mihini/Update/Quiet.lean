import Mihini.Update.Soundness

/-!
# What most operations of the update machine leave alone
-/

namespace Mihini.Update

def Plain (w : World) : Prop :=
  (∀ code, w.busy ≠ some (.recorded code)) ∧ ∀ uid, w.busy ≠ some (.identified uid)

structure Quiet (w w' : World) : Prop where
  update : w'.update.map (fun u => (u.table, u.manifest)) = w.update.map fun u => (u.table, u.manifest)
  swlist : w'.swlist = w.swlist
  saved : w'.savedSwlist = w.savedSwlist
  before : w'.before = w.before
  commands : w'.commands = w.commands
  made : w.made ≤ w'.made
  plain : Plain w → Plain w'

namespace Quiet

variable {w w' w'' : World}

theorem refl (w : World) : Quiet w w := ⟨rfl, rfl, rfl, rfl, rfl, le_refl _, fun h => h⟩

theorem after (h' : Quiet w' w'') (h : Quiet w w') : Quiet w w'' :=
  ⟨h'.update.trans h.update, h'.swlist.trans h.swlist, h'.saved.trans h.saved,
    h'.before.trans h.before, h'.commands.trans h.commands, le_trans h.made h'.made,
    fun hp => h'.plain (h.plain hp)⟩

theorem modify (w : World) {f : CurrentUpdate → CurrentUpdate}
    (hf : ∀ u, ((f u).table, (f u).manifest) = (u.table, u.manifest)) : Quiet w (w.modify f) where
  update := by
    rw [World.modify, Option.map_map]
    exact congrArg (fun g => Option.map g w.update) (funext hf)
  swlist := rfl
  saved := rfl
  before := rfl
  commands := rfl
  made := le_refl _
  plain := fun h => h

theorem save (w : World) : Quiet w w.savecurrentupdate :=
  ⟨rfl, rfl, rfl, rfl, rfl, le_refl _, fun h => h⟩

theorem run (w : World) (t : Task) : Quiet w (w.run t) :=
  ⟨rfl, rfl, rfl, rfl, rfl, le_refl _, fun h => h⟩

theorem stophooks (w : World) : Quiet w w.stophooks :=
  ⟨rfl, rfl, rfl, rfl, rfl, le_refl _, fun h => h⟩

theorem change (w : World) {f : CurrentUpdate → CurrentUpdate}
    (hf : ∀ u, ((f u).table, (f u).manifest) = (u.table, u.manifest)) :
    Quiet w (w.modify f).savecurrentupdate :=
  (save _).after (modify w hf)

theorem startstep (w : World) : Quiet w w.startstep := by
  rw [World.startstep]
  split
  · exact refl w
  · split
    · exact refl w
    · exact ⟨rfl, rfl, rfl, rfl, rfl, le_refl _, fun h => h⟩

theorem stepstart (w : World) : Quiet w w.stepstart := by
  rw [World.stepstart]
  split
  · exact refl w
  · split
    · exact refl w
    · exact run w _
    · exact startstep w

theorem starting (w : World) : Quiet w w.starting := by
  rw [World.starting]
  split
  · exact refl w
  split
  · exact startstep w
  · exact (startstep _).after (change w fun _ => rfl)
  · exact (startstep _).after (change w fun _ => rfl)
  · exact change w fun _ => rfl

theorem stepfinished (w : World) (code : Option Int) : Quiet w (w.stepfinished code) := by
  rw [World.stepfinished]
  split
  · exact refl w
  · split
    · exact refl w
    · exact (stepstart _).after (change w fun _ => rfl)
    · exact (stepstart _).after (change w fun _ => rfl)

theorem resumeupdate (w : World) : Quiet w w.resumeupdate := by
  rw [World.resumeupdate]
  split
  · exact refl w
  · split
    · exact refl w
    · exact stepstart w

theorem answered (w : World) (c : Ref) (indextmp : Nat) (r : World.Response) :
    Quiet w (w.answered c indextmp r) := by
  rw [World.answered]
  split
  · exact refl w
  split
  · exact refl w
  · split
    · exact refl w
    · split
      · exact ⟨rfl, rfl, rfl, rfl, rfl, le_refl _, fun h => h⟩
      · split
        · exact (stepfinished _ _).after (stophooks w)
        · exact save w

theorem stepprogress (w : World) : Quiet w w.stepprogress.1 := by
  rw [World.stepprogress]
  split
  · exact refl w
  · split
    · exact (run _ _).after (change w fun _ => rfl)
    · exact change w fun _ => rfl
    · exact refl w

theorem nextindex (w : World) :
    Quiet w { (w.modify fun u => { u with index := u.index + 1 }).savecurrentupdate with
      busy := some .indexed } :=
  have hindex := change w (f := fun u => { u with index := u.index + 1 }) fun _ => rfl
  ⟨hindex.update, rfl, rfl, rfl, rfl, le_refl _, fun _ => ⟨nofun, nofun⟩⟩

theorem registered (w : World) : Quiet w w.registered := by
  rw [World.registered]
  split
  · exact refl w
  · exact (run _ _).after (stophooks w)

theorem download (w : World) (o : World.Outcome) : Quiet w (w.download o) := by
  cases o with
  | success cmps => exact stepfinished w _
  | failure code => exact stepfinished w _

theorem download_package (w : World) (o : World.Outcome) :
    Quiet w (w.start 2 o) := by
  cases hu : w.update with
  | none =>
    have heq : w.start 2 o = w := by simp [World.start, hu]
    rw [heq]
    exact refl w
  | some u =>
    by_cases hm3da : u.infos.m3da
    · cases o with
      | failure code =>
        have heq : w.start 2 (.failure code) = w.stepfinished (some code) := by
          simp [World.start, hu, hm3da]
        rw [heq]
        exact stepfinished w _
      | success cmps =>
        have heq : w.start 2 (.success cmps) =
            { ((w.modify fun u => { u with updatefile := true }).savecurrentupdate).run
                (.download w.made) with made := w.made + 1 } := by
          simp [World.start, hu, hm3da]
        have hfile := change w (f := fun u => { u with updatefile := true }) fun _ => rfl
        rw [heq]
        exact ⟨hfile.update, rfl, rfl, rfl, rfl, Nat.le_succ _, fun h => h⟩
    · have heq : w.start 2 o =
          (w.modify fun u => { u with updatefile := true }).stepfinished none := by
        simp [World.start, hu, hm3da]
      rw [heq]
      exact (stepfinished _ _).after (modify w fun _ => rfl)

theorem check_package (w : World) (o : World.Outcome) : Quiet w (w.start 3 o) := by
  cases o with
  | success cmps =>
    exact (run _ _).after (modify w (f := fun u => { u with updateDirectory := true }) fun _ => rfl)
  | failure code => exact stepfinished w _

theorem dispatch_update (w : World) (o : World.Outcome) : Quiet w (w.start 4 o) := by
  rw [World.start]
  split
  · exact refl w
  · split
    · exact ⟨rfl, rfl, rfl, rfl, rfl, le_refl _, fun h => h⟩
    · exact stepfinished w _

theorem savestate (w : World) : Quiet w w.savestate := by
  rw [World.savestate]
  split
  · exact refl w
  · exact ⟨rfl, rfl, rfl, rfl, rfl, le_refl _, fun h => h⟩

theorem notified (w : World) (n : Nat) : Quiet w (w.notified n) := by
  have hprogress := stepprogress w
  match hw : w.stepprogress with
  | (w', true) =>
    have heq : w.notified n = w' := by simp [World.notified, hw]
    rw [hw] at hprogress
    rw [heq]
    exact hprogress
  | (w', false) =>
    have heq : w.notified n = { w' with tasks := w'.tasks.erase (.download n) } := by
      simp [World.notified, hw]
    rw [hw] at hprogress
    rw [heq]
    exact ⟨hprogress.update, hprogress.swlist, hprogress.saved, hprogress.before, hprogress.commands,
      hprogress.made, hprogress.plain⟩

theorem request (w : World) (r : Request) : Quiet w (w.request r) := by
  unfold World.request
  split
  · exact refl w
  split
  · split
    · exact (run _ _).after (change w fun _ => rfl)
    · exact (run _ _).after (change w fun _ => rfl)
    · exact refl w
  · exact change w fun _ => rfl

end Quiet

end Mihini.Update
