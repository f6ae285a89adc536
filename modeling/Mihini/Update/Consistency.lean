import Mihini.Update.Quiet

/-!
# The software list and the updates

The software list is what the components of the manifest that have reported 200 make of the list
before the update, whenever the agent stops.
-/

namespace Mihini.Update

open Mihini.Lib Option

/-! ## The list -/

def updateswlist (l : SwList) (c : Cmp) : SwList :=
  match World.uidOf l c.name with
  | some uid => World.putSwlist l uid c
  | none =>
    World.putSwlist { l with appuid := some (World.newUid l) } (World.newUid l) c

def replay (l : SwList) (cs : List (Cmp × Option Int)) : SwList :=
  (cs.filter fun c => c.2 = some 200).foldl (fun l c => updateswlist l c.1) l

def Agree (l l' : SwList) : Prop := l.components = l'.components ∧ l.appuid = l'.appuid

namespace Agree

variable {l l' l'' : SwList}

theorem refl (l : SwList) : Agree l l := ⟨rfl, rfl⟩

theorem trans (h : Agree l l') (h' : Agree l' l'') : Agree l l'' :=
  ⟨h.1.trans h'.1, h.2.trans h'.2⟩

theorem putSwlist (h : Agree l l') (uid : Nat) (c : Cmp) :
    Agree (World.putSwlist l uid c) (World.putSwlist l' uid c) := by
  rw [World.putSwlist, World.putSwlist]
  split
  · exact ⟨congrArg (AList.insert uid c) h.1, h.2⟩
  · exact ⟨congrArg (AList.erase uid) h.1, h.2⟩

theorem uidOf (h : Agree l l') (name : String) : World.uidOf l name = World.uidOf l' name := by
  rw [World.uidOf, World.uidOf, h.1]

theorem newUid (h : Agree l l') : World.newUid l = World.newUid l' := by
  rw [World.newUid, World.newUid, h.2]

theorem known (h : Agree l l') {c : Cmp} {uid : Nat} (huid : World.uidOf l c.name = some uid) :
    Agree (World.putSwlist l uid c) (updateswlist l' c) := by
  rw [updateswlist, ← h.uidOf, huid]
  exact h.putSwlist uid c

theorem unknown (h : Agree l l') {c : Cmp} (huid : World.uidOf l c.name = none) :
    Agree (World.putSwlist { l with appuid := some (World.newUid l) } (World.newUid l) c)
      (updateswlist l' c) := by
  have hnew : Agree { l with appuid := some (World.newUid l) }
      { l' with appuid := some (World.newUid l') } :=
    ⟨h.1, congrArg some h.newUid⟩
  rw [updateswlist, ← h.uidOf, huid, ← h.newUid]
  rw [← h.newUid] at hnew
  exact hnew.putSwlist _ c

end Agree

variable {l : SwList}

theorem replay_of_none {cs : List (Cmp × Option Int)} (h : ∀ c ∈ cs, c.2 = none) :
    replay l cs = l := by
  have hfilter : (cs.filter fun c => c.2 = some 200) = [] := by
    rw [List.filter_eq_nil_iff]
    intro c hc
    simp [h c hc]
  rw [replay, hfilter, List.foldl_nil]

theorem replay_append (l : SwList) (cs cs' : List (Cmp × Option Int)) :
    replay l (cs ++ cs') = replay (replay l cs) cs' := by
  rw [replay, List.filter_append, List.foldl_append, replay, replay]

variable {r : Option Int} {c : Cmp}

/-- The components after the current one have not reported anything. -/
theorem replay_current {cs : List (Cmp × Option Int)} {i : Nat}
    (hget : cs[i]? = some (c, r)) (hrest : ∀ c ∈ cs.drop (i + 1), c.2 = none) :
    replay l cs = if r = some 200 then updateswlist (replay l (cs.take i)) c
      else replay l (cs.take i) := by
  have hlt : i < cs.length := (List.getElem?_eq_some_iff.mp hget).1
  have hcut : cs = cs.take i ++ ((c, r) :: cs.drop (i + 1)) := by
    have hdrop : cs.drop i = (c, r) :: cs.drop (i + 1) := by
      rw [List.drop_eq_getElem_cons hlt, (List.getElem?_eq_some_iff.mp hget).2]
    rw [← hdrop, List.take_append_drop]
  have hnone : ∀ l, replay l (cs.drop (i + 1)) = l := fun l => replay_of_none hrest
  have hcons : ∀ l, replay l ((c, r) :: cs.drop (i + 1)) =
      if r = some 200 then updateswlist l c else l := by
    intro l
    by_cases hr : r = some 200
    · have hfirst : replay l ((c, r) :: cs.drop (i + 1)) =
          replay (updateswlist l c) (cs.drop (i + 1)) := by simp [replay, hr]
      rw [hfirst, hnone, if_pos hr]
    · have hfirst : replay l ((c, r) :: cs.drop (i + 1)) = replay l (cs.drop (i + 1)) := by
        simp [replay, hr]
      rw [hfirst, hnone, if_neg hr]
  calc replay l cs = replay l (cs.take i ++ ((c, r) :: cs.drop (i + 1))) := congrArg _ hcut
    _ = replay (replay l (cs.take i)) ((c, r) :: cs.drop (i + 1)) := replay_append ..
    _ = _ := hcons _

/-! ## What most operations leave alone -/

structure Kept (w w' : World) : Prop where
  ledger : w'.update.map CurrentUpdate.ledger = w.update.map CurrentUpdate.ledger
  swlist : w'.swlist = w.swlist
  saved : w'.savedSwlist = w.savedSwlist
  before : w'.before = w.before
  plain : Plain w → Plain w'

theorem Quiet.kept {w w' : World} (h : Quiet w w') : Kept w w' where
  ledger := by
    have hledger := congrArg (Option.map fun x : Nat × Option (List Dispatched) =>
      x.2.map fun comps => comps.map fun c => (c.cmp, c.result)) h.update
    rw [map_map, map_map] at hledger
    exact hledger
  swlist := h.swlist
  saved := h.saved
  before := h.before
  plain := h.plain

namespace Kept

variable {w w' w'' : World}

theorem refl (w : World) : Kept w w := ⟨rfl, rfl, rfl, rfl, fun h => h⟩

theorem after (h' : Kept w' w'') (h : Kept w w') : Kept w w'' :=
  ⟨h'.ledger.trans h.ledger, h'.swlist.trans h.swlist, h'.saved.trans h.saved,
    h'.before.trans h.before, fun hp => h'.plain (h.plain hp)⟩

theorem modify (w : World) {f : CurrentUpdate → CurrentUpdate} (hf : ∀ u, (f u).ledger = u.ledger) :
    Kept w (w.modify f) where
  ledger := by
    rw [World.modify, map_map]
    exact congrArg (fun g => Option.map g w.update) (funext hf)
  swlist := rfl
  saved := rfl
  before := rfl
  plain := fun h => h

theorem countRetry_ledger (c : Ref) (u : CurrentUpdate) :
    (World.countRetry c u).ledger = u.ledger := by
  rw [← CurrentUpdate.forget_ledger, forget_countRetry, CurrentUpdate.forget_ledger]

theorem sendmsgasset (w : World) (c : Ref) : Kept w (w.sendmsgasset c) := by
  have hcounted := modify w (countRetry_ledger c)
  rw [World.sendmsgasset]
  split
  · exact hcounted
  · exact ⟨hcounted.ledger, rfl, rfl, rfl, fun h => h⟩

theorem alertcomponent (retries : Nat) (w : World) : Kept w (w.alertcomponent retries) := by
  rw [World.alertcomponent]
  split
  · exact refl w
  split
  · exact refl w
  · split
    · exact (Quiet.stepfinished w _).kept
    · split
      · exact refl w
      · exact (Quiet.run w _).kept
      · exact sendmsgasset w _

theorem alert (w : World) (c : Ref) : Kept w (w.alert c) := by
  have hprogress := (Quiet.stepprogress w).kept
  match hw : w.stepprogress with
  | (w', true) =>
    have heq : w.alert c = w'.sendmsgasset c := by simp [World.alert, hw]
    rw [hw] at hprogress
    rw [heq]
    exact (sendmsgasset w' c).after hprogress
  | (w', false) =>
    have heq : w.alert c = w' := by simp [World.alert, hw]
    rw [hw] at hprogress
    rw [heq]
    exact hprogress

theorem nextdispatchstep (retries : Nat) (w : World) : Kept w (w.nextdispatchstep retries) := by
  rw [World.nextdispatchstep]
  split
  · exact refl w
  split
  · exact refl w
  · simp only
    split
    · exact (Quiet.nextindex w).kept
    split
    · exact refl w
    · split
      · exact alertcomponent retries w
      · split
        · exact (Quiet.nextindex w).kept
        · exact (Quiet.stepfinished w _).kept

theorem indexed (retries : Nat) (w : World) : Kept w (w.indexed retries) := by
  rw [World.indexed]
  split
  · exact refl w
  split
  · exact refl w
  · split
    · exact alertcomponent retries w
    · exact (Quiet.stepfinished w _).kept

theorem assetresponsetimeout (retries : Nat) (w : World) :
    Kept w (w.assetresponsetimeout retries) := by
  rw [World.assetresponsetimeout]
  split
  · exact (alertcomponent retries _).after (Quiet.stophooks w).kept
  · exact refl w

end Kept

/-! ## Stops of the agent -/

def Torn : Option Busy → Bool
  | some (.recorded code) => code == 200
  | some (.identified _) => true
  | _ => false

def Whole (w : World) : Event → Prop
  | .restart => Torn w.busy = false
  | _ => True

instance (w : World) : (e : Event) → Decidable (Whole w e)
  | .restart => inferInstanceAs (Decidable (_ = _))
  | .run _ _ | .goOn | .answer _ _ _ | .notifier _ | .notified _ | .assetresponsetimeout
  | .registered | .result _ _ | .request _ | .drop _ | .localupdate | .newupdate _ => isTrue trivial

/-! ## The invariant -/

def earlier (u : CurrentUpdate) : List (Cmp × Option Int) :=
  (u.ledger.getD []).take (u.index - 1)

def Reported (u : CurrentUpdate) (c : Cmp) (r : Option Int) : Prop :=
  u.index ≠ 0 ∧ ∃ cs, u.ledger = some cs ∧ cs[u.index - 1]? = some (c, r)

/-- The software list of an update, when it may be a component behind. -/
def Applied (w : World) (u : CurrentUpdate) : Option Busy → Prop
  | some (.recorded code) =>
    ∃ c, Reported u c (some code) ∧ Agree w.swlist (replay w.before (earlier u))
  | some (.identified uid) =>
    ∃ c l, Reported u c (some 200) ∧ Agree l (replay w.before (earlier u)) ∧
      World.uidOf l c.name = none ∧ uid = World.newUid l ∧
      Agree w.swlist { l with appuid := some uid }
  | _ => Agree w.swlist (replay w.before (u.ledger.getD []))

structure Consistent (w : World) : Prop where
  saved : w.savedSwlist = w.swlist
  applied : ∀ u, w.update = some u → Applied w u w.busy

theorem applied_of_plain {w : World} (h : Plain w) (u : CurrentUpdate) :
    Applied w u w.busy ↔ Agree w.swlist (replay w.before (u.ledger.getD [])) := by
  match hb : w.busy with
  | some (.recorded code) => exact absurd hb (h.1 code)
  | some (.identified uid) => exact absurd hb (h.2 uid)
  | none => exact Iff.rfl
  | some .indexed => exact Iff.rfl
  | some .closing => exact Iff.rfl

theorem plain_of_none {w : World} (h : w.busy = none) : Plain w := by simp [Plain, h]

namespace Consistent

variable {w w' : World} {u : CurrentUpdate}

theorem agree (h : Consistent w) (hp : Plain w) (hu : w.update = some u) :
    Agree w.swlist (replay w.before (u.ledger.getD [])) :=
  (applied_of_plain hp u).mp (h.applied u hu)

theorem keep (h : Consistent w) (hp : Plain w) (hk : Kept w w') : Consistent w' where
  saved := by rw [hk.saved, hk.swlist, h.saved]
  applied := by
    intro u' hu'
    have hledger : w.update.map CurrentUpdate.ledger = some u'.ledger := by
      rw [← hk.ledger, hu', map_some]
    obtain ⟨u, hu, heq⟩ := map_eq_some_iff.mp hledger
    rw [applied_of_plain (hk.plain hp), hk.swlist, hk.before, ← heq]
    exact h.agree hp hu

end Consistent

variable {u : CurrentUpdate}

theorem replay_reported {full : Prop}
    (hgood : Good full u) (h : Reported u c r) :
    replay l (u.ledger.getD []) =
      if r = some 200 then updateswlist (replay l (earlier u)) c else replay l (earlier u) := by
  obtain ⟨hindex, cs, hcs, hget⟩ := h
  have hsucc : u.index - 1 + 1 = u.index := by omega
  have hrest := hgood.rest cs hcs
  rw [← hsucc] at hrest
  rw [earlier, hcs, getD_some]
  exact replay_current hget hrest

theorem component_of_reported
    (h : Reported u c r) :
    ∃ comp, (u.manifest.bind fun comps => World.component comps u.index) = some comp ∧
      comp.cmp = c ∧ comp.result = r := by
  obtain ⟨hindex, cs, hcs, hget⟩ := h
  obtain ⟨comps, hman, rfl⟩ := map_eq_some_iff.mp hcs
  rw [List.getElem?_map, map_eq_some_iff] at hget
  obtain ⟨comp, hcomp, heq⟩ := hget
  refine ⟨comp, ?_, congrArg Prod.fst heq, congrArg Prod.snd heq⟩
  simp [hman, World.component, hindex, hcomp]

theorem reported_of_component {comps : List Dispatched} {comp : Dispatched}
    (hman : u.manifest = some comps) (hcomp : World.component comps u.index = some comp) :
    Reported u comp.cmp comp.result :=
  ledger_of_component hman hcomp

theorem reported_setResult (h : Reported u c r)
    (code : Int) : Reported (World.setResult u code) c (some code) := by
  obtain ⟨hindex, cs, hcs, hget⟩ := h
  refine ⟨hindex, cs.modify (u.index - 1) fun c => (c.1, some code), ?_, ?_⟩
  · rw [ledger_setResult, hcs, map_some]
  · rw [show (World.setResult u code).index = u.index from rfl, List.getElem?_modify, hget]
    simp

theorem earlier_setResult (u : CurrentUpdate) (code : Int) :
    earlier (World.setResult u code) = earlier u := by
  rw [earlier, earlier, ledger_setResult, show (World.setResult u code).index = u.index from rfl]
  cases u.ledger with
  | none => rfl
  | some cs =>
    rw [map_some, getD_some, getD_some]
    apply List.ext_getElem?
    intro j
    rw [List.getElem?_take, List.getElem?_take, List.getElem?_modify]
    by_cases hj : j < u.index - 1
    · have hne : u.index - 1 ≠ j := by omega
      simp [hj, hne]
    · simp [hj]

namespace Consistent

variable {w : World} {u : CurrentUpdate} {full : Prop}

/-! ### The result of a component -/

theorem updateResult (h : Consistent w) (hinv : Inv full w) (hbusy : w.busy = none)
    (cmpname : String) (code : Int) : Consistent (w.updateResult cmpname code) := by
  by_cases hacc : w.accepts cmpname
  · have heq : w.updateResult cmpname code =
        { (w.modify fun u => World.setResult u code).savecurrentupdate with
          busy := some (.recorded code) } := by
      simp [World.updateResult, hacc]
    rw [heq]
    refine ⟨h.saved, ?_⟩
    intro u' hu'
    obtain ⟨u, hu, rfl⟩ := map_eq_some_iff.mp hu'
    have hcurrent : ∃ c, Reported u c none := by
      simp only [World.accepts, hu] at hacc
      split at hacc
      · cases hacc
      · next comp hcomp =>
        obtain ⟨comps, hman, hget⟩ := bind_eq_some_iff.mp hcomp
        have hres : comp.result = none := by
          simpa using (Bool.and_eq_true_iff.mp hacc).2
        have hrep := reported_of_component hman hget
        rw [hres] at hrep
        exact ⟨comp.cmp, hrep⟩
    obtain ⟨c, hrep⟩ := hcurrent
    refine ⟨c, reported_setResult hrep code, ?_⟩
    have hagree := h.agree (plain_of_none hbusy) hu
    rw [replay_reported (hinv.good u hu) hrep, if_neg (by rintro ⟨⟩)] at hagree
    rw [earlier_setResult]
    exact hagree
  · have heq : w.updateResult cmpname code = w := by simp [World.updateResult, hacc]
    rw [heq]
    exact h

/-- The write of the list of components. -/
theorem applied_write {c : Cmp} {comp : Dispatched} {uid : Nat} (hbusy : w.busy = none)
    (hu : w.update = some u)
    (hcomp : (u.manifest.bind fun comps => World.component comps u.index) = some comp)
    (hcmp : comp.cmp = c)
    (hagree : Agree (World.putSwlist w.swlist uid c) (replay w.before (u.ledger.getD []))) :
    Consistent (w.applied uid) := by
  have heq : w.applied uid =
      { w with
        swlist := World.putSwlist w.swlist uid comp.cmp
        savedSwlist := World.putSwlist w.swlist uid comp.cmp
        tasks := .nextdispatchstep :: w.tasks } := by
    simp [World.applied, World.run, World.saveswlist, hu, hcomp]
  rw [heq]
  refine ⟨rfl, ?_⟩
  intro u' hu'
  have hsame : u' = u := Option.some.inj (hu'.symm.trans hu)
  rw [← hcmp] at hagree
  rw [hsame]
  refine (applied_of_plain (plain_of_none ?_) u).mpr hagree
  exact hbusy

theorem recorded {code : Int} {c : Cmp} (hsaved : w.savedSwlist = w.swlist) (hinv : Good full u)
    (hbusy : w.busy = none) (hu : w.update = some u) (hrep : Reported u c (some code))
    (hagree : Agree w.swlist (replay w.before (earlier u))) : Consistent (w.recorded code) := by
  obtain ⟨comp, hcomp, hcmp, hres⟩ := component_of_reported hrep
  have hreplay := replay_reported (l := w.before) hinv hrep
  have hu' : w.stophooks.update = some u := hu
  by_cases hcode : code = 200
  · rw [hcode, if_pos rfl] at hreplay
    match huid : World.uidOf w.stophooks.swlist comp.cmp.name with
    | some uid =>
      have heq : w.recorded code = w.stophooks.applied uid := by
        simp [World.recorded, hcode, hu', hcomp, huid]
      rw [heq]
      apply applied_write (w := w.stophooks) hbusy hu hcomp hcmp
      rw [hcmp] at huid
      rw [show w.stophooks.before = w.before from rfl, hreplay]
      exact hagree.known huid
    | none =>
      have heq : w.recorded code =
          { w.stophooks with
            swlist := { w.swlist with appuid := some (World.newUid w.swlist) }
            savedSwlist := { w.swlist with appuid := some (World.newUid w.swlist) }
            busy := some (.identified (World.newUid w.swlist)) } := by
        simp [World.recorded, World.stophooks, hcode, hu, hcomp,
          show World.uidOf w.swlist comp.cmp.name = none from huid, World.saveswlist]
      rw [heq]
      refine ⟨rfl, ?_⟩
      intro v hv
      have hsame : v = u := Option.some.inj (hv.symm.trans hu)
      rw [hsame]
      rw [hcmp] at huid
      rw [hcode] at hrep
      exact ⟨c, w.swlist, hrep, hagree, huid, rfl, Agree.refl _⟩
  · have heq : w.recorded code = w.stophooks.run (.failed code) := by
      simp [World.recorded, hcode]
    have hne : ¬(some code : Option Int) = some 200 := by simpa using hcode
    rw [if_neg hne] at hreplay
    rw [heq]
    refine ⟨hsaved, ?_⟩
    intro v hv
    have hsame : v = u := Option.some.inj (hv.symm.trans hu)
    have hplain : Plain (w.stophooks.run (.failed code)) := plain_of_none hbusy
    rw [← hreplay] at hagree
    rw [hsame]
    exact (applied_of_plain hplain u).mpr hagree

theorem identified {uid : Nat} {c : Cmp} {l : SwList} (hinv : Good full u) (hbusy : w.busy = none)
    (hu : w.update = some u) (hrep : Reported u c (some 200))
    (hagree : Agree l (replay w.before (earlier u))) (hnew : World.uidOf l c.name = none)
    (huid : uid = World.newUid l) (hlist : Agree w.swlist { l with appuid := some uid }) :
    Consistent (w.applied uid) := by
  obtain ⟨comp, hcomp, hcmp, _⟩ := component_of_reported hrep
  have hreplay := replay_reported (l := w.before) hinv hrep
  rw [if_pos rfl] at hreplay
  apply applied_write hbusy hu hcomp hcmp
  rw [hreplay]
  rw [huid] at hlist ⊢
  exact (hlist.putSwlist _ c).trans (hagree.unknown hnew)

/-! ### The other operations that are not plain -/

theorem cleaned (h : Consistent w) (hbusy : w.busy = none) : Consistent w.cleaned := by
  match hu : w.update with
  | none =>
    have heq : w.cleaned = w := by simp [World.cleaned, hu]
    rw [heq]
    exact h
  | some u =>
    have heq : w.cleaned = { w with
        swlist := { w.swlist with lastupdate := u.result }
        savedSwlist := { w.swlist with lastupdate := u.result }
        busy := some .closing } := by
      simp [World.cleaned, World.saveswlist, hu]
    rw [heq]
    refine ⟨rfl, ?_⟩
    intro v hv
    have hsame : v = u := Option.some.inj (hv.symm.trans hu)
    have hagree := h.agree (plain_of_none hbusy) hu
    rw [hsame]
    exact ⟨hagree.1, hagree.2⟩

theorem closed (h : Consistent w) : Consistent w.closed := by
  match hu : w.update with
  | none =>
    have heq : w.closed = w := by simp [World.closed, hu]
    rw [heq]
    exact h
  | some u =>
    have hnone : w.closed.update = none := by simp [World.closed, hu]
    have hlists : w.closed.savedSwlist = w.savedSwlist ∧ w.closed.swlist = w.swlist := by
      simp [World.closed, hu]
    refine ⟨?_, by simp [hnone]⟩
    rw [hlists.1, hlists.2, h.saved]

theorem finishUpdate (h : Consistent w) (hbusy : w.busy = none) : Consistent w.finishUpdate := by
  have hfin : Consistent (w.modify fun u =>
      { u with result := some (u.result.getD 200) }).savecurrentupdate :=
    h.keep (plain_of_none hbusy) (Quiet.change w
      (f := fun u => { u with result := some (u.result.getD 200) }) fun _ => rfl).kept
  rw [World.finishUpdate]
  split
  · exact hfin
  · split
    · exact hfin.keep (plain_of_none hbusy) (Quiet.run _ _).kept
    · exact hfin.keep (plain_of_none hbusy) (Quiet.savestate _).kept

theorem check (h : Consistent w) (hinv : ∀ u, w.update = some u → Good full u)
    (hbusy : w.busy = none) (hstep : ∀ u, w.update = some u → u.step = 3)
    (o : World.Outcome) : Consistent (w.check o) := by
  cases o with
  | failure code => exact h.keep (plain_of_none hbusy) (Quiet.stepfinished w _).kept
  | success cmps =>
    have hchecked : Consistent (w.modify fun u =>
        { u with manifest := some (cmps.map fun c => ⟨c, none, 0⟩) }) := by
      refine ⟨h.saved, ?_⟩
      intro v hv
      obtain ⟨u, hu, rfl⟩ := map_eq_some_iff.mp hv
      have hgood := hinv u hu
      have hindex : u.index = 0 := hgood.index (by rw [hstep u hu]; omega)
      have hold : replay w.before (u.ledger.getD []) = w.before := by
        apply replay_of_none
        intro c hc
        cases hledger : u.ledger with
        | none => simp [hledger] at hc
        | some cs =>
          rw [hledger, getD_some] at hc
          exact hgood.rest cs hledger c (by simpa [hindex] using hc)
      have hagree := h.agree (plain_of_none hbusy) hu
      rw [hold] at hagree
      have hnew : replay w.before
          ((CurrentUpdate.ledger { u with manifest := some (cmps.map fun c => ⟨c, none, 0⟩) }).getD
            []) = w.before := by
        apply replay_of_none
        simp [CurrentUpdate.ledger]
      refine (applied_of_plain (plain_of_none ?_) _).mpr ?_
      · exact hbusy
      · rw [show (w.modify _).before = w.before from rfl, hnew]
        exact hagree
    exact hchecked.keep (plain_of_none hbusy) (Quiet.stepfinished _ _).kept

theorem start (h : Consistent w) (hbusy : w.busy = none) (step : Nat) (o : World.Outcome) :
    Consistent (w.start step o) := by
  have hplain := plain_of_none hbusy
  match step with
  | 1 => exact h.keep hplain (Quiet.stepfinished w _).kept
  | 2 => exact h.keep hplain (Quiet.download_package w o).kept
  | 3 => exact h.keep hplain (Quiet.check_package w o).kept
  | 4 => exact h.keep hplain (Quiet.dispatch_update w o).kept
  | 0 | _ + 5 => exact h.finishUpdate hbusy

theorem newupdate (h : Consistent w) (hbusy : w.busy = none) (p : Package) :
    Consistent (w.newupdate p) := by
  match hu : w.update with
  | some u =>
    have heq : w.newupdate p = w := by simp [World.newupdate, hu]
    rw [heq]
    exact h
  | none =>
    let u : CurrentUpdate := ⟨w.made, 0, p, 1, false, none, none, false, false, none, 0⟩
    let w₀ : World := { w with
      update := some u
      savedUpdate := some u
      made := w.made + 1
      reports := 0
      before := w.swlist }
    have heq : w.newupdate p = w₀.stepstart := by
      simp [World.newupdate, hu, World.savecurrentupdate, w₀, u]
    have hplain : Plain w₀ := plain_of_none hbusy
    have hnew : Consistent w₀ := by
      refine ⟨h.saved, ?_⟩
      intro v hv
      have hsame : v = u := (Option.some.inj hv).symm
      rw [hsame]
      exact (applied_of_plain hplain u).mpr (Agree.refl _)
    rw [heq]
    exact hnew.keep hplain (Quiet.stepstart w₀).kept

/-- The agent does not stop between the write of a result and that of the list. -/
theorem restart (h : Consistent w) (hinv : Inv full w) (hwhole : Torn w.busy = false) :
    Consistent w.restart := by
  refine ⟨rfl, ?_⟩
  intro us hus
  have hforget : w.update.map CurrentUpdate.forget = some us.forget := by
    have hstored := hinv.stored
    rw [Stored, show w.savedUpdate = some us from hus] at hstored
    exact hstored.symm
  obtain ⟨u, hu, heq⟩ := map_eq_some_iff.mp hforget
  have hledger : us.ledger = u.ledger := by
    rw [← us.forget_ledger, ← heq, u.forget_ledger]
  have hagree : Agree w.swlist (replay w.before (u.ledger.getD [])) := by
    by_cases hplain : Plain w
    · exact h.agree hplain hu
    have hrecorded : ∃ code, w.busy = some (.recorded code) ∧ code ≠ 200 := by
      by_contra hnone
      refine hplain ⟨fun code hb => hnone ⟨code, hb, ?_⟩, fun uid hb => ?_⟩
      · simpa [Torn, hb] using hwhole
      · simp [Torn, hb] at hwhole
    obtain ⟨code, hb, hcode⟩ := hrecorded
    have happlied := h.applied u hu
    rw [hb] at happlied
    obtain ⟨c, hrep, hagree⟩ := happlied
    have hne : ¬(some code : Option Int) = some 200 := fun heq => hcode (Option.some.inj heq)
    rw [replay_reported (hinv.good u hu) hrep, if_neg hne]
    exact hagree
  have hplain : Plain w.restart := plain_of_none rfl
  refine (applied_of_plain hplain us).mpr ?_
  rw [hledger, show w.restart.swlist = w.savedSwlist from rfl, h.saved]
  exact hagree

theorem goOn (h : Consistent w) (hinv : Inv full w) (retries : Nat) :
    Consistent (goOn retries w) := by
  have hexists : w.busy ≠ none → ∃ u, w.update = some u := by
    intro hbusy
    by_contra hnone
    exact hbusy (hinv.absent (eq_none_iff_forall_not_mem.mpr fun u hu => hnone ⟨u, hu⟩)).2
  match hb : w.busy with
  | none =>
    have heq : Update.goOn retries w = w := by simp [Update.goOn, hb]
    rw [heq]
    exact h
  | some .indexed =>
    have heq : Update.goOn retries w = { w with busy := none }.indexed retries := by
      simp [Update.goOn, hb]
    have hplain : Plain w := by simp [Plain, hb]
    have hidle : Kept w { w with busy := none } := ⟨rfl, rfl, rfl, rfl, fun _ => plain_of_none rfl⟩
    rw [heq]
    exact h.keep hplain ((Kept.indexed retries _).after hidle)
  | some .closing =>
    have heq : Update.goOn retries w = { w with busy := none }.closed := by
      simp [Update.goOn, hb]
    have hplain : Plain w := by simp [Plain, hb]
    have hidle : Kept w { w with busy := none } := ⟨rfl, rfl, rfl, rfl, fun _ => plain_of_none rfl⟩
    rw [heq]
    exact (h.keep hplain hidle).closed
  | some (.recorded code) =>
    have heq : Update.goOn retries w = { w with busy := none }.recorded code := by
      simp [Update.goOn, hb]
    obtain ⟨u, hu⟩ := hexists (by simp [hb])
    have happlied := h.applied u hu
    rw [hb] at happlied
    obtain ⟨c, hrep, hagree⟩ := happlied
    rw [heq]
    exact recorded (w := { w with busy := none }) h.saved (hinv.good u hu) rfl hu hrep hagree
  | some (.identified uid) =>
    have heq : Update.goOn retries w = { w with busy := none }.applied uid := by
      simp [Update.goOn, hb]
    obtain ⟨u, hu⟩ := hexists (by simp [hb])
    have happlied := h.applied u hu
    rw [hb] at happlied
    obtain ⟨c, l, hrep, hagree, hnew, huid, hlist⟩ := happlied
    rw [heq]
    exact identified (w := { w with busy := none }) (hinv.good u hu) rfl hu hrep hagree hnew huid
      hlist

theorem run (h : Consistent w) (hinv : Inv full w) {t : Task} {o : World.Outcome}
    (he : Enabled w (.run t o)) (retries : Nat) : Consistent (runTask retries w t o) := by
  obtain ⟨hbusy, ht, _⟩ := he
  have hplain := plain_of_none hbusy
  have hturn : Consistent { w with tasks := w.tasks.erase t } := ⟨h.saved, h.applied⟩
  cases t with
  | stepstart => exact hturn.keep hplain (Quiet.stepstart _).kept
  | starting => exact hturn.keep hplain (Quiet.starting _).kept
  | start step => exact hturn.start hbusy step o
  | check => exact hturn.check hinv.good hbusy (fun u hu => hinv.fits u hu _ ht) o
  | download n => exact hturn.keep hplain (Quiet.download _ o).kept
  | nextdispatchstep => exact hturn.keep hplain (Kept.nextdispatchstep retries _)
  | alert c => exact hturn.keep hplain (Kept.alert _ c)
  | sendmsgasset c => exact hturn.keep hplain (Kept.sendmsgasset _ c)
  | failed code => exact hturn.keep hplain (Quiet.stepfinished _ _).kept
  | acknowledge =>
    cases o with
    | failure code => exact hturn
    | success cmps => exact hturn.keep hplain ⟨rfl, rfl, rfl, rfl, fun hp => hp⟩
  | acknowledged => exact hturn.keep hplain (Quiet.savestate _).kept
  | cleaned => exact hturn.cleaned hbusy
  | resumeupdate => exact hturn.keep hplain (Quiet.resumeupdate _).kept

theorem step (h : Consistent w) (hinv : Inv full w) {e : Event} (he : Enabled w e)
    (hwhole : Whole w e) (retries : Nat) : Consistent (Update.step retries w e) := by
  cases e with
  | run t o => exact h.run hinv he retries
  | goOn => exact h.goOn hinv retries
  | answer c indextmp r =>
    have haside : Kept w { w with sent := w.sent.erase (c, indextmp) } :=
      ⟨rfl, rfl, rfl, rfl, fun hp => hp⟩
    exact h.keep (plain_of_none he.1) ((Quiet.answered _ c indextmp r).kept.after haside)
  | notifier n =>
    rw [Update.step]
    split
    · exact ⟨h.saved, h.applied⟩
    · exact h
  | notified n =>
    have haside : Kept w { w with notifiers := w.notifiers.erase n } :=
      ⟨rfl, rfl, rfl, rfl, fun hp => hp⟩
    exact h.keep (plain_of_none he.1) ((Quiet.notified _ n).kept.after haside)
  | assetresponsetimeout => exact h.keep (plain_of_none he) (Kept.assetresponsetimeout retries w)
  | registered => exact h.keep (plain_of_none he) (Quiet.registered w).kept
  | result cmpname code => exact h.updateResult hinv he cmpname code
  | request r => exact h.keep (plain_of_none he) (Quiet.request w r).kept
  | drop id => exact ⟨h.saved, h.applied⟩
  | localupdate =>
    rw [Update.step, World.localupdate]
    split
    · exact h
    · exact h.newupdate he _
  | newupdate p => exact h.newupdate he.1 p
  | restart => exact h.restart hinv hwhole

end Consistent

theorem consistent_init (swlist : SwList) : Consistent (init swlist) :=
  ⟨rfl, by simp [init]⟩

namespace Consistent

variable {w : World} {u : CurrentUpdate} {full : Prop}

theorem restarted (h : Consistent w) (hinv : Inv full w) (hwhole : Torn w.busy = false)
    (hu : w.savedUpdate = some u) {cs : List (Cmp × Option Int)} (hcs : u.ledger = some cs) :
    Agree w.savedSwlist (replay w.before cs) := by
  have hagree := (h.restart hinv hwhole).agree (plain_of_none rfl) hu
  rw [hcs] at hagree
  exact hagree

theorem finished (h : Consistent w) (hinv : Inv full w) (hbusy : w.busy = some .closing)
    (hu : w.update = some u) (hres : u.result = some 200) (retries : Nat) :
    ∃ cs, u.ledger = some cs ∧ Agree (Update.step retries w .goOn).savedSwlist
      (cs.foldl (fun l c => updateswlist l c.1) w.before) := by
  obtain ⟨cs, hcs, hall⟩ := hinv.complete hu hres
  have hagree := h.agree (by simp [Plain, hbusy]) hu
  have hfilter : (cs.filter fun c => c.2 = some 200) = cs := by
    rw [List.filter_eq_self]
    intro c hc
    simp [hall c hc]
  rw [hcs, getD_some, replay, hfilter, ← h.saved] at hagree
  refine ⟨cs, hcs, ?_⟩
  have heq : (Update.step retries w .goOn).savedSwlist = w.savedSwlist := by
    simp [Update.step, Update.goOn, hbusy, World.closed, hu]
  rw [heq]
  exact hagree

end Consistent

end Mihini.Update
