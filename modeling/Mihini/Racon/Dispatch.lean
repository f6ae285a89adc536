import Mihini.Lib.LuaPaths
import Mihini.Racon.SendData

/-!
# Dispatch of server data

The documented precedence of `src/luafwk/racon/asset/tree.lua`: each datum goes to the function at a
prefix of its path, else to the deepest default handler along its path, else it is written in the tree.
-/

namespace Mihini.Racon.Dispatch

open Mihini.Lib LuaFields List
open Mihini.Path (Str)
open Mihini.Racon.AssetTree
open Mihini.Racon.SendData (Field empHandlerSendData empHandlerSendData_open handle isResponse
  recordLeaves split Spread treeimg treeimg_leaves)

/-! ## The documented precedence -/

def functionOn : Value → List Key → Option Nat
  | .leaf (.handler (.application n)), _ => some n
  | .leaf _, _ => none
  | .table _, [] => none
  | .table f, k :: ks =>
    match f.lookup k with
    | none => none
    | some v => functionOn v ks

def defaultOf (f : Fields) : Option Nat :=
  match f.lookup defaultKey with
  | some (.leaf (.handler (.application n))) => some n
  | _ => none

def defaultOn : Value → List Key → Option Nat
  | .leaf _, _ => none
  | .table f, [] => defaultOf f
  | .table f, k :: ks =>
    match f.lookup k with
    | none => defaultOf f
    | some v => (defaultOn v ks).or (defaultOf f)

/-- What handles the datum at a path, below a default handler `best`; nothing when it is to be
written. -/
def dispatch (best : Option Nat) (tree : Value) (path : List Key) : Option Nat :=
  (functionOn tree path).or ((defaultOn tree path).or best)

abbrev Handled := List Key × Atom × Option Nat

def tagged (n : Option Nat) (leaves : List (List Key × Atom)) : List Handled :=
  leaves.map fun x => (x.1, x.2, n)

theorem tagged_append (n : Option Nat) (a b : List (List Key × Atom)) :
    tagged n (a ++ b) = tagged n a ++ tagged n b := map_append

def handlerNumber : Handler → Option Nat
  | .niltoken => none
  | .application n => some n

def handled : Effect → List Handled
  | .call h path data _ => tagged (handlerNumber h) (below path data.leaves)
  | .store path data => tagged none (below path data.leaves)

def expected (best : Option Nat) (tree : Value) (path : List Key)
    (leaves : List (List Key × Atom)) : List Handled :=
  leaves.map fun x => (path ++ x.1, x.2, dispatch best tree x.1)

/-! ## Regular data -/

def regularDefault (f : Fields) : Bool :=
  match f.lookup defaultKey with
  | none | some (.leaf (.handler (.application _))) => true
  | _ => false

mutual

/-- The data for a table of the tree have either numbers or strings as keys of a table.  Below a default
handler no datum that is not a table is sent for a table of the tree, and none for a plain value. -/
def regular (best : Option Nat) : Value → Fields → Bool
  | .leaf _, f => ((defaultOf f).or best).isNone
  | .table data, f =>
    !isMixed data && regularDefault f && decide data.keys.Nodup &&
      regularFields ((defaultOf f).or best) data f

def regularFields (best : Option Nat) : Fields → Fields → Bool
  | .nil, _ => true
  | .cons k v rest, f =>
    (match f.lookup k with
      | none | some (.leaf (.handler (.application _))) => true
      | some (.leaf (.handler .niltoken)) => false
      | some (.leaf _) => best.isNone
      | some (.table sub) => regular best v sub) && regularFields best rest f

end

/-! ## The precedence at a field -/

/-- What handles a datum below a field, where `best` is the best default handler. -/
def entryTarget (best : Option Nat) (f : Fields) (k : Key) (path : List Key) : Option Nat :=
  match f.lookup k with
  | some (.leaf (.handler (.application n))) => some n
  | some (.table sub) => dispatch best (.table sub) path
  | _ => best

theorem dispatch_cons (best : Option Nat) (f : Fields) (k : Key) (path : List Key) :
    dispatch best (.table f) (k :: path) = entryTarget ((defaultOf f).or best) f k path := by
  rw [dispatch, entryTarget, functionOn, defaultOn]
  cases f.lookup k with
  | none => rfl
  | some v =>
    cases v with
    | table sub =>
      show (functionOn (.table sub) path).or (((defaultOn (.table sub) path).or (defaultOf f)).or best) = _
      rw [Option.or_assoc]
      rfl
    | leaf a =>
      have hdefault : defaultOn (.leaf a) path = none := by cases path <;> rfl
      simp only [hdefault, Option.none_or]
      cases a with
      | handler h =>
        cases h with
        | niltoken => cases path <;> rfl
        | application n => cases path <;> rfl
      | bool | number | string => cases path <;> rfl

def expectedFields (best : Option Nat) (f : Fields) (path : List Key) : Fields → List Handled
  | .nil => []
  | .cons k v rest =>
    v.leaves.map (fun x => (path ++ [k] ++ x.1, x.2, entryTarget best f k x.1)) ++
      expectedFields best f path rest

theorem expected_table (best : Option Nat) (f : Fields) (path : List Key) (data : Fields) :
    expected best (.table f) path data.leaves =
      expectedFields ((defaultOf f).or best) f path data := by
  induction data using fieldwise with
  | nil => rfl
  | cons k v rest ih =>
    rw [expectedFields, ← ih]
    show List.map _ (below [k] v.leaves ++ rest.leaves) = _
    rw [map_append]
    refine congrArg (· ++ _) ?_
    show List.map _ (List.map _ v.leaves) = _
    rw [map_map]
    refine map_congr_left fun x _ => ?_
    show (path ++ ([k] ++ x.1), x.2, dispatch best (.table f) (k :: x.1)) = _
    rw [dispatch_cons, append_assoc]

/-! ## What a level dispatches -/

/-- The effects of some data, with what is left of them.  With an error only the last effect has failed,
and no datum was handled twice or by another handler; else none has failed, and all were handled. -/
def Dispatched (status : Status) (data left : List Handled) (done : List Effect) : Prop :=
  match status with
  | .ok => (∀ e ∈ done, ¬ e.Fails) ∧ (∀ e ∈ done, ¬ e.Async) ∧ data.Perm (done.flatMap handled ++ left)
  | .async => (∀ e ∈ done, ¬ e.Fails) ∧ (∃ e ∈ done, e.Async) ∧ data.Perm (done.flatMap handled ++ left)
  | .failed code _ => code ≠ 0 ∧
    ∃ before e, done = before ++ [e] ∧ e.Fails ∧ (∀ x ∈ before, ¬ x.Fails) ∧
      (done.flatMap handled).Subperm data
  | .raised =>
    ∃ before e, done = before ++ [e] ∧ e.Fails ∧ (∀ x ∈ before, ¬ x.Fails) ∧
      (done.flatMap handled).Subperm data

namespace Dispatched

variable {state status : Status} {data left more data' left' : List Handled} {done new : List Effect}

theorem start : Dispatched .ok [] [] [] := ⟨nofun, nofun, .refl _⟩

theorem store (path : List Key) (v : Value) :
    Dispatched .ok (tagged none (below path v.leaves)) [] [.store path v] := by
  refine ⟨?_, ?_, ?_⟩
  · intro e he hfails
    rw [mem_singleton.mp he] at hfails
    exact hfails
  · intro e he hasync
    rw [mem_singleton.mp he] at hasync
    exact hasync
  · rw [flatMap_singleton, append_nil]
    exact .refl _

theorem fine (h : Dispatched state data left done) (hstate : state.isError = false) :
    ∀ e ∈ done, ¬ e.Fails := by
  cases state with
  | ok => exact h.1
  | async => exact h.1
  | failed | raised => nomatch hstate

theorem perm (h : Dispatched state data left done) (hstate : state.isError = false) :
    data.Perm (done.flatMap handled ++ left) := by
  cases state with
  | ok => exact h.2.2
  | async => exact h.2.2
  | failed | raised => nomatch hstate

theorem leave (h : Dispatched state data left done) (hstate : state.isError = false) :
    Dispatched state (data ++ more) (left ++ more) done := by
  have hperm : (data ++ more).Perm (done.flatMap handled ++ (left ++ more)) := by
    rw [← append_assoc]
    exact (h.perm hstate).append_right more
  cases state with
  | ok => exact ⟨h.1, h.2.1, hperm⟩
  | async => exact ⟨h.1, h.2.1, hperm⟩
  | failed | raised => nomatch hstate

theorem error (h : Dispatched status data left done) (hstatus : status.isError = true)
    (hmore : data.Subperm data') : Dispatched status data' left' done := by
  cases status with
  | ok | async => nomatch hstatus
  | failed code msg =>
    obtain ⟨hcode, before, e, hdone, hfails, hfine, hsub⟩ := h
    exact ⟨hcode, before, e, hdone, hfails, hfine, hsub.trans hmore⟩
  | raised =>
    obtain ⟨before, e, hdone, hfails, hfine, hsub⟩ := h
    exact ⟨before, e, hdone, hfails, hfine, hsub.trans hmore⟩

theorem append (h : Dispatched state data left done) (hstate : state.isError = false)
    (hnew : Dispatched status more [] new)
    (hdata : data'.Perm (done.flatMap handled ++ more ++ left')) :
    Dispatched (state.next status) data' left' (done ++ new) := by
  have hfine := h.fine hstate
  have hall : (∀ e ∈ new, ¬ e.Fails) → ∀ e ∈ done ++ new, ¬ e.Fails := fun hnewfine e he =>
    (mem_append.mp he).elim (hfine e) (hnewfine e)
  have hperm : more.Perm (new.flatMap handled ++ []) →
      data'.Perm ((done ++ new).flatMap handled ++ left') := by
    intro hmore
    rw [append_nil] at hmore
    rw [flatMap_append]
    exact hdata.trans ((hmore.append_left _).append_right _)
  have hfailed : (∃ before e, new = before ++ [e] ∧ e.Fails ∧ (∀ x ∈ before, ¬ x.Fails) ∧
      (new.flatMap handled).Subperm more) →
      ∃ before e, done ++ new = before ++ [e] ∧ e.Fails ∧ (∀ x ∈ before, ¬ x.Fails) ∧
        ((done ++ new).flatMap handled).Subperm data' := by
    rintro ⟨before, e, rfl, hfails, hbefore, hsub⟩
    refine ⟨done ++ before, e, (append_assoc ..).symm, hfails,
      fun x hx => (mem_append.mp hx).elim (hfine x) (hbefore x), ?_⟩
    rw [flatMap_append]
    have hboth := (subperm_append_left (done.flatMap handled)).mpr hsub
    exact (hboth.trans (sublist_append_left _ left').subperm).trans hdata.symm.subperm
  cases status with
  | ok =>
    cases state with
    | ok =>
      refine ⟨hall hnew.1, fun e he => ?_, hperm hnew.2.2⟩
      exact (mem_append.mp he).elim (h.2.1 e) (hnew.2.1 e)
    | async =>
      obtain ⟨e, he, hasync⟩ := h.2.1
      exact ⟨hall hnew.1, ⟨e, mem_append_left _ he, hasync⟩, hperm hnew.2.2⟩
    | failed | raised => nomatch hstate
  | async =>
    obtain ⟨e, he, hasync⟩ := hnew.2.1
    exact ⟨hall hnew.1, ⟨e, mem_append_right _ he, hasync⟩, hperm hnew.2.2⟩
  | failed code msg => exact ⟨hnew.1, hfailed hnew.2⟩
  | raised => exact hfailed hnew

theorem next (h : Dispatched state data left done) (hstate : state.isError = false)
    (hnew : Dispatched status more [] new) :
    Dispatched (state.next status) (data ++ more) left (done ++ new) := by
  refine h.append hstate hnew (((h.perm hstate).append_right more).trans ?_)
  rw [append_assoc, append_assoc]
  exact perm_append_comm.append_left _

theorem finish (h : Dispatched state data left done) (hstate : state.isError = false)
    (hnew : Dispatched status left [] new) :
    Dispatched (state.next status) data [] (done ++ new) := by
  refine h.append hstate hnew ?_
  rw [append_nil]
  exact h.perm hstate

theorem isHandlerError (h : Dispatched status data left done) (state : Status) :
    AssetTree.isHandlerError state status.answer = state.next status := by
  cases status with
  | ok => rfl
  | async => rfl
  | raised => rfl
  | failed code msg => exact if_neg h.1

end Dispatched

theorem dispatched_call {answer : Answer} (hanswer : ∀ msg, answer ≠ .returns .truthy msg) (n : Nat)
    (path : List Key) (v : Value) :
    Dispatched (isHandlerError .ok answer) (tagged (some n) (below path v.leaves)) []
      [.call (.application n) path v answer] := by
  have hperm : (tagged (some n) (below path v.leaves)).Perm
      ([Effect.call (.application n) path v answer].flatMap handled ++ []) := by
    rw [flatMap_singleton, append_nil]
    exact .refl _
  have hfine : ¬ (Effect.call (.application n) path v answer).Fails →
      ∀ e ∈ [Effect.call (.application n) path v answer], ¬ e.Fails := by
    intro hnot e he
    rwa [mem_singleton.mp he]
  have hfailed : (Effect.call (.application n) path v answer).Fails →
      ∃ before e, [Effect.call (.application n) path v answer] = before ++ [e] ∧ e.Fails ∧
        (∀ x ∈ before, ¬ x.Fails) ∧
        ([Effect.call (.application n) path v answer].flatMap handled).Subperm
          (tagged (some n) (below path v.leaves)) := by
    intro hfails
    refine ⟨[], _, rfl, hfails, by rintro _ ⟨⟩, ?_⟩
    rw [append_nil] at hperm
    exact hperm.symm.subperm
  have hsync : ∀ code msg, answer = .returns code msg → code ≠ .async →
      ∀ e ∈ [Effect.call (.application n) path v answer], ¬ e.Async := by
    rintro code msg rfl hcode e he
    rw [mem_singleton.mp he]
    cases code with
    | async => exact absurd rfl hcode
    | ok | number _ | falsy | truthy => exact id
  cases answer with
  | raises => exact hfailed trivial
  | returns code msg =>
    cases code with
    | ok => exact ⟨hfine id, hsync _ _ rfl (by rintro ⟨⟩), hperm⟩
    | async => exact ⟨hfine id, ⟨_, mem_singleton_self _, trivial⟩, hperm⟩
    | falsy => exact ⟨by decide, hfailed trivial⟩
    | truthy => exact absurd rfl (hanswer msg)
    | number x =>
      by_cases hx : x = 0
      · rw [AssetTree.isHandlerError, if_pos hx]
        exact ⟨hfine fun hfails => hfails hx, hsync _ _ rfl (by rintro ⟨⟩), hperm⟩
      · rw [AssetTree.isHandlerError, if_neg hx]
        exact ⟨hx, hfailed hx⟩

/-! ## The walk -/

def bestValue (best : Option Nat) : Option Value :=
  best.map fun n => .leaf (.handler (.application n))

theorem isFunction_bestValue (best : Option Nat) : isFunction (bestValue best) = true := by
  cases best <;> rfl

theorem bestDefault_bestValue {f : Fields} (h : regularDefault f = true) (best : Option Nat) :
    bestDefault f (bestValue best) = bestValue ((defaultOf f).or best) := by
  rw [regularDefault] at h
  rw [bestDefault, defaultOf]
  split at h
  · rename_i hnone
    rw [hnone]
    rfl
  · rename_i n hsome
    rw [hsome]
    rfl
  · nomatch h

def entryExpected (best : Option Nat) (f : Fields) (path : List Key) (k : Key) (v : Value) :
    List Handled :=
  v.leaves.map fun x => (path ++ [k] ++ x.1, x.2, entryTarget best f k x.1)

theorem tagged_below (n : Option Nat) (path : List Key) (v : Value) :
    tagged n (below path v.leaves) = v.leaves.map fun x => (path ++ x.1, x.2, n) :=
  map_map

def regularEntry (best : Option Nat) (f : Fields) (k : Key) (v : Value) : Bool :=
  match f.lookup k with
  | none | some (.leaf (.handler (.application _))) => true
  | some (.leaf (.handler .niltoken)) => false
  | some (.leaf _) => best.isNone
  | some (.table sub) => regular best v sub

/-- The level `l` of the table `f`, where `rest` is still to be visited. -/
structure Walked (best : Option Nat) (f : Fields) (path : List Key) (start : List Effect)
    (seen : List Handled) (rest : Fields) (l : Level) : Prop where
  effects : ∃ done, l.effects = start ++ done ∧
    Dispatched l.state seen (tagged best (below path l.left.leaves)) done
  left : best = none → l.left = .nil
  tree : ∀ k ∈ rest.keys, l.tree.lookup k = f.lookup k

section

variable {best : Option Nat} {f : Fields} {path : List Key} {start : List Effect}
  {seen : List Handled} {rest : Fields} {k : Key} {v : Value} {l : Level}

theorem Walked.begin (best : Option Nat) (f : Fields) (path : List Key) (effects : List Effect)
    (data : Fields) : Walked best f path effects [] data ⟨f, .nil, .ok, effects⟩ :=
  ⟨⟨[], (append_nil _).symm, .start⟩, fun _ => rfl, fun _ _ => rfl⟩

theorem Walked.part (h : Walked best f path start seen (.cons k v rest) l)
    (hstate : l.state.isError = false) (hk : k ∉ rest.keys) {status : Status} {more : List Handled}
    {new : List Effect} {tree : Fields} (htree : ∀ j, k ≠ j → tree.lookup j = l.tree.lookup j)
    (hnew : Dispatched status more [] new) :
    Walked best f path start (seen ++ more) rest
      { l with tree := tree, state := l.state.next status, effects := l.effects ++ new } := by
  obtain ⟨done, heffects, hdone⟩ := h.effects
  refine ⟨⟨done ++ new, ?_, hdone.next hstate hnew⟩, h.left, fun j hj => ?_⟩
  · show l.effects ++ new = _
    rw [heffects, append_assoc]
  · have hne : k ≠ j := by
      rintro rfl
      exact hk hj
    exact (htree j hne).trans (h.tree j (mem_cons_of_mem _ hj))

theorem Walked.leave {n : Nat} (h : Walked (some n) f path start seen (.cons k v rest) l)
    (hstate : l.state.isError = false) :
    Walked (some n) f path start (seen ++ tagged (some n) (below (path ++ [k]) v.leaves)) rest
      { l with left := l.left.snoc k v } := by
  obtain ⟨done, heffects, hdone⟩ := h.effects
  refine ⟨⟨done, heffects, ?_⟩, nofun, fun j hj => h.tree j (mem_cons_of_mem _ hj)⟩
  show Dispatched l.state _ (tagged (some n) (below path (l.left.snoc k v).leaves)) done
  rw [leaves_snoc, below_append, below_below, tagged_append]
  exact hdone.leave hstate

variable {answers : Nat → Answer} (hanswers : ∀ i msg, answers i ≠ .returns .truthy msg)
include hanswers

theorem matchEntry_walked (h : Walked best f path start seen (.cons k v rest) l)
    (hstate : l.state.isError = false) (hk : k ∉ rest.keys) (hregular : regularEntry best f k v = true)
    {descend : Fields → List Effect → Status × Value × List Effect}
    (hdescend : ∀ sub, regular best v sub = true → ∀ effects, ∃ done,
      (descend sub effects).2.2 = effects ++ done ∧
        Dispatched (descend sub effects).1 (expected best (.table sub) (path ++ [k]) v.leaves) []
          done) :
    Walked best f path start (seen ++ entryExpected best f path k v) rest
      (matchEntry answers path (bestValue best) k v descend l) := by
  have hlookup : l.tree.lookup k = f.lookup k := h.tree k mem_cons_self
  have hinsert : ∀ t j, k ≠ j → (l.tree.insert Key.before k t).lookup j = l.tree.lookup j :=
    fun _ _ hne => lookup_insert_ne Key.before hne
  have hstore : best = none → (∀ x, entryTarget best f k x = best) →
      Walked best f path start (seen ++ entryExpected best f path k v) rest
        { l with
          tree := l.tree.insert Key.before k v
          effects := l.effects ++ [.store (path ++ [k]) v] } := by
    intro hbest htarget
    have hpart := h.part hstate hk (hinsert v) (.store (path ++ [k]) v)
    rw [tagged_below] at hpart
    subst hbest
    rw [entryExpected]
    simp only [htarget]
    exact hpart
  rw [regularEntry] at hregular
  rw [matchEntry, hlookup]
  cases hfield : f.lookup k with
  | none =>
    have htarget : ∀ x, entryTarget best f k x = best := fun x => by rw [entryTarget, hfield]
    cases best with
    | none => exact hstore rfl htarget
    | some n =>
      rw [entryExpected]
      simp only [htarget]
      rw [← tagged_below]
      exact h.leave hstate
  | some field =>
    rw [hfield] at hregular
    cases field with
    | table sub =>
      obtain ⟨done, heffects, hdone⟩ := hdescend sub hregular l.effects
      have hpart := h.part hstate hk (hinsert (descend sub l.effects).2.1) hdone
      rw [← heffects, ← hdone.isHandlerError l.state] at hpart
      have htarget : entryExpected best f path k v =
          expected best (.table sub) (path ++ [k]) v.leaves := by
        rw [entryExpected, expected]
        simp only [entryTarget, hfield]
      rw [htarget]
      exact hpart
    | leaf a =>
      cases a with
      | handler g =>
        cases g with
        | niltoken => cases hregular
        | application n =>
          have hpart := h.part hstate hk (fun _ _ => rfl)
            (dispatched_call (hanswers l.effects.length) n (path ++ [k]) v)
          rw [← isHandlerError_eq_next, tagged_below] at hpart
          rw [entryExpected]
          simp only [entryTarget, hfield]
          exact hpart
      | bool | number | string =>
        exact hstore (Option.isNone_iff_eq_none.mp hregular) fun x => by rw [entryTarget, hfield]

theorem callDefault_dispatched (h : Walked best f path start seen .nil l) :
    ∃ done, (callDefault answers path (bestValue best) l).effects = start ++ done ∧
      Dispatched (callDefault answers path (bestValue best) l).state seen [] done := by
  obtain ⟨done, heffects, hdone⟩ := h.effects
  unfold callDefault
  cases hstate : l.state.isError with
  | true => exact ⟨done, heffects, hdone.error hstate (List.Subperm.refl _)⟩
  | false =>
    cases hempty : l.left.isEmpty with
    | true =>
      rw [leaves_of_isEmpty hempty] at hdone
      exact ⟨done, heffects, hdone⟩
    | false =>
      cases best with
      | none =>
        rw [h.left rfl] at hempty
        nomatch hempty
      | some n =>
        refine ⟨done ++ [.call (.application n) path (.table l.left) (answers l.effects.length)], ?_, ?_⟩
        · show l.effects ++ _ = _
          rw [heffects, append_assoc]
          rfl
        · show Dispatched (isHandlerError l.state (answers l.effects.length)) _ _ _
          rw [isHandlerError_eq_next]
          exact hdone.finish hstate
            (dispatched_call (hanswers l.effects.length) n path (.table l.left))

mutual

/-- The data for a table of the tree are dispatched by the documented precedence. -/
theorem matchAssetDataTrees_dispatched (path : List Key) (best : Option Nat) :
    ∀ (v : Value) (f : Fields) (effects : List Effect), regular best v f = true →
      ∃ done, (matchAssetDataTrees answers path (bestValue best) v f effects).2.2 = effects ++ done ∧
        Dispatched (matchAssetDataTrees answers path (bestValue best) v f effects).1
          (expected best (.table f) path v.leaves) [] done
  | .leaf a, f, effects, hregular => by
    refine ⟨[.store path (.leaf a)], rfl, ?_⟩
    have htarget : dispatch best (.table f) [] = none := Option.isNone_iff_eq_none.mp hregular
    have hstore := Dispatched.store path (.leaf a)
    rw [tagged_below] at hstore
    show Dispatched .ok [(path ++ [], a, dispatch best (.table f) [])] [] _
    rw [htarget]
    exact hstore
  | .table data, f, effects, hregular => by
    rw [regular] at hregular
    simp only [Bool.and_eq_true, decide_eq_true_eq] at hregular
    obtain ⟨⟨⟨hmixed, hdefault⟩, hkeys⟩, hfields⟩ := hregular
    rw [matchAssetDataTrees, isFunction_bestValue, hmixed, Bool.and_self, if_pos rfl, bestDefault_bestValue hdefault]
    show ∃ done, _ ∧ Dispatched _ (expected best (.table f) path data.leaves) [] done
    rw [expected_table]
    exact callDefault_dispatched hanswers
      (matchLoop_walked path ((defaultOf f).or best) data hkeys hfields rfl (.begin _ f path effects data))

theorem matchLoop_walked (path : List Key) (best : Option Nat) :
    ∀ (data : Fields) {f : Fields} {start : List Effect} {seen : List Handled} {l : Level},
      data.keys.Nodup → regularFields best data f = true → l.state.isError = false →
      Walked best f path start seen data l →
      Walked best f path start (seen ++ expectedFields best f path data) .nil
        (matchLoop answers path (bestValue best) data l)
  | .nil, f, start, seen, l, _, _, _, h => by
    show Walked best f path start (seen ++ []) .nil l
    rw [append_nil]
    exact h
  | .cons k v rest, f, start, seen, l, hkeys, hregular, hstate, h => by
    rw [regularFields, Bool.and_eq_true] at hregular
    obtain ⟨hk, hrest⟩ := nodup_cons.mp hkeys
    have hentry := matchEntry_walked hanswers h hstate hk hregular.1
      fun sub hsub effects => matchAssetDataTrees_dispatched (path ++ [k]) best v sub effects hsub
    rw [matchLoop, expectedFields, ← append_assoc]
    generalize matchEntry answers path (bestValue best) k v _ l = l' at hentry
    show Walked _ _ _ _ _ _ (if l'.state.isError then l' else matchLoop answers path _ rest l')
    cases hstate' : l'.state.isError with
    | true =>
      obtain ⟨done, heffects, hdone⟩ := hentry.effects
      exact ⟨⟨done, heffects, hdone.error hstate' (sublist_append_left ..).subperm⟩, hentry.left,
        nofun⟩
    | false => exact matchLoop_walked path best rest hrest hregular.2 hstate' hentry

end

end

/-! ## The functions of the tree -/

/-- Each function of a table is still there in the value that the table became, unless a datum was
written over a table on its way. -/
def Kept (f : Fields) (v : Value) (path : List Key) (done : List Effect) : Prop :=
  ∀ q n, f.node q = some (some (.handler (.application n))) →
    (∃ tree, v = .table tree ∧ tree.node q = f.node q) ∨
      ∃ p a, p <+: q ∧ p ≠ q ∧ Effect.store (path ++ p) (.leaf a) ∈ done

section

variable {f g : Fields} {v : Value} {path : List Key} {done new start : List Effect} {k : Key}
  {l : Level}

theorem Kept.same : Kept f (.table f) path done := fun _ _ _ => Or.inl ⟨f, rfl, rfl⟩

theorem Kept.trans (h : Kept f (.table g) path done) (hnew : Kept g v path new) :
    Kept f v path (done ++ new) := by
  intro q n hq
  rcases h q n hq with ⟨tree, htree, hnode⟩ | ⟨p, a, hp, hne, hstore⟩
  · obtain rfl := LuaTree.table.inj htree
    rcases hnew q n (hnode.trans hq) with ⟨tree', htree', hnode'⟩ | ⟨p, a, hp, hne, hstore⟩
    · exact Or.inl ⟨tree', htree', hnode'.trans hnode⟩
    · exact Or.inr ⟨p, a, hp, hne, mem_append_right _ hstore⟩
  · exact Or.inr ⟨p, a, hp, hne, mem_append_left _ hstore⟩

theorem Kept.insert
    (h : ∀ ks n, f.node (k :: ks) = some (some (.handler (.application n))) →
      (∃ sub, v = .table sub ∧ sub.node ks = f.node (k :: ks)) ∨
        ∃ p a, p <+: ks ∧ p ≠ ks ∧ Effect.store (path ++ [k] ++ p) (.leaf a) ∈ done) :
    Kept f (.table (f.insert Key.before k v)) path done := by
  intro q n hq
  cases q with
  | nil =>
    rw [node_root] at hq
    nomatch hq
  | cons j ks =>
    by_cases hj : k = j
    · subst hj
      rcases h ks n hq with ⟨sub, rfl, hnode⟩ | ⟨p, a, hp, hne, hstore⟩
      · refine Or.inl ⟨_, rfl, ?_⟩
        rw [node_of_table (lookup_insert_self Key.before), hnode]
      · rw [append_assoc] at hstore
        exact Or.inr ⟨k :: p, a, cons_prefix_cons.mpr ⟨rfl, hp⟩,
          fun heq => hne (List.cons.inj heq).2, hstore⟩
    · exact Or.inl ⟨_, rfl, node_congr (lookup_insert_ne Key.before hj) ks⟩

theorem node_ne_handler (h : ∀ sub, f.lookup k ≠ some (.table sub))
    (hfield : ∀ n, f.lookup k ≠ some (.leaf (.handler (.application n)))) (ks : List Key) (n : Nat) :
    f.node (k :: ks) ≠ some (some (.handler (.application n))) := by
  cases hlookup : f.lookup k with
  | none =>
    rw [node_of_none hlookup]
    exact nofun
  | some t =>
    cases t with
    | table sub => exact absurd hlookup (h sub)
    | leaf a =>
      rw [node_of_leaf hlookup]
      intro hnode
      split at hnode
      · obtain rfl := Option.some.inj (Option.some.inj hnode)
        exact hfield n hlookup
      · nomatch hnode

variable (answers : Nat → Answer)

theorem matchEntry_kept (path : List Key) (best : Option Value) (k : Key) (v : Value)
    {descend : Fields → List Effect → Status × Value × List Effect}
    (hdescend : ∀ sub effects, ∃ new, (descend sub effects).2.2 = effects ++ new ∧
      Kept sub (descend sub effects).2.1 (path ++ [k]) new) (l : Level) :
    ∃ new, (matchEntry answers path best k v descend l).effects = l.effects ++ new ∧
      Kept l.tree (.table (matchEntry answers path best k v descend l).tree) path new := by
  have hstore : (∀ sub, l.tree.lookup k ≠ some (.table sub)) →
      (∀ n, l.tree.lookup k ≠ some (.leaf (.handler (.application n)))) →
      Kept l.tree (.table (l.tree.insert Key.before k v)) path [.store (path ++ [k]) v] :=
    fun htable hfield => .insert fun ks n hnode => absurd hnode (node_ne_handler htable hfield ks n)
  rw [matchEntry]
  cases hlookup : l.tree.lookup k with
  | none =>
    cases best.isSome with
    | true => exact ⟨[], (append_nil _).symm, Kept.same⟩
    | false => exact ⟨_, rfl, hstore (by rw [hlookup]; rintro _ ⟨⟩) (by rw [hlookup]; rintro _ ⟨⟩)⟩
  | some t =>
    cases t with
    | table sub =>
      obtain ⟨new, heffects, hkept⟩ := hdescend sub l.effects
      refine ⟨new, heffects, .insert fun ks n hnode => ?_⟩
      rw [node_of_table hlookup] at hnode ⊢
      exact hkept ks n hnode
    | leaf a =>
      cases a with
      | handler h => exact ⟨_, rfl, Kept.same⟩
      | bool | number | string =>
        exact ⟨_, rfl, hstore (by rw [hlookup]; rintro _ ⟨⟩) (by rw [hlookup]; rintro _ ⟨⟩)⟩

theorem callDefault_kept (path : List Key) (best : Option Value) (l : Level) :
    ∃ new, (callDefault answers path best l).effects = l.effects ++ new ∧
      (callDefault answers path best l).tree = l.tree := by
  unfold callDefault
  split
  · exact ⟨[], (append_nil _).symm, rfl⟩
  · split
    · exact ⟨_, rfl, rfl⟩
    · exact ⟨[], (append_nil _).symm, rfl⟩

mutual

/-- No function of the tree is lost but where a datum overwrites a table that holds it. -/
theorem matchAssetDataTrees_kept (path : List Key) (best : Option Value) :
    ∀ (v : Value) (f : Fields) (effects : List Effect),
      ∃ new, (matchAssetDataTrees answers path best v f effects).2.2 = effects ++ new ∧
        Kept f (matchAssetDataTrees answers path best v f effects).2.1 path new
  | .leaf a, f, effects => by
    refine ⟨[.store path (.leaf a)], rfl, fun q n hq => Or.inr ⟨[], a, nil_prefix, ?_, ?_⟩⟩
    · rintro rfl
      rw [node_root] at hq
      nomatch hq
    · rw [append_nil]
      exact mem_singleton_self _
  | .table data, f, effects => by
    rw [matchAssetDataTrees]
    split
    · obtain ⟨new, heffects, hkept⟩ :=
        matchLoop_kept path (bestDefault f best) data ⟨f, .nil, .ok, effects⟩
      obtain ⟨last, hlast, htree⟩ := callDefault_kept answers path (bestDefault f best)
        (matchLoop answers path (bestDefault f best) data ⟨f, .nil, .ok, effects⟩)
      refine ⟨new ++ last, ?_, ?_⟩
      · rw [← append_assoc]
        exact hlast.trans (congrArg (· ++ last) heffects)
      · show Kept f (.table (callDefault _ _ _ _).tree) path _
        rw [htree]
        exact hkept.trans Kept.same
    · exact ⟨[], (append_nil _).symm, Kept.same⟩

theorem matchLoop_kept (path : List Key) (best : Option Value) :
    ∀ (data : Fields) (l : Level),
      ∃ new, (matchLoop answers path best data l).effects = l.effects ++ new ∧
        Kept l.tree (.table (matchLoop answers path best data l).tree) path new
  | .nil, l => ⟨[], (append_nil _).symm, Kept.same⟩
  | .cons k v rest, l => by
    obtain ⟨new, heffects, hkept⟩ := matchEntry_kept answers path best k v
      (matchAssetDataTrees_kept (path ++ [k]) best v) l
    rw [matchLoop]
    generalize matchEntry answers path best k v _ l = l' at heffects hkept
    show ∃ new, (if l'.state.isError then l' else matchLoop answers path best rest l').effects = _ ∧ _
    cases l'.state.isError with
    | true => exact ⟨new, heffects, hkept⟩
    | false =>
      obtain ⟨more, hmore, hrest⟩ := matchLoop_kept path best rest l'
      refine ⟨new ++ more, ?_, hkept.trans hrest⟩
      rw [← append_assoc, ← heffects]
      exact hmore

end

end

/-! ## Messages of the server -/

def IsError : Answer → Prop
  | .raises => True
  | .returns (.number x) _ => x ≠ 0
  | .returns .falsy _ => True
  | .returns _ _ => False

def IsAsync : Answer → Prop
  | .returns .async _ => True
  | _ => False

def IsOk : Answer → Prop
  | .returns (.number x) _ => x = 0
  | .returns .ok _ => True
  | _ => False

/-- Data are handled once each, by what is to handle them, up to the first handler that fails; the
answer tells whether one did, and else whether one is asynchronous. -/
structure Precedence (answer : Answer) (effects : List Effect) (data : List Handled) : Prop where
  error_iff : IsError answer ↔ ∃ e ∈ effects, e.Fails
  async_iff : IsAsync answer ↔ (∀ e ∈ effects, ¬ e.Fails) ∧ ∃ e ∈ effects, e.Async
  ok_iff : IsOk answer ↔ (∀ e ∈ effects, ¬ e.Fails) ∧ ∀ e ∈ effects, ¬ e.Async
  all : (∀ e ∈ effects, ¬ e.Fails) → data.Perm (effects.flatMap handled)
  once : (effects.flatMap handled).Subperm data
  stops : ∀ before e after, effects = before ++ e :: after → e.Fails → after = []

section

variable {answer : Answer} {effects : List Effect} {data : List Handled}

theorem eq_nil_of_fails {before after before' : List Effect} {e e' : Effect}
    (h : before' ++ [e'] = before ++ e :: after) (hfails : e.Fails) (hfine : ∀ x ∈ before', ¬ x.Fails) :
    after = [] := by
  rcases append_eq_append_iff.mp h with ⟨mid, hbefore, hrest⟩ | ⟨mid, hbefore, hrest⟩
  · cases mid with
    | nil => exact (List.cons.inj hrest).2.symm
    | cons x xs => nomatch (append_eq_nil_iff.mp (List.cons.inj hrest).2.symm).2
  · cases mid with
    | nil => exact (List.cons.inj hrest).2
    | cons x xs =>
      obtain rfl := (List.cons.inj hrest).1
      refine absurd hfails (hfine _ ?_)
      rw [hbefore]
      exact mem_append_right _ mem_cons_self

theorem precedence_failed (herror : IsError answer)
    (h : ∃ before e, effects = before ++ [e] ∧ e.Fails ∧ (∀ x ∈ before, ¬ x.Fails) ∧
      (effects.flatMap handled).Subperm data) : Precedence answer effects data := by
  obtain ⟨before, e, heffects, hfails, hfine, hsub⟩ := h
  have hmem : e ∈ effects := by
    rw [heffects]
    exact mem_append_right _ (mem_singleton_self _)
  refine ⟨iff_of_true herror ⟨e, hmem, hfails⟩, iff_of_false ?_ fun hall => hall.1 e hmem hfails,
    iff_of_false ?_ fun hall => hall.1 e hmem hfails, fun hall => absurd hfails (hall e hmem), hsub,
    fun _ _ _ heq hfail => eq_nil_of_fails (heffects.symm.trans heq) hfail hfine⟩
  · cases answer with
    | raises => exact id
    | returns code msg => cases code <;> first | exact id | exact fun _ => herror
  · cases answer with
    | raises => exact id
    | returns code msg =>
      cases code with
      | number x => exact herror
      | falsy | async => exact id
      | ok | truthy => exact fun _ => herror

theorem precedence_fine (herror : ¬ IsError answer) (hfine : ∀ e ∈ effects, ¬ e.Fails)
    (hasync : IsAsync answer ↔ ∃ e ∈ effects, e.Async) (hok : IsOk answer ↔ ∀ e ∈ effects, ¬ e.Async)
    (hperm : data.Perm (effects.flatMap handled ++ [])) : Precedence answer effects data := by
  rw [append_nil] at hperm
  refine ⟨iff_of_false herror fun ⟨e, he, hfails⟩ => hfine e he hfails,
    hasync.trans (and_iff_right hfine).symm, hok.trans (and_iff_right hfine).symm, fun _ => hperm,
    hperm.symm.subperm, fun before e after heq hfails => absurd hfails (hfine e ?_)⟩
  rw [heq]
  exact mem_append_right _ mem_cons_self

theorem Dispatched.precedence (h : Dispatched (AssetTree.isHandlerError .ok answer) data [] effects)
    (hanswer : ∀ msg, answer ≠ .returns .truthy msg) : Precedence answer effects data := by
  have hsync : (∀ e ∈ effects, ¬ e.Async) → ¬ ∃ e ∈ effects, e.Async :=
    fun hnone ⟨e, he, hasync⟩ => hnone e he hasync
  cases answer with
  | raises => exact precedence_failed trivial h
  | returns code msg =>
    cases code with
    | ok => exact precedence_fine id h.1 (iff_of_false id (hsync h.2.1)) (iff_of_true trivial h.2.1) h.2.2
    | async =>
      obtain ⟨e, he, hasync⟩ := h.2.1
      exact precedence_fine id h.1 (iff_of_true trivial h.2.1)
        (iff_of_false id fun hnone => hnone e he hasync) h.2.2
    | falsy => exact precedence_failed trivial h.2
    | truthy => exact absurd rfl (hanswer msg)
    | number x =>
      rw [AssetTree.isHandlerError] at h
      by_cases hx : x = 0
      · rw [if_pos hx] at h
        exact precedence_fine (fun hne => hne hx) h.1 (iff_of_false id (hsync h.2.1))
          (iff_of_true hx h.2.1) h.2.2
      · rw [if_neg hx] at h
        exact precedence_failed hx h.2

theorem Dispatched.answered {status : Status} (h : Dispatched status data [] effects) :
    Precedence status.answer effects data := by
  have hnext : Status.ok.next status = status := by cases status <;> rfl
  refine Dispatched.precedence ?_ fun msg => ?_
  · rw [h.isHandlerError .ok, hnext]
    exact h
  · cases status <;> exact nofun

/-- A datum is written only where no handler applies. -/
theorem Precedence.store_unhandled {best : Option Nat} {tree : Value} {leaves : List (List Key × Atom)}
    (h : Precedence answer effects (expected best tree [] leaves)) {path : List Key} {a : Atom}
    (hstore : Effect.store path (.leaf a) ∈ effects) : dispatch best tree path = none := by
  have hmem : (path ++ [], a, none) ∈ effects.flatMap handled :=
    mem_flatMap.mpr ⟨_, hstore, mem_singleton_self _⟩
  obtain ⟨x, -, hx⟩ := mem_map.mp (h.once.subset hmem)
  have hpath : x.1 = path := (congrArg Prod.fst hx).trans (append_nil path)
  rw [← hpath]
  exact congrArg (fun y : Handled => y.2.2) hx

end

def ready (img : Fields) : Value → Bool
  | .leaf (.handler (.application _)) => true
  | .leaf _ => false
  | .table f => regular none (.table img) f

/-- The functions of the tree of an asset are still there, but where a datum to which no handler
applies is written over a table that holds them. -/
def Lasts (effects : List Effect) (tree : Value) : Value → Prop
  | .leaf a => tree = .leaf a
  | .table f =>
    ∀ q n, f.node q = some (some (.handler (.application n))) →
      (∃ f', tree = .table f' ∧ f'.node q = f.node q) ∨
        ∃ p a, p <+: q ∧ p ≠ q ∧ Effect.store p (.leaf a) ∈ effects ∧ dispatch none (.table f) p = none

theorem handle_precedence {answers : Nat → Answer} (hanswers : ∀ i msg, answers i ≠ .returns .truthy msg)
    {tree : Value} {img : Fields} (hready : ready img tree = true) :
    Precedence (handle answers tree img).1 (handle answers tree img).2.2
        (expected none tree [] img.leaves) ∧
      Lasts (handle answers tree img).2.2 (handle answers tree img).2.1 tree := by
  cases tree with
  | leaf a =>
    cases a with
    | bool | number | string => nomatch hready
    | handler h =>
      cases h with
      | niltoken => nomatch hready
      | application n =>
        refine ⟨Dispatched.precedence ?_ (hanswers 0), rfl⟩
        have hcall := dispatched_call (hanswers 0) n [] (.table img)
        rw [tagged_below] at hcall
        have htarget : ∀ path, dispatch none (.leaf (.handler (.application n))) path = some n :=
          fun path => by cases path <;> rfl
        rw [expected]
        simp only [htarget]
        exact hcall
  | table f =>
    obtain ⟨done, heffects, hdone⟩ :=
      matchAssetDataTrees_dispatched hanswers [] none (.table img) f [] hready
    obtain ⟨done', heffects', hkept⟩ := matchAssetDataTrees_kept answers [] none (.table img) f []
    have hprecedence : Precedence (handle answers (.table f) img).1 (handle answers (.table f) img).2.2
        (expected none (.table f) [] img.leaves) := by
      rw [nil_append] at heffects
      rw [← heffects] at hdone
      exact hdone.answered
    refine ⟨hprecedence, fun q n hq => ?_⟩
    rcases hkept q n hq with hthere | ⟨p, a, hp, hne, hstore⟩
    · exact Or.inl hthere
    · have hmem : Effect.store p (.leaf a) ∈ (handle answers (.table f) img).2.2 := by
        show _ ∈ (matchAssetDataTrees answers [] none (.table img) f []).2.2
        rw [heffects']
        exact hstore
      exact Or.inr ⟨p, a, hp, hne, hmem, hprecedence.store_unhandled hmem⟩

theorem Precedence.perm {answer : Answer} {effects : List Effect} {data data' : List Handled}
    (h : Precedence answer effects data) (hdata : data.Perm data') :
    Precedence answer effects data' :=
  ⟨h.error_iff, h.async_iff, h.ok_iff, fun hfine => hdata.symm.trans (h.all hfine),
    h.once.trans hdata.subperm, h.stops⟩

section

variable {tonumber : Str → Option Number} {tostring : Number → Str} {answers : Nat → Answer}
  {assets : LuaTable Str (Option Value)} {dataPath : Str} {ticketid : Field} {record : Fields}

/-- The data of a message are dispatched by the documented precedence. -/
theorem data_dispatched {tree : Value} (hanswers : ∀ i msg, answers i ≠ .returns .truthy msg)
    (hopen : assets.lookup (split tonumber tostring dataPath).1 = some (some tree))
    (hrecord : isResponse record = false)
    (hspread : Spread tonumber tostring (split tonumber tostring dataPath).2 record)
    (hready : ∀ img, treeimg tonumber tostring (split tonumber tostring dataPath).2 record = some img →
      ready img tree = true) {s : SendData.Sent}
    (hs : empHandlerSendData tonumber tostring answers assets dataPath ticketid record = s) :
    ∃ answer tree', s.answer = some answer ∧
      s.assets.lookup (split tonumber tostring dataPath).1 = some (some tree') ∧
      Precedence answer s.effects (expected none tree []
        (recordLeaves tonumber tostring (split tonumber tostring dataPath).2 record)) ∧
      Lasts s.effects tree' tree := by
  obtain ⟨img, himg, hleaves⟩ := treeimg_leaves hspread
  have htree : tree ≠ .leaf (.bool false) := by
    rintro rfl
    nomatch hready img himg
  rw [empHandlerSendData_open hopen htree hrecord himg] at hs
  subst hs
  obtain ⟨hprecedence, hlasts⟩ := handle_precedence hanswers (hready img himg)
  exact ⟨(handle answers tree img).1, (handle answers tree img).2.1, rfl, AList.lookup_insert _,
    hprecedence.perm (hleaves.map _), hlasts⟩

end

section

def plant : Fields :=
  .cons (.string ['d']) (.table
    (.cons defaultKey (.leaf (.handler (.application 0)))
      (.cons (.string ['h']) (.leaf (.handler (.application 1))) .nil)))
    (.cons (.string ['v']) (.leaf (.number 5)) .nil)

def report : Fields :=
  .cons (.string ['d', '.', 'q']) (.leaf (.number 1))
    (.cons (.string ['d', '.', 'h', '.', 'z']) (.leaf (.number 2))
      (.cons (.string ['v']) (.leaf (.number 3)) .nil))

/-- What comes of data for the asset `p`, whose handlers all give the same answer. -/
def sent (answer : Answer) (tree record : Fields) : SendData.Sent :=
  empHandlerSendData (fun _ => none) (fun _ => []) (fun _ => answer)
    (AList.singleton ['p'] (some (.table tree))) ['p'] .null record

/-- The handler gets one of the data, the default handler another one, and the third is written. -/
theorem data_dispatched_plant : ∃ answer tree',
    (sent (.returns .async .nil) plant report).answer = some answer ∧
      (sent (.returns .async .nil) plant report).assets.lookup ['p'] = some (some tree') ∧
      Precedence answer (sent (.returns .async .nil) plant report).effects
        [([.string ['d'], .string ['q']], .number 1, some 0),
          ([.string ['d'], .string ['h'], .string ['z']], .number 2, some 1),
          ([.string ['v']], .number 3, none)] ∧
      Lasts (sent (.returns .async .nil) plant report).effects tree' (.table plant) := by
  have hanswers : ∀ (i : Nat) msg, (fun _ : Nat => Answer.returns .async .nil) i ≠ .returns .truthy msg :=
    fun _ _ => nofun
  have hready : ∀ img, treeimg (fun _ => none) (fun _ => []) [] report = some img →
      ready img (.table plant) = true := by
    intro img himg
    obtain rfl := Option.some.inj himg
    decide
  have hs : sent (.returns .async .nil) plant report = empHandlerSendData (fun _ => none) (fun _ => [])
      (fun _ => .returns .async .nil) (AList.singleton ['p'] (some (.table plant))) ['p'] .null report := rfl
  exact data_dispatched hanswers rfl rfl (by decide) hready hs

def pair : Fields :=
  .cons (.string ['a']) (.leaf (.handler (.application 0)))
    (.cons (.string ['b']) (.leaf (.handler (.application 1))) .nil)

def readings : Fields :=
  .cons (.string ['a']) (.leaf (.number 1)) (.cons (.string ['b']) (.leaf (.number 2)) .nil)

/-- The first handler fails: the datum for the other one is not handled. -/
theorem data_not_dispatched :
    ¬ (expected none (.table pair) [] (recordLeaves (fun _ => none) (fun _ => []) [] readings)).Perm
      ((sent (.returns .falsy .nil) pair readings).effects.flatMap handled) := by
  decide

end

end Mihini.Racon.Dispatch
