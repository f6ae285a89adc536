import Mihini.Lib.LuaTree
import Mihini.Treemgr.Path

/-!
# The tree of an asset

`src/luafwk/racon/asset/tree.lua`: the data of a server message, and the tree of handlers and values
that it is matched with.  The handlers belong to the application: a number stands for each, and what
they answer is given.
-/

namespace Mihini.Racon.AssetTree

open Mihini.Lib List
open Mihini.Path (Str)

abbrev Number := Rat

inductive Key where
  | number (x : Number)
  | string (s : Str)
  deriving DecidableEq

/-- The order in which `sortedpairs` visits the keys of a table.  Keys of both kinds in one table
make it raise an error. -/
def Key.before : Key → Key → Bool
  | .number x, .number y => x < y
  | .string s, .string t => s < t
  | .number _, .string _ => true
  | .string _, .number _ => false

/-- A function.  The token that stands for `null` is one: it gives its argument back. -/
inductive Handler where
  | niltoken
  | application (n : Nat)
  deriving DecidableEq

inductive Atom where
  | bool (b : Bool)
  | number (x : Number)
  | string (s : Str)
  | handler (h : Handler)
  deriving DecidableEq

abbrev Value := LuaTree Key Atom

abbrev Fields := LuaFields Key Atom

/-! ## Handlers -/

/-- The first value that a handler returns.  A string that is a numeral counts as its number;
`truthy` is any other value that a test takes for true. -/
inductive Result where
  | ok
  | async
  | number (x : Number)
  | falsy
  | truthy
  deriving DecidableEq

inductive Msg where
  | nil
  | string
  | other
  deriving DecidableEq

inductive Answer where
  | returns (code : Result) (msg : Msg)
  | raises
  deriving DecidableEq

inductive Effect where
  | call (handler : Handler) (path : List Key) (data : Value) (answer : Answer)
  | store (path : List Key) (data : Value)

def Effect.leaves : Effect → List (List Key × Atom)
  | .call _ path data _ => below path data.leaves
  | .store path data => below path data.leaves

section

-- What a handler of the application answers, after so many effects for the message.
variable (answers : Nat → Answer)

def Handler.answer (h : Handler) (effects : List Effect) : Answer :=
  match h with
  | .niltoken => .returns .truthy .nil
  | .application _ => answers effects.length

inductive Status where
  | ok
  | async
  | failed (code : Number) (msg : Msg)
  | raised
  deriving DecidableEq

def Status.answer : Status → Answer
  | .ok => .returns .ok .nil
  | .async => .returns .async .nil
  | .failed code msg => .returns (.number code) msg
  | .raised => .raises

def Status.isError : Status → Bool
  | .ok | .async => false
  | .failed _ _ | .raised => true

/-- `is_handler_error`: the state after an answer. -/
def isHandlerError (state : Status) : Answer → Status
  | .raises => .raised
  | .returns .async _ => .async
  | .returns .ok _ => state
  | .returns (.number x) msg => if x = 0 then state else .failed x msg
  | .returns .falsy msg => .failed (-1) msg
  | .returns .truthy _ => .failed (-999) .string

/-! ## `match_asset_data_trees` -/

def defaultKey : Key := .string ['_', '_', 'd', 'e', 'f', 'a', 'u', 'l', 't']

/-- `asset_tree.__default or best_default_handler` -/
def bestDefault (tree : Fields) (best : Option Value) : Option Value :=
  match tree.lookup defaultKey with
  | none => best
  | some (.leaf (.bool false)) => best
  | some v => some v

/-- A value that the check of the argument `best_default_handler` lets through. -/
def isFunction : Option Value → Bool
  | none => true
  | some (.leaf (.handler _)) => true
  | some _ => false

/-- `table.sort` compares a number with a string. -/
def isMixed (data : Fields) : Bool :=
  data.keys.any (fun | .number _ => true | .string _ => false) &&
    data.keys.any (fun | .number _ => false | .string _ => true)

structure Level where
  tree : Fields
  /-- What is in `data_tree` again, for a default handler. -/
  left : Fields
  state : Status
  effects : List Effect

def callDefault (path : List Key) (best : Option Value) (l : Level) : Level :=
  if l.state.isError || l.left.isEmpty then l
  else
    match best with
    | some (.leaf (.handler h)) =>
      let answer := h.answer answers l.effects
      { l with
        state := isHandlerError l.state answer
        effects := l.effects ++ [.call h path (.table l.left) answer] }
    | _ => { l with state := .raised }

/-- One turn of the loop.  `descend` is what becomes of the value when the field of the asset's tree
is a table. -/
def matchEntry (path : List Key) (best : Option Value) (k : Key) (v : Value)
    (descend : Fields → List Effect → Status × Value × List Effect) (l : Level) : Level :=
  let subpath := path ++ [k]
  match l.tree.lookup k with
  | some (.leaf (.handler h)) =>
    let answer := h.answer answers l.effects
    { l with
      state := isHandlerError l.state answer
      effects := l.effects ++ [.call h subpath v answer] }
  | some (.table subtree) =>
    let (status, subtree, effects) := descend subtree l.effects
    { l with
      tree := l.tree.insert Key.before k subtree
      state := isHandlerError l.state status.answer
      effects := effects }
  | assetSubtree =>
    if assetSubtree.isNone && best.isSome then { l with left := l.left.snoc k v }
    else
      { l with
        tree := l.tree.insert Key.before k v
        effects := l.effects ++ [.store subpath v] }

mutual

/-- The data for a table of the asset's tree: what is returned, the value there afterwards and the
effects.  Data that are a table are matched with it, by `match_asset_data_trees`; other data
overwrite it. -/
def matchAssetDataTrees (path : List Key) (best : Option Value) :
    Value → Fields → List Effect → Status × Value × List Effect
  | .leaf a, _, effects => (.ok, .leaf a, effects ++ [.store path (.leaf a)])
  | .table data, tree, effects =>
    if isFunction best && !isMixed data then
      let best := bestDefault tree best
      let l := matchLoop path best data ⟨tree, .nil, .ok, effects⟩
      let l := callDefault answers path best l
      (l.state, .table l.tree, l.effects)
    else (.raised, .table tree, effects)

def matchLoop (path : List Key) (best : Option Value) : Fields → Level → Level
  | .nil, l => l
  | .cons k v rest, l =>
    let l := matchEntry answers path best k v (matchAssetDataTrees (path ++ [k]) best v) l
    if l.state.isError then l else matchLoop path best rest l

end

end

/-! ## What a level accounts for -/

/-- An error was met.  The token for `null` is no handler of the application, so that what it is
called with is lost. -/
def Effect.Fails : Effect → Prop
  | .call .niltoken _ _ _ => True
  | .call (.application _) _ _ (.returns (.number x) _) => x ≠ 0
  | .call (.application _) _ _ (.returns .falsy _) => True
  | .call (.application _) _ _ (.returns _ _) => False
  | .call (.application _) _ _ .raises => True
  | .store _ _ => False

def Effect.Async : Effect → Prop
  | .call _ _ _ (.returns .async _) => True
  | _ => False

def Answer.Plain : Answer → Prop
  | .returns code msg => code ≠ .truthy ∧ msg ≠ .other
  | .raises => True

instance : DecidablePred Answer.Plain
  | .returns _ _ => inferInstanceAs (Decidable (_ ∧ _))
  | .raises => isTrue trivial

/-- What a status says of what was done with some data: with `ok`, there was no error, and but for
what is left each leaf was handed over or stored once. -/
def Accounts (status : Status) (data left : List (List Key × Atom)) (done : List Effect) : Prop :=
  match status with
  | .ok => (∀ e ∈ done, ¬ e.Fails) ∧ data.Perm (done.flatMap Effect.leaves ++ left)
  | .async => ∃ e ∈ done, e.Async
  | .failed code msg => code ≠ 0 ∧ msg ≠ .other ∧ ∃ e ∈ done, e.Fails
  | .raised => True

def Status.next (state : Status) : Status → Status
  | .ok => state
  | status => status

theorem isHandlerError_eq_next (state : Status) (answer : Answer) :
    isHandlerError state answer = state.next (isHandlerError .ok answer) := by
  cases answer with
  | raises => rfl
  | returns code msg =>
    cases code with
    | number x =>
      by_cases hx : x = 0
      · rw [isHandlerError, isHandlerError, if_pos hx, if_pos hx]
        rfl
      · rw [isHandlerError, isHandlerError, if_neg hx, if_neg hx]
        rfl
    | ok => rfl
    | async => rfl
    | falsy => rfl
    | truthy => rfl

theorem isHandlerError_status {status : Status} {data left : List (List Key × Atom)}
    {done : List Effect} (h : Accounts status data left done) (state : Status) :
    isHandlerError state status.answer = state.next status := by
  cases status with
  | ok => rfl
  | async => rfl
  | raised => rfl
  | failed code msg => exact if_neg h.1

section

variable {state status : Status} {data left : List (List Key × Atom)} {done : List Effect}

theorem Accounts.start : Accounts .ok [] [] [] :=
  ⟨fun _ he => absurd he not_mem_nil, List.Perm.refl _⟩

theorem Accounts.store (path : List Key) (v : Value) :
    Accounts .ok (below path v.leaves) [] [.store path v] := by
  constructor
  · intro e he hfails
    rw [mem_singleton.mp he] at hfails
    exact hfails
  · rw [flatMap_singleton, append_nil]
    exact List.Perm.refl _

theorem Accounts.leave (h : Accounts state data left done) (hstate : state.isError = false)
    (more : List (List Key × Atom)) : Accounts state (data ++ more) (left ++ more) done := by
  cases state with
  | ok =>
    refine ⟨h.1, ?_⟩
    rw [← append_assoc]
    exact h.2.append_right more
  | async => exact h
  | failed => nomatch hstate
  | raised => nomatch hstate

theorem Accounts.error (h : Accounts status data left done) (hstatus : status.isError = true)
    (data' left' : List (List Key × Atom)) : Accounts status data' left' done := by
  cases status with
  | ok => nomatch hstatus
  | async => nomatch hstatus
  | failed => exact h
  | raised => trivial

variable {more data' left' : List (List Key × Atom)} {new : List Effect}

theorem Accounts.append (h : Accounts state data left done) (hstate : state.isError = false)
    (hnew : Accounts status more [] new)
    (hdata : data.Perm (done.flatMap Effect.leaves ++ left) →
      more.Perm (new.flatMap Effect.leaves) →
      data'.Perm (done.flatMap Effect.leaves ++ new.flatMap Effect.leaves ++ left')) :
    Accounts (state.next status) data' left' (done ++ new) := by
  cases status with
  | ok =>
    cases state with
    | ok =>
      constructor
      · intro e he
        rcases mem_append.mp he with hmem | hmem
        · exact h.1 e hmem
        · exact hnew.1 e hmem
      · have hmore := hnew.2
        rw [append_nil] at hmore
        rw [flatMap_append]
        exact hdata h.2 hmore
    | async =>
      obtain ⟨e, he, hasync⟩ := h
      exact ⟨e, mem_append_left _ he, hasync⟩
    | failed => nomatch hstate
    | raised => nomatch hstate
  | async =>
    obtain ⟨e, he, hasync⟩ := hnew
    exact ⟨e, mem_append_right _ he, hasync⟩
  | failed =>
    obtain ⟨hcode, hmsg, e, he, hfails⟩ := hnew
    exact ⟨hcode, hmsg, e, mem_append_right _ he, hfails⟩
  | raised => trivial

theorem Accounts.next (h : Accounts state data left done) (hstate : state.isError = false)
    (hnew : Accounts status more [] new) :
    Accounts (state.next status) (data ++ more) left (done ++ new) := by
  refine h.append hstate hnew fun hdata hmore => ?_
  refine (hdata.append hmore).trans ?_
  rw [append_assoc, append_assoc]
  exact perm_append_comm.append_left _

theorem Accounts.finish (h : Accounts state data left done) (hstate : state.isError = false)
    (hnew : Accounts status left [] new) :
    Accounts (state.next status) data [] (done ++ new) := by
  refine h.append hstate hnew fun hdata hleft => ?_
  rw [append_nil]
  exact hdata.trans (hleft.append_left _)

end

section

variable {answers : Nat → Answer} (hplain : ∀ i, (answers i).Plain)
include hplain

theorem accounts_call (h : Handler) (path : List Key) (v : Value) (effects : List Effect) :
    Accounts (isHandlerError .ok (h.answer answers effects)) (below path v.leaves) []
      [.call h path v (h.answer answers effects)] := by
  cases h with
  | niltoken => exact ⟨by decide, by decide, _, mem_singleton_self _, trivial⟩
  | application n =>
    show Accounts (isHandlerError .ok (answers effects.length)) _ []
      [.call _ path v (answers effects.length)]
    have hdone : ∀ answer, ¬ (Effect.call (.application n) path v answer).Fails →
        Accounts .ok (below path v.leaves) [] [.call (.application n) path v answer] := by
      intro answer hfine
      constructor
      · intro e he
        rw [mem_singleton.mp he]
        exact hfine
      · rw [flatMap_singleton, append_nil]
        exact List.Perm.refl _
    have hanswer := hplain effects.length
    generalize answers effects.length = answer at hanswer
    cases answer with
    | raises => trivial
    | returns code msg =>
      cases code with
      | ok => exact hdone _ fun hfails => hfails
      | async => exact ⟨_, mem_singleton_self _, trivial⟩
      | falsy => exact ⟨by decide, hanswer.2, _, mem_singleton_self _, trivial⟩
      | truthy => exact absurd rfl hanswer.1
      | number x =>
        by_cases hx : x = 0
        · rw [isHandlerError, if_pos hx]
          exact hdone _ fun hfails => hfails hx
        · rw [isHandlerError, if_neg hx]
          exact ⟨hx, hanswer.2, _, mem_singleton_self _, hx⟩

end

/-- What was done since `start` accounts for the data seen so far. -/
def Level.Accounted (path : List Key) (start : List Effect) (seen : List (List Key × Atom))
    (l : Level) : Prop :=
  ∃ done, l.effects = start ++ done ∧ Accounts l.state seen (below path l.left.leaves) done

section

variable {answers : Nat → Answer} {path : List Key} {best : Option Value} {start : List Effect}
  {seen : List (List Key × Atom)} {l : Level}

theorem Level.Accounted.store (h : l.Accounted path start seen) (hstate : l.state.isError = false)
    (k : Key) (v : Value) :
    Level.Accounted path start (seen ++ below (path ++ [k]) v.leaves)
      { l with
        tree := l.tree.insert Key.before k v
        effects := l.effects ++ [.store (path ++ [k]) v] } := by
  obtain ⟨done, heffects, haccounts⟩ := h
  refine ⟨done ++ [Effect.store (path ++ [k]) v], ?_,
    haccounts.next hstate (.store (path ++ [k]) v)⟩
  show l.effects ++ _ = _
  rw [heffects, append_assoc]

theorem Level.Accounted.leave (h : l.Accounted path start seen) (hstate : l.state.isError = false)
    (k : Key) (v : Value) :
    Level.Accounted path start (seen ++ below (path ++ [k]) v.leaves)
      { l with left := l.left.snoc k v } := by
  obtain ⟨done, heffects, haccounts⟩ := h
  refine ⟨done, heffects, ?_⟩
  show Accounts l.state _ (below path (l.left.snoc k v).leaves) done
  rw [LuaFields.leaves_snoc, below_append, below_below]
  exact haccounts.leave hstate _

/-- The effects of a level below, or of a call. -/
theorem Level.Accounted.part (h : l.Accounted path start seen) (hstate : l.state.isError = false)
    {status : Status} {more : List (List Key × Atom)} {new : List Effect} (tree : Fields)
    (hnew : Accounts status more [] new) :
    Level.Accounted path start (seen ++ more)
      { l with tree := tree, state := l.state.next status, effects := l.effects ++ new } := by
  obtain ⟨done, heffects, haccounts⟩ := h
  refine ⟨done ++ new, ?_, haccounts.next hstate hnew⟩
  show l.effects ++ new = _
  rw [heffects, append_assoc]

variable (hplain : ∀ i, (answers i).Plain)
include hplain

theorem matchEntry_accounted (best : Option Value) (h : l.Accounted path start seen)
    (hstate : l.state.isError = false) (k : Key) (v : Value)
    {descend : Fields → List Effect → Status × Value × List Effect}
    (hdescend : ∀ tree effects, ∃ done, (descend tree effects).2.2 = effects ++ done ∧
      Accounts (descend tree effects).1 (below (path ++ [k]) v.leaves) [] done) :
    (matchEntry answers path best k v descend l).Accounted path start
      (seen ++ below (path ++ [k]) v.leaves) := by
  rw [matchEntry]
  cases hk : l.tree.lookup k with
  | none =>
    cases hbest : best.isSome with
    | true => exact h.leave hstate k v
    | false => exact h.store hstate k v
  | some field =>
    cases field with
    | table subtree =>
      obtain ⟨done, heffects, haccounts⟩ := hdescend subtree l.effects
      have hpart := h.part hstate (l.tree.insert Key.before k (descend subtree l.effects).2.1)
        haccounts
      rw [← heffects, ← isHandlerError_status haccounts] at hpart
      exact hpart
    | leaf a =>
      cases a with
      | handler f =>
        have hpart := h.part hstate l.tree (accounts_call hplain f (path ++ [k]) v l.effects)
        rw [← isHandlerError_eq_next] at hpart
        exact hpart
      | bool => exact h.store hstate k v
      | number => exact h.store hstate k v
      | string => exact h.store hstate k v

theorem callDefault_accounted (h : l.Accounted path start seen) :
    ∃ done, (callDefault answers path best l).effects = start ++ done ∧
      Accounts (callDefault answers path best l).state seen [] done := by
  obtain ⟨done, heffects, haccounts⟩ := h
  unfold callDefault
  cases hstate : l.state.isError with
  | true => exact ⟨done, heffects, haccounts.error hstate seen []⟩
  | false =>
    cases hempty : l.left.isEmpty with
    | true =>
      rw [LuaFields.leaves_of_isEmpty hempty] at haccounts
      exact ⟨done, heffects, haccounts⟩
    | false =>
      show ∃ done', (ite (false = true) _ _ : Level).effects = start ++ done' ∧ _
      rw [if_neg Bool.false_ne_true]
      split
      · rename_i f
        refine ⟨done ++ [Effect.call f path (.table l.left) (f.answer answers l.effects)], ?_, ?_⟩
        · show l.effects ++ _ = _
          rw [heffects, append_assoc]
        · show Accounts (isHandlerError l.state (f.answer answers l.effects)) _ _ _
          rw [isHandlerError_eq_next]
          exact haccounts.finish hstate (accounts_call hplain f path (.table l.left) l.effects)
      · exact ⟨done, heffects, trivial⟩

mutual

/-- What is done with the data for a table of the tree accounts for them. -/
theorem matchAssetDataTrees_accounts (path : List Key) (best : Option Value) :
    ∀ (v : Value) (tree : Fields) (effects : List Effect),
      ∃ done, (matchAssetDataTrees answers path best v tree effects).2.2 = effects ++ done ∧
        Accounts (matchAssetDataTrees answers path best v tree effects).1 (below path v.leaves) []
          done
  | .leaf a, _, _ => ⟨_, rfl, .store path (.leaf a)⟩
  | .table data, tree, effects => by
    rw [matchAssetDataTrees]
    split
    · exact callDefault_accounted hplain
        (matchLoop_accounted path (bestDefault tree best) data rfl
          (⟨[], (append_nil effects).symm, .start⟩ :
            Level.Accounted path effects [] ⟨tree, .nil, .ok, effects⟩))
    · exact ⟨[], (append_nil effects).symm, trivial⟩

theorem matchLoop_accounted (path : List Key) (best : Option Value) :
    ∀ (data : Fields) {start : List Effect} {seen : List (List Key × Atom)} {l : Level},
      l.state.isError = false → l.Accounted path start seen →
      (matchLoop answers path best data l).Accounted path start (seen ++ below path data.leaves)
  | .nil, start, seen, l, _, h => by
    show l.Accounted path start (seen ++ [])
    rw [append_nil]
    exact h
  | .cons k v rest, start, seen, l, hstate, h => by
    have hentry := matchEntry_accounted hplain best h hstate k v
      (matchAssetDataTrees_accounts (path ++ [k]) best v)
    have hleaves : seen ++ below path (LuaFields.cons k v rest).leaves =
        (seen ++ below (path ++ [k]) v.leaves) ++ below path rest.leaves := by
      show seen ++ below path (below [k] v.leaves ++ rest.leaves) = _
      rw [below_append, below_below, append_assoc]
    rw [matchLoop, hleaves]
    generalize matchEntry answers path best k v _ l = l' at hentry
    show (if l'.state.isError then l' else matchLoop answers path best rest l').Accounted _ _ _
    cases hstate' : l'.state.isError with
    | true =>
      obtain ⟨done, heffects, haccounts⟩ := hentry
      exact ⟨done, heffects, haccounts.error hstate' _ _⟩
    | false => exact matchLoop_accounted path best rest hstate' hentry

end

end

end Mihini.Racon.AssetTree
