import Mihini.Config.Store
import Mihini.Treemgr.Children

/-!
# Reading and writing the tree

`M.get` of a path and `M.set` of `src/agent/agent/treemgr/init.lua`, where all handlers are stores
like `handlers/ramstore.lua`. A call of `set` takes a path, a map, or a path with a map or a single
value; maps may be nested. Hooks are left out.
-/

namespace Mihini.Treemgr.Access

open Mihini.Lib Mihini.Path

variable {α : Type}

abbrev Stores (α : Type) := Str → RamStore α

inductive Call (α : Type) where
  | path (lpath : Str)
  | map (lmap : LuaFields Str (Value α))
  | prefixed (prefixLpath : Str) (lmap : LuaTree Str (Value α))

abbrev Maps (α : Type) := LuaTable Str (LuaTable Str (Value α))

/-- What `set` returns, the handlers that were called, and the stores afterwards. -/
structure Result (α : Type) where
  answer : Except String Unit
  calls : Maps α
  stores : Stores α

section

variable (canon : Str → Str) (db : List Mount)

/-! ## `M.get` -/

def get (W : Stores α) (lpath : Str) : Reply α :=
  match translation canon db lpath with
  | some (name, hpath) =>
    match (W name).get hpath with
    | .value v => .value v
    | .nothing => .nothing
    | .error msg => .error msg
    | .children names =>
      .children ((names.map fun relpath => concat [lpath, relpath]) ++ l2c canon db lpath).dedup
  | none =>
    match l2c canon db lpath with
    | [] => .error "handler not found"
    | child :: rest => .children (child :: rest).dedup

/-! ## `M.set` -/

section

variable (niltoken : Value α)

def Call.args : Call α → Str × LuaFields Str (Value α)
  | .path lpath => (lpath, .cons [] (.leaf niltoken) .nil)
  | .map lmap => ([], lmap)
  | .prefixed prefixLpath (.table lmap) => (prefixLpath, lmap)
  | .prefixed prefixLpath (.leaf v) => (prefixLpath, .cons [] (.leaf v) .nil)

def Call.pairs (c : Call α) : List (Str × Value α) :=
  (Config.recursivePairs [] (c.args niltoken).2).map fun x =>
    (concat [(c.args niltoken).1, x.1], x.2)

end

/-- The first loop of `set`. -/
def handlerMaps : List (Str × Value α) → Maps α → Except String (Maps α)
  | [], maps => .ok maps
  | (lpath, v) :: rest, maps =>
    match translation canon db lpath with
    | none => .error (String.ofList lpath ++ ": no mapping found")
    | some (name, hpath) =>
      handlerMaps rest (maps.insert name (((maps.lookup name).getD ∅).insert hpath v))

/-- The second loop. A store never fails. -/
def callHandlers [DecidableEq α] (W : Stores α) (maps : Maps α) : Stores α :=
  maps.entries.foldl (fun W e => Function.update W e.1 ((W e.1).set canon e.2).1) W

def set [DecidableEq α] (niltoken : Value α) (W : Stores α) (c : Call α) : Result α :=
  match handlerMaps canon db (c.pairs niltoken) ∅ with
  | .error msg => ⟨.error msg, ∅, W⟩
  | .ok maps => ⟨.ok (), maps, callHandlers canon W maps⟩

def init : Stores α := fun _ => .new

def step [DecidableEq α] (niltoken : Value α) (W : Stores α) (c : Call α) : Stores α :=
  (set canon db niltoken W c).stores

/-! ## Statements -/

def Call.leaves (niltoken : Value α) (c : Call α) : List (List Str × Value α) :=
  (c.args niltoken).2.leaves.map fun x =>
    (segments canon (c.args niltoken).1 ++ x.1.flatMap (segments canon), x.2)

example (v : Value Nat) :
    (Call.map (.cons "a.b".toList (.leaf v) .nil)).leaves id .no =
        (Call.prefixed "a".toList (.table (.cons "b".toList (.leaf v) .nil))).leaves id .no ∧
      (Call.map (.cons "a".toList (.table (.cons "b".toList (.leaf v) .nil)) .nil)).leaves id .no =
        (Call.prefixed "a.b".toList (.leaf v)).leaves id .no :=
  ⟨rfl, rfl⟩

def Same (maps maps' : Maps α) : Prop := ∀ name,
  (maps.lookup name).isSome = (maps'.lookup name).isSome ∧
    ∀ hpath, (maps.lookup name).bind (AList.lookup hpath) =
      (maps'.lookup name).bind (AList.lookup hpath)

/-- A call gives the same result as another one with the same leaves; it fails before any handler is
called when it has a path without a mapping, and otherwise each of its paths has its value
afterwards, and the variables of other paths keep theirs. -/
structure SetAgrees [DecidableEq α] (niltoken : Value α) (W : Stores α) (c : Call α) : Prop where
  forms : ∀ c' : Call α,
    (∀ x, x ∈ c.leaves canon niltoken ↔ x ∈ c'.leaves canon niltoken) →
    ((set canon db niltoken W c).answer = .ok () ↔ (set canon db niltoken W c').answer = .ok ()) ∧
      Same (set canon db niltoken W c).calls (set canon db niltoken W c').calls
  unmapped : ∀ x ∈ c.pairs niltoken, translation canon db x.1 = none →
    ∃ msg, set canon db niltoken W c = ⟨.error msg, ∅, W⟩
  mapped : (∀ x ∈ c.pairs niltoken, translation canon db x.1 ≠ none) →
    (set canon db niltoken W c).answer = .ok ()
  values : (set canon db niltoken W c).answer = .ok () → ∀ x ∈ c.pairs niltoken,
    get canon db (set canon db niltoken W c).stores x.1 = .value x.2
  others : ∀ lpath, (∀ x ∈ c.pairs niltoken, translation canon db x.1 ≠ translation canon db lpath) →
    ∀ v, get canon db (set canon db niltoken W c).stores lpath = .value v ↔
      get canon db W lpath = .value v

/-- The name `c` leads from the node to a variable or to a mount point. -/
def Child (W : Stores α) (n : List Str) (c : Str) : Prop :=
  ∃ rest, Node canon (n ++ c :: rest) ∧
    ((∃ v, get canon db W (concat (n ++ c :: rest)) = .value v) ∨
      ∃ m ∈ db, m.node canon = n ++ c :: rest)

def Lists (W : Stores α) (n : List Str) : Prop :=
  ∃ paths, get canon db W (concat n) = .children paths ∧ paths.Nodup ∧
    ∀ p, p ∈ paths ↔ ∃ c, Child canon db W n c ∧ p = concat (n ++ [c])

def Below (hpath hpath' : Str) : Prop :=
  ∃ c rest, segments canon hpath' = segments canon hpath ++ c :: rest

/-- No value is `false`; paths with the same variable get the same value; and each path is a leaf:
it comes to its handler in normal form, no variable of the handler, there before or set by the call,
lies above or below it, and no mount point lies below a node of the variable. -/
structure Sound (niltoken : Value α) (W : Stores α) (c : Call α) : Prop where
  values : ∀ x ∈ c.pairs niltoken, x.2 ≠ .no
  once : ∀ x ∈ c.pairs niltoken, ∀ y ∈ c.pairs niltoken,
    translation canon db x.1 = translation canon db y.1 → x.2 = y.2
  clean : ∀ x ∈ c.pairs niltoken, ∀ name hpath, translation canon db x.1 = some (name, hpath) →
    clean canon hpath = hpath
  apart : ∀ x ∈ c.pairs niltoken, ∀ name hpath, translation canon db x.1 = some (name, hpath) →
    ∀ hpath', ((W name).values.lookup hpath' ≠ none ∨
        ∃ y ∈ c.pairs niltoken, translation canon db y.1 = some (name, hpath')) →
      ¬ Below canon hpath hpath' ∧ ¬ Below canon hpath' hpath
  leaf : ∀ x ∈ c.pairs niltoken, ∀ n, Node canon n →
    translation canon db (concat n) = translation canon db x.1 →
    ∀ m ∈ db, ∀ c rest, m.node canon ≠ n ++ c :: rest

def Orderly (niltoken : Value α) (W : Stores α) (c : Call α) : Prop :=
  (∀ x ∈ c.pairs niltoken, translation canon db x.1 ≠ none) → Sound canon db niltoken W c

def Filled (W : Stores α) (n : List Str) : Prop :=
  ∀ name hpath, translation canon db (concat n) = some (name, hpath) →
    ∃ c rest, Node canon (c :: rest) ∧
      (W name).values.lookup (concat [hpath, concat (c :: rest)]) ≠ none

end

end Mihini.Treemgr.Access
