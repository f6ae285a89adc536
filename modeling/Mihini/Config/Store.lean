import Mathlib.Data.Char
import Mathlib.Data.List.Lex
import Mathlib.Data.List.Sort
import Mihini.Lib.LuaPaths
import Mihini.Lib.LuaTable
import Mihini.Treemgr.Path

/-!
# The configuration

`src/agent/agent/config.lua`: a tree of tables in memory and the persisted store of its leaves, each
under its whole path, which `internalset` changes together.  A `niltoken` is `none`.
-/

namespace Mihini.Config

open Mihini.Lib Mihini.Path

variable {ν : Type}

/-! ## Tables -/

def sortedPairs {β : Type} (t : LuaTable Str β) : List (Str × β) :=
  (t.keys.insertionSort fun a b => a ≤ b).filterMap fun k => (t.lookup k).map fun v => (k, v)

def join (path k : Str) : Str := if path = [] then k else path ++ '.' :: k

/-- `recursivepairs`, under a path that is clean. -/
def recursivePairs {β : Type} (path : Str) : LuaFields Str β → List (Str × β)
  | .nil => []
  | .cons k (.leaf v) rest => (join path k, v) :: recursivePairs path rest
  | .cons k (.table fields) rest => recursivePairs (join path k) fields ++ recursivePairs path rest

def last : Str → Str → Bool := fun _ _ => false

abbrev Values (ν : Type) := LuaTable Str (Option ν)

structure State (ν : Type) where
  cache : LuaFields Str ν
  store : LuaTable Str ν
  notices : List (Values ν)

section

variable (canon : Str → Str)

def upathSet (t : LuaFields Str ν) (path : Str) : Option ν → LuaFields Str ν
  | some v => t.set last (segments canon path) (.leaf v)
  | none => t.clear (segments canon path)

def get (s : State ν) (path : Str) : Option (LuaTree Str ν) := s.cache.get (segments canon path)

variable [DecidableEq ν]

/-- `niltoken(prev) == v` -/
def same : Option (LuaTree Str ν) → Option ν → Bool
  | none, none => true
  | some (.leaf a), some b => a = b
  | _, _ => false

def eraseBelow (towrite : Values ν) (k : Str) : Option (LuaTree Str ν) → Values ν
  | some (.table fields) =>
    LuaTable.assign towrite ((recursivePairs (clean canon k) fields).map fun x => (x.1, none))
  | _ => towrite

def overwrite (towrite : Values ν) (k : Str) : Option (List Str) → Values ν
  | some p => if concat p ≠ k then towrite.insert (concat p) none else towrite
  | none => towrite

/-- What is written for one of the values: the first loop of `internalset`. -/
def mark (s : LuaFields Str ν × Values ν) (x : Str × Option ν) : LuaFields Str ν × Values ν :=
  let (cache, towrite) := s
  let (k, v) := x
  let path := segments canon k
  let prev := cache.get path
  if same prev v then (cache, towrite.erase k)
  else
    let towrite := overwrite (eraseBelow canon towrite k prev) k (cache.blocked path)
    -- a table is erased, but a path of its own it has not
    let towrite := match v, prev with
      | none, some (.table _) => towrite
      | _, _ => towrite.insert k v
    (cache.ensure last path, towrite)

/-- The second loop of `internalset`, and whether it comes to its end. -/
def write : State ν → List (Str × Option ν) → State ν × Bool
  | s, [] => (s, true)
  | s, ([], none) :: rest => write { s with cache := .nil, store := ∅ } rest
  | s, ([], some _) :: _ => (s, false)
  | s, (c :: k, v) :: rest =>
    write { s with
      cache := upathSet canon s.cache (c :: k) v
      store := match v with
        | some v => s.store.insert (c :: k) v
        | none => s.store.erase (c :: k) } rest

def internalset (s : State ν) (values : Values ν) : State ν × Except String Unit :=
  let (cache, towrite) := (sortedPairs values).foldl (mark canon) (s.cache, ∅)
  let s := { s with cache := cache }
  if towrite.isEmpty then (s, .ok ())
  else
    match write canon s (sortedPairs towrite) with
    | (s, true) => ({ s with notices := s.notices ++ [towrite] }, .ok ())
    | (s, false) => (s, .error "cannot set root element of config")

def valuesOf (path : Str) (value : LuaTree Str (Option ν)) (clear : Bool) :
    List (Str × Option ν) :=
  match value with
  | .leaf v => [(path, v)]
  | .table fields => (if clear then [(path, none)] else []) ++ recursivePairs path fields

def set (s : State ν) (path : Str) (value : LuaTree Str (Option ν)) (clear : Bool) :
    State ν × Except String Unit :=
  internalset canon s (LuaTable.assign ∅ (valuesOf (clean canon path) value clear))

variable (defaultconfig : LuaFields Str (Option ν))

/-- What `default` sets, from the module `agent.defaultconfig`. -/
def defaultOf (path : Str) : LuaTree Str (Option ν) :=
  (defaultconfig.get (segments canon path)).getD (.leaf none)

def default (s : State ν) (path : Str) : State ν × Except String Unit :=
  set canon s path (defaultOf canon defaultconfig path) true

def build (store : LuaTable Str ν) : LuaFields Str ν :=
  store.entries.foldl (fun t e => upathSet canon t e.1 (some e.2)) .nil

def loadcache (store : LuaTable Str ν) : State ν :=
  let s := ⟨build canon store, store, []⟩
  if s.cache.isEmpty then (default canon defaultconfig s []).1 else s

/-! ## Runs -/

inductive Event (ν : Type) where
  | set (path : Str) (value : LuaTree Str (Option ν)) (clear : Bool)
  | default (path : Str)
  | reload

/-- The call of `set` that an event is. -/
def Event.call : Event ν → Option (Str × LuaTree Str (Option ν) × Bool)
  | .set path value clear => some (path, value, clear)
  | .default path => some (path, defaultOf canon defaultconfig path, true)
  | .reload => none

def step (s : State ν) : Event ν → State ν
  | .set path value clear => (set canon s path value clear).1
  | .default path => (default canon defaultconfig s path).1
  | .reload => { loadcache canon defaultconfig s.store with notices := s.notices }

end

end Mihini.Config
