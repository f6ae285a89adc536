import Mihini.Lib.LuaTable
import Mihini.Treemgr.Mapping

/-!
# Hooks

The databases `l2c` and `l2m` of `src/agent/agent/treemgr/build.lua`, the handler
`handlers/ramstore.lua` and `register`, `unregister`, `notify` and `set` of `treemgr/init.lua`.
`ram` is the name of the store; what the other handlers answer is an argument of an event.
-/

namespace Mihini.Treemgr

open Mihini.Lib Mihini.Path

section

variable (canon : Str → Str)

/-! ## The databases of children and of handlers below a node -/

/-- `cache.l2c`, with the entries of the databases `l2c` and `l2m`. -/
structure Index where
  cache : List Str
  l2c : List (Str × Str)
  l2m : List (Str × Str)

/-- The body of the loop over `path.gsplit(lpath)`.  A key of `l2m` is looked up in the cache of
`l2c`. -/
def addChild (name : Str) (ix : Index) (child : Str) : Index :=
  let parent := (splitLast canon child).1
  let keyL2c := parent ++ '-' :: '>' :: child
  let keyL2m := child ++ '-' :: '>' :: name
  let ix := if child ≠ [] ∧ keyL2c ∉ ix.cache then
      { ix with cache := keyL2c :: ix.cache, l2c := ix.l2c ++ [(parent, child)] }
    else ix
  if keyL2m ∉ ix.cache then { ix with l2m := ix.l2m ++ [(child, name)] } else ix

def addMount (ix : Index) (m : Mount) : Index :=
  (gsplit canon m.lpath).foldl (fun ix x => addChild canon m.name ix x.1) ix

def index (db : List Mount) : Index := db.foldl (addMount canon) ⟨[], [], []⟩

def l2c (db : List Mount) (lpath : Str) : List Str :=
  ((index canon db).l2c.filter fun e => e.1 = lpath).map Prod.snd

def l2m (db : List Mount) (lpath : Str) : List Str :=
  ((index canon db).l2m.filter fun e => e.1 = lpath).map Prod.snd

end

/-! ## The store -/

/-- `false`, or a value that is true in a condition. -/
inductive Value (α : Type) where
  | no
  | val (a : α)
  deriving DecidableEq

/-- What a handler answers to `get`. -/
inductive Reply (α : Type) where
  | value (v : Value α)
  | children (names : List Str)
  | nothing
  | error (msg : String)

structure RamStore (α : Type) where
  registered : List Str
  values : LuaTable Str (Value α)
  nlnodes : LuaTable Str (List Str)

variable {α : Type}

def RamStore.new : RamStore α := ⟨[], ∅, ∅⟩

def RamStore.get (s : RamStore α) (hpath : Str) : Reply α :=
  match s.values.lookup hpath with
  | some (.val a) => .value (.val a)
  | _ =>
    match s.nlnodes.lookup hpath with
    | some names => .children names
    | none => .nothing

def RamStore.register (s : RamStore α) (hpath : Str) : RamStore α :=
  { s with registered := hpath :: s.registered }

def RamStore.unregister (s : RamStore α) (hpath : Str) : RamStore α :=
  { s with registered := s.registered.filter fun h => h ≠ hpath }

section

variable (canon : Str → Str)

def linkChildren : List Str → Option Str → LuaTable Str (List Str) → LuaTable Str (List Str)
  | [], _, nlnodes => nlnodes
  | hpfx :: rest, hchild, nlnodes =>
    let nlnodes := match hchild with
      | none => nlnodes
      | some child => nlnodes.insert hpfx (child :: (nlnodes.lookup hpfx).getD [])
    linkChildren rest (some (splitLast canon hpfx).2) nlnodes

/-- `set_hpath`, and whether it asks for a notification. -/
def RamStore.setHpath (s : RamStore α) [DecidableEq α] (hpath : Str) (val : Value α) :
    RamStore α × Bool :=
  if s.values.lookup hpath = some val then (s, false)
  else
    let hprefixes := (gsplit canon hpath).map Prod.fst
    ({ s with
        nlnodes := (linkChildren canon hprefixes none s.nlnodes).erase hpath
        values := s.values.insert hpath val },
      hprefixes.any fun hpfx => hpfx ∈ s.registered)

/-- `set`, and whether it notifies. -/
def RamStore.set (s : RamStore α) [DecidableEq α] (hmap : LuaTable Str (Value α)) :
    RamStore α × Bool :=
  hmap.entries.foldl (fun r e =>
    let r' := r.1.setHpath canon e.1 e.2
    (r'.1, r.2 || r'.2)) (s, false)

end

/-! ## The tree manager -/

structure Hook where
  id : Nat
  monitored : List Str
  /-- `associated_lpath_set` -/
  associated : List Str
  deriving DecidableEq

structure Call (α : Type) where
  hook : Hook
  lmap : LuaTable Str (Value α)

structure State (α : Type) where
  hooks : List (Str × Hook)
  store : RamStore α
  made : List Hook
  active : List Hook
  calls : List (Call α)

def State.init : State α := ⟨[], .new, [], [], []⟩

section

variable (canon : Str → Str) (db : List Mount) (ram : Str)

/-- The paths that `register` registers with the store for a monitored path. -/
def registrations (lpath : Str) : List Str :=
  ((gsplit canon lpath).filterMap fun x =>
    match l2h db x.1 with
    | none => none
    | some (name, hpfx) => if name = ram then some (concat [hpfx, x.2]) else none) ++
  if ram ∈ l2m canon db lpath then [[]] else []

def newHook (s : State α) (monitored associated : List Str) : Hook :=
  ⟨s.made.length, (monitored.map (clean canon)).dedup, (associated.map (clean canon)).dedup⟩

def register (s : State α) (monitored associated : List Str) : State α :=
  let hook := newHook canon s monitored associated
  { s with
    hooks := s.hooks ++ hook.monitored.map fun lpath => (lpath, hook)
    store := (hook.monitored.flatMap (registrations canon db ram)).foldl RamStore.register s.store
    made := hook :: s.made }

/-- The paths of the store for which no hook monitors a logical path any more. -/
def collectable (hooks : List (Str × Hook)) (hook : Hook) : List Str :=
  hook.monitored.filterMap fun lpath =>
    match translation canon db lpath with
    | none => none
    | some (name, hpath) =>
      if name = ram ∧ ¬(hpath2lpath canon db name hpath).any fun equiv =>
          hooks.any fun e => e.1 = equiv then some hpath
      else none

/-- A path that nobody monitors has no set of hooks: `unregister` fails there.  The hook is in no
set then, and nothing has been removed. -/
def unregister (s : State α) (hook : Hook) : State α :=
  if hook.monitored.all fun lpath => s.hooks.any fun e => e.1 = lpath then
    let hooks := s.hooks.filter fun e => ¬(e.1 ∈ hook.monitored ∧ e.2 = hook)
    { s with
      hooks := hooks
      store := (collectable canon db ram hooks hook).foldl RamStore.unregister s.store }
  else s

/-- `get_lpath`, less the children. -/
def getLpath (store : RamStore α) (other : Str → Str → Reply α) (lpath : Str) :
    Except String (Option (Value α)) :=
  match translation canon db lpath with
  | some (name, hpath) =>
    match if name = ram then store.get hpath else other name hpath with
    | .value v => .ok (some v)
    | .children _ | .nothing => .ok none
    | .error msg => .error msg
  | none => if l2c canon db lpath = [] then .error "handler not found" else .ok none

/-- `get`, for a list. -/
def get (store : RamStore α) (other : Str → Str → Reply α) :
    List Str → LuaTable Str (Value α) → Except String (LuaTable Str (Value α))
  | [], result => .ok result
  | lpath :: rest, result =>
    match getLpath canon db ram store other lpath with
    | .error msg => .error (String.ofList lpath ++ ": " ++ msg)
    | .ok none => get store other rest result
    | .ok (some v) => get store other rest (result.insert lpath v)

def lmapOf (hmap : LuaTable Str (Value α)) : LuaTable Str (Value α) :=
  hmap.entries.foldl (fun lmap e =>
    (hpath2lpath canon db ram e.1).foldl (fun lmap lpath => lmap.insert lpath e.2) lmap) ∅

def notifiedHooks (hooks : List (Str × Hook)) (lmap : LuaTable Str (Value α)) : List Hook :=
  (lmap.keys.flatMap fun lpath => (gsplit canon lpath).flatMap fun x =>
    (hooks.filter fun e => e.1 = x.1).map Prod.snd).dedup

def relevant (hook : Hook) (lpath : Str) : Bool :=
  (gsplit canon lpath).any fun x => x.1 ∈ hook.monitored || x.1 ∈ hook.associated

def hookLmap (store : RamStore α) (other : Str → Str → Reply α) (lmap : LuaTable Str (Value α))
    (hook : Hook) : Except String (LuaTable Str (Value α)) :=
  let sorted := lmap.filter fun lpath _ => relevant canon hook lpath
  get canon db ram store other (hook.associated.filter fun lpath => lpath ∉ sorted) sorted

/-- The loop over the hooks.  When the values cannot be read, `next` is applied to the message, and
fails. -/
def callHooks (store : RamStore α) (other : Str → Str → Reply α) (lmap : LuaTable Str (Value α)) :
    List Hook → List (Call α)
  | [] => []
  | hook :: rest =>
    match hookLmap canon db ram store other lmap hook with
    | .error _ => []
    | .ok arg => ⟨hook, arg⟩ :: callHooks store other lmap rest

def notify (s : State α) (other : Str → Str → Reply α) (hmap : LuaTable Str (Value α)) : State α :=
  let lmap := lmapOf canon db ram hmap
  match notifiedHooks canon s.hooks lmap with
  | [] => { s with store := hmap.keys.foldl RamStore.unregister s.store }
  | hook :: rest => { s with calls := callHooks canon db ram s.store other lmap (hook :: rest) }

/-- The map that `set` passes to the store, unless there is a path without a mapping. -/
def handlerMap : List (Str × Value α) → LuaTable Str (Value α) → Option (LuaTable Str (Value α))
  | [], hmap => some hmap
  | (lpath, v) :: rest, hmap =>
    match translation canon db lpath with
    | none => none
    | some (name, hpath) => handlerMap rest (if name = ram then hmap.insert hpath v else hmap)

/-- `set`, as far as the store has a part in it. -/
def set [DecidableEq α] (s : State α) (lmap : List (Str × Value α))
    (other : Str → Str → Reply α) : State α :=
  match handlerMap canon db ram lmap ∅ with
  | none => s
  | some hmap =>
    let r := s.store.set canon hmap
    let s := { s with store := r.1 }
    if r.2 then notify canon db ram s other hmap else s

/-! ## Runs -/

inductive Event (α : Type) where
  | register (monitored associated : List Str)
  | unregister (hook : Hook)
  /-- What the other handlers answer to `get` meanwhile is `other`. -/
  | set (lmap : List (Str × Value α)) (other : Str → Str → Reply α)

def step [DecidableEq α] (s : State α) (e : Event α) : State α :=
  let s := { s with calls := [] }
  match e with
  | .register monitored associated =>
    { register canon db ram s monitored associated with
      active := newHook canon s monitored associated :: s.active }
  | .unregister hook =>
    { unregister canon db ram s hook with active := s.active.filter fun h => h ≠ hook }
  | .set lmap other => set canon db ram s lmap other

def Enabled (s : State α) : Event α → Prop
  | .unregister hook => hook ∈ s.made
  | _ => True

end

end Mihini.Treemgr
