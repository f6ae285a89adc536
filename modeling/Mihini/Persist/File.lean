import Mihini.LuaToBin.Roundtrip

/-!
# Tables kept in files

A persisted table keeps its content in memory and appends a record for each assignment to its
file; the file is rewritten when too many of its records are overridden.
-/

open Mihini.Lib Mihini.LuaToBin

namespace Mihini.Persist

variable {φ : Type}

def maxLossRatio : Nat := 1
def minLoss : Nat := 256

/-! ## The content -/

/-- The fields `__cache`, `__overridden` and `__length`. -/
structure Content where
  cache : Table
  overridden : Nat
  length : Nat

def Content.empty : Content := ⟨.empty, 0, 0⟩

def truthy : Option Value → Bool
  | none => false
  | some .nil => false
  | some (.bool b) => b
  | some _ => true

/-- An assignment to `__cache`, with its counter. -/
def Content.set (s : Content) (k v : Value) : Except String Content := do
  let cache ← s.cache.rawset k v
  if truthy (s.cache.map.lookup k) then
    .ok { s with cache := cache, overridden := s.overridden + 1 }
  else .ok { s with cache := cache, length := s.length + 1 }

/-- The loop of `table.new`: a key and a value at a time.  It ends at the end of the file, or
at a key `nil`. -/
def loadLoop (c : Chunks φ) (filecontent : Bytes) :
    Nat → Nat → Content → Memory φ → Except String (Content × Memory φ)
  | 0, _, s, mem => .ok (s, mem)
  | fuel + 1, offset, s, mem => do
    let (offset, vs, mem) ← deserialize c filecontent (some 2) offset mem
    let k := vs.getD 0 .nil
    let v := vs.getD 1 .nil
    if k = .nil then .ok (s, mem)
    else do
      let s ← s.set k v
      loadLoop c filecontent fuel offset s mem

def load (c : Chunks φ) (filecontent : Bytes) (mem : Memory φ) :
    Except String (Content × Memory φ) :=
  loadLoop c filecontent (filecontent.length + 1) 1 .empty mem

/-! ## The file -/

inductive FileOp where
  | truncate
  | write (b : Bytes)
  | flush

structure Disk where
  flushed : Bytes
  pending : Bytes

def Disk.file (d : Disk) : Bytes := d.flushed ++ d.pending

def Disk.apply (d : Disk) : FileOp → Disk
  | .truncate => ⟨[], []⟩
  | .write b => { d with pending := d.pending ++ b }
  | .flush => ⟨d.flushed ++ d.pending, []⟩

def Disk.run (d : Disk) (ops : List FileOp) : Disk := ops.foldl Disk.apply d

def record (c : Chunks φ) (h : Heap φ) (k v : Value) : Except String (List FileOp) := do
  let sk ← serialize c h k
  let sv ← serialize c h v
  .ok [.write sk, .write sv]

/-- The order in which `pairs` traverses each table. -/
structure Pairs where
  entries : Table → List (Sigma fun _ : Value => Value)
  perm : ∀ t, (entries t).Perm t.map.entries

def records (c : Chunks φ) (h : Heap φ) :
    List (Sigma fun _ : Value => Value) → Except String (List FileOp)
  | [] => .ok []
  | ⟨k, v⟩ :: es => do
    let ops ← record c h k v
    let rest ← records c h es
    .ok (ops ++ rest)

/-- The new file is left in the buffer of its handle: the call of `flush` is for the previous
handle, which has nothing in its buffer. -/
def recompact (c : Chunks φ) (h : Heap φ) (pairs : Pairs) (cache : Table) :
    Except String (List FileOp) := do
  let ops ← records c h (pairs.entries cache)
  .ok (.truncate :: ops)

def Content.isWasteful (s : Content) : Bool :=
  minLoss < s.overridden && maxLossRatio * s.length < s.overridden

/-- The metamethod `__newindex`.  An error of `serialize` leaves the table half assigned; it
is only called here with what can be serialized. -/
def newindex (c : Chunks φ) (h : Heap φ) (pairs : Pairs) (s : Content) (k v : Value) :
    Except String (Content × List FileOp) := do
  let s ← s.set k v
  if s.isWasteful then do
    let ops ← recompact c h pairs s.cache
    .ok ({ s with overridden := 0 }, ops)
  else do
    let ops ← record c h k v
    .ok (s, ops ++ [.flush])

/-! ## Runs -/

/-- The fields of a persisted table: `"__id"`, `"__cache"`, `"__overridden"`, `"__length"` and
`"__file"`. -/
def ownFields : List Value :=
  [.string [95, 95, 105, 100],
    .string [95, 95, 99, 97, 99, 104, 101],
    .string [95, 95, 111, 118, 101, 114, 114, 105, 100, 100, 101, 110],
    .string [95, 95, 108, 101, 110, 103, 116, 104],
    .string [95, 95, 102, 105, 108, 101]]

structure Store (φ : Type) where
  content : Content
  heap : Heap φ
  disk : Disk
  /-- An assignment to an own field of the table, which `__newindex` does not see. -/
  replaced : Option (Value × Value)

def init (h : Heap φ) : Store φ := ⟨.empty, h, ⟨[], []⟩, none⟩

def Store.index (s : Store φ) (k : Value) : Option Value :=
  match s.replaced with
  | some (name, v) => if k = name then some v else s.content.cache.map.lookup k
  | none => s.content.cache.map.lookup k

inductive Event (φ : Type) where
  | assign (k v : Value) (pairs : Pairs)
  | read
  | empty
  | others (h : Heap φ)
  | reload

def Store.assign (c : Chunks φ) (s : Store φ) (k v : Value) (pairs : Pairs) : Store φ :=
  if k ∈ ownFields then { s with replaced := some (k, v) }
  else match newindex c s.heap pairs s.content k v with
    | .ok (content, ops) => { s with content := content, disk := s.disk.run ops }
    | .error _ => s

def Store.reload (c : Chunks φ) (s : Store φ) : Store φ :=
  match load c s.disk.file .empty with
  | .ok (content, mem) => ⟨content, mem.heap, ⟨s.disk.file, []⟩, none⟩
  | .error _ => s

def step (c : Chunks φ) (s : Store φ) : Event φ → Store φ
  | .assign k v pairs => s.assign c k v pairs
  | .read => s
  | .empty => { s with content := .empty, disk := ⟨[], []⟩ }
  | .others h => { s with heap := h }
  | .reload => s.reload c

def Serializable (c : Chunks φ) (h : Heap φ) (v : Value) : Prop := ∃ b, serialize c h v = .ok b

/-- What is assigned can be serialized, and the application does not alter the tables it has
stored. -/
def Enabled (c : Chunks φ) (s : Store φ) (e : Event φ) : Prop :=
  s.replaced = none ∧
    match e with
    | .assign k v _ => k.isKey = true ∧ Serializable c s.heap k ∧ Serializable c s.heap v ∧
        ∀ k v, s.content.cache.map.lookup k = some v →
          Serializable c s.heap k ∧ Serializable c s.heap v
    | .others h => ∀ k v, s.content.cache.map.lookup k = some v → ∀ a,
        Reaches s.heap k (.object a) ∨ Reaches s.heap v (.object a) → h a = s.heap a
    | _ => True

def Store.recompacts (s : Store φ) (k v : Value) : Bool :=
  match s.content.set k v with
  | .ok content => content.isWasteful
  | .error _ => false

/-- An assignment is not to an own field of the table, what it stores keeps to the limits of
`luatobin`, and it overrides no key that is a table or a function, unless the file is rewritten
at once. -/
def Safe (c : Chunks φ) (s : Store φ) : Event φ → Prop
  | .assign k v pairs => k ∉ ownFields ∧ Narrow s.heap k ∧ Narrow s.heap v ∧
      (∀ k v, s.content.cache.map.lookup k = some v → Narrow s.heap k ∧ Narrow s.heap v) ∧
      ((∃ a, k = .object a) → s.content.cache.map.lookup k = none ∨ s.recompacts k v = true) ∧
      (s.assign c k v pairs).disk.file.length < 2 ^ 31
  | _ => True

end Mihini.Persist
