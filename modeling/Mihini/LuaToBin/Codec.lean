import Mihini.Lib.Bytes
import Mihini.Lib.LuaTable
import Mathlib.Logic.Function.Basic

/-!
# The `luatobin` format

The serializer and the deserializer of Lua values, with the tables in which they number the
strings, tables and functions they have met.
-/

open Mihini.Lib Lib.Bytes

namespace Mihini.LuaToBin

abbrev Bytes := List UInt8

/-! ## Lua values -/

inductive Value where
  | nil
  | bool (b : Bool)
  /-- A number that is equal to its conversion to `lua_Integer`. -/
  | int (n : Int)
  /-- Any other number, by the bits of the double. -/
  | double (bits : UInt64)
  | string (s : Bytes)
  | object (a : Nat)
  /-- A value of another type: `LUA_TLIGHTUSERDATA`, `LUA_TUSERDATA` or `LUA_TTHREAD`. -/
  | other (type a : Nat)
  deriving DecidableEq

def isNaN (bits : UInt64) : Bool :=
  (bits.toNat / 2 ^ 52) % 2 ^ 11 == 2 ^ 11 - 1 && bits.toNat % 2 ^ 52 != 0

def Value.isKey : Value → Bool
  | .nil => false
  | .double bits => !isNaN bits
  | _ => true

structure Table where
  map : LuaTable Value Value
  isKey : ∀ k v, map.lookup k = some v → k.isKey = true
  ne_nil : ∀ k v, map.lookup k = some v → v ≠ .nil

def Table.empty : Table where
  map := ∅
  isKey := by
    intro k v h
    rw [AList.lookup_empty] at h
    cases h
  ne_nil := by
    intro k v h
    rw [AList.lookup_empty] at h
    cases h

theorem erase_some {m : LuaTable Value Value} {k k' v : Value}
    (h : (m.erase k).lookup k' = some v) : m.lookup k' = some v := by
  by_cases hk : k' = k
  · rw [hk, AList.lookup_erase] at h
    cases h
  · rwa [AList.lookup_erase_ne hk] at h

def Table.rawset (t : Table) (k v : Value) : Except String Table :=
  if hk : k.isKey = true then
    if hv : v = .nil then
      .ok ⟨t.map.erase k, fun k' v' h => t.isKey k' v' (erase_some h),
        fun k' v' h => t.ne_nil k' v' (erase_some h)⟩
    else
      .ok
        { map := t.map.insert k v
          isKey := by
            intro k' v' h
            by_cases hkk : k' = k
            · rw [hkk]
              exact hk
            · rw [AList.lookup_insert_ne hkk] at h
              exact t.isKey k' v' h
          ne_nil := by
            intro k' v' h
            by_cases hkk : k' = k
            · rw [hkk, AList.lookup_insert] at h
              cases h
              exact hv
            · rw [AList.lookup_insert_ne hkk] at h
              exact t.ne_nil k' v' h }
  else if k = .nil then .error "table index is nil"
  else .error "table index is NaN"

inductive Obj (φ : Type) where
  | table (t : Table)
  | function (f : φ)

abbrev Heap (φ : Type) := Nat → Obj φ

structure Memory (φ : Type) where
  heap : Heap φ
  fresh : Nat

def Memory.empty {φ : Type} : Memory φ := ⟨fun _ => .table .empty, 0⟩

/-- `lua_dump` and `lua_load`, which gives a message instead of a function when it fails. -/
structure Chunks (φ : Type) where
  dump : φ → Option Bytes
  load : Bytes → Except Bytes φ

def binNil : UInt8 := 0x00
def binBoolean : UInt8 := 0x01
def binDouble : UInt8 := 0x03
def binString : UInt8 := 0x04
def binTable : UInt8 := 0x05
def binFunction : UInt8 := 0x06
def binInteger : UInt8 := 0x07
def binRef : UInt8 := 0x14

def luaiMaxCStack : Nat := 8000

/-! ## The serializer -/

structure Encoder where
  refs : Value → Option Nat
  key : Nat

def Encoder.init : Encoder := ⟨fun _ => none, 0⟩

def Encoder.verifyCache (e : Encoder) (v : Value) : Nat × Encoder :=
  match e.refs v with
  | none =>
    let key := (e.key + 1) % 2 ^ 16
    (0, ⟨Function.update e.refs v (some key), key⟩)
  | some number => (number, e)

def refBytes (number : Nat) : Bytes := binRef :: beBytes 2 number

def sized (type : UInt8) (size : Nat) (data : Bytes) : Bytes := type :: (beBytes 2 size ++ data)

/-- The keys and values of a table, in the order of `lua_next`. -/
def writeEntries (serialize : Value → Encoder → Except String (Bytes × Encoder)) :
    List (Sigma fun _ : Value => Value) → Encoder → Except String (Bytes × Encoder)
  | [], e => .ok ([], e)
  | ⟨k, v⟩ :: entries, e => do
    let (key, e) ← serialize k e
    let (value, e) ← serialize v e
    let (rest, e) ← writeEntries serialize entries e
    .ok (key ++ value ++ rest, e)

variable {φ : Type}

/-- The first argument is how many nested calls `lua_checkstack` lets pass: each table puts a
key and a value on the stack. -/
def serializeValue (c : Chunks φ) (h : Heap φ) :
    Nat → Value → Encoder → Except String (Bytes × Encoder)
  | 0, _, _ => .error "cannot serialize: stack won't grow"
  | _ + 1, .nil, e => .ok ([binNil], e)
  | _ + 1, .bool b, e => .ok ([binBoolean, if b then 1 else 0], e)
  | _ + 1, .double bits, e => .ok (binDouble :: beBytes 8 bits.toNat, e)
  | _ + 1, .int n, e => .ok (binInteger :: beBytes 4 n, e)
  | _ + 1, .string s, e =>
    match e.verifyCache (.string s) with
    | (cached, e) =>
      if cached ≠ 0 then .ok (refBytes cached, e)
      else if 0xFFFF ≤ s.length then .error "cannot serialize: string length > 65k"
      else .ok (sized binString s.length s, e)
  | levels + 1, .object a, e =>
    match e.verifyCache (.object a) with
    | (cached, e) =>
      if cached ≠ 0 then .ok (refBytes cached, e)
      else match h a with
        | .function f =>
          match c.dump f with
          | none => .error "cannot serialize: unable to dump function"
          | some s =>
            if 0xFFFF ≤ s.length then .error "cannot serialize: function length > 65k"
            else .ok (sized binFunction s.length s, e)
        | .table t => do
          -- the header is put before the entries when their number is known
          let (entries, e) ← writeEntries (serializeValue c h levels) t.map.entries e
          if 0xFFFF ≤ t.map.entries.length then
            .error "cannot serialize: table length > 65k"
          else .ok (sized binTable t.map.entries.length entries, e)
  | _ + 1, .other type _, _ =>
    .error ("cannot serialize: unsupported type (" ++ toString type ++ ")")

def serialize (c : Chunks φ) (h : Heap φ) (v : Value) : Except String Bytes := do
  let (bytes, _) ← serializeValue c h ((luaiMaxCStack - 3) / 2) v .init
  .ok bytes

/-! ## The deserializer -/

structure Decoder (φ : Type) extends Memory φ where
  index : Nat
  cache : Nat → Option Value
  key : Nat

namespace Decoder

def readObject (d : Decoder φ) (frame : Bytes) (call : Nat) : Except String (Bytes × Decoder φ) :=
  if frame.length < d.index + call then .error "cannot deserialize: end of string"
  else .ok ((frame.drop d.index).take call, { d with index := d.index + call })

def addToCache (d : Decoder φ) (v : Value) : Decoder φ :=
  let key := (d.key + 1) % 2 ^ 16
  { d with key := key, cache := Function.update d.cache key (some v) }

def alloc (d : Decoder φ) (o : Obj φ) : Value × Decoder φ :=
  (.object d.fresh, { d with heap := Function.update d.heap d.fresh o, fresh := d.fresh + 1 })

/-- `lua_rawset` on the table at an address. -/
def rawset (d : Decoder φ) (a : Nat) (k v : Value) : Except String (Decoder φ) :=
  match d.heap a with
  | .table t => do
    let t ← t.rawset k v
    .ok { d with heap := Function.update d.heap a (.table t) }
  | .function _ => .ok d -- a table was put there

def readSize (d : Decoder φ) (frame : Bytes) : Except String (Nat × Decoder φ) := do
  let (b, d) ← d.readObject frame 2
  .ok ((beValue b).toNat, d)

end Decoder

def readEntries (key value : Decoder φ → Except String (Value × Decoder φ)) (a : Nat) :
    Nat → Decoder φ → Except String (Decoder φ)
  | 0, d => .ok d
  | size + 1, d => do
    let (k, d) ← key d
    let (v, d) ← value d
    let d ← d.rawset a k v
    readEntries key value a size d

/-- The first number is how many slots `lua_checkstack` leaves on the stack: a value is read
with its table and its key below it, a key with its table. -/
def deserializeValue (c : Chunks φ) (frame : Bytes) :
    Nat → Decoder φ → Except String (Value × Decoder φ)
  | 0, _ => .error "cannot deserialize: stack won't grow"
  | 1, _ => .error "cannot deserialize: stack won't grow"
  | room + 2, d => do
    let (b, d) ← d.readObject frame 1
    let type := b.headD 0
    if type = binNil then .ok (.nil, d)
    else if type = binBoolean then do
      let (b, d) ← d.readObject frame 1
      .ok (.bool (b.headD 0 != 0), d)
    else if type = binDouble then do
      let (b, d) ← d.readObject frame 8
      .ok (.double (UInt64.ofNat (beValue b).toNat), d)
    else if type = binInteger then do
      let (b, d) ← d.readObject frame 4
      .ok (.int (toSigned (2 ^ 31) (beValue b)), d)
    else if type = binRef then do
      let (number, d) ← d.readSize frame
      .ok ((d.cache number).getD .nil, d)
    else if type = binString then do
      let (size, d) ← d.readSize frame
      let (s, d) ← d.readObject frame size
      .ok (.string s, d.addToCache (.string s))
    else if type = binFunction then do
      let (size, d) ← d.readSize frame
      let (s, d) ← d.readObject frame size
      -- when `lua_load` fails, its message takes the place of the function
      match c.load s with
      | .ok f =>
        let (v, d) := d.alloc (.function f)
        .ok (v, d.addToCache v)
      | .error msg => .ok (.string msg, d.addToCache (.string msg))
    else if type = binTable then do
      let (size, d) ← d.readSize frame
      let a := d.fresh
      let (v, d) := d.alloc (.table .empty)
      let d ← readEntries (deserializeValue c frame (room + 1)) (deserializeValue c frame room) a
        size (d.addToCache v)
      .ok (v, d)
    else
      .error ("cannot deserialize: unsupported type [" ++ toString type.toNat ++ "] at " ++
        toString d.index)

def deserializeLoop (c : Chunks φ) (frame : Bytes) :
    Nat → Option Nat → Decoder φ → Except String (List Value × Decoder φ)
  | 0, nobj, d =>
    if d.index < frame.length ∧ nobj ≠ some 0 then .error "cannot deserialize: stack won't grow"
    else .ok ([], d)
  | room + 1, nobj, d =>
    if d.index < frame.length ∧ nobj ≠ some 0 then do
      let (v, d) ← deserializeValue c frame (room + 1) d
      let (vs, d) ← deserializeLoop c frame room (nobj.map (· - 1))
        { d with cache := fun _ => none, key := 0 }
      .ok (v :: vs, d)
    else .ok ([], d)

def Decoder.start (mem : Memory φ) (index : Nat) : Decoder φ where
  toMemory := mem
  index := index
  cache := fun _ => none
  key := 0

/-- The index of the next object, the objects, and what they refer to.  The indices are of
type `int`: a longer string is outside the model.  No limit `nobj` means all objects. -/
def deserialize (c : Chunks φ) (frame : Bytes) (nobj : Option Nat) (offset : Nat)
    (mem : Memory φ) : Except String (Nat × List Value × Memory φ) :=
  if 2 ^ 31 ≤ frame.length then .error "string longer than an int"
  else do
    -- the stack holds the string, the cache and the place of the index
    let (vs, d) ← deserializeLoop c frame (luaiMaxCStack - 3) nobj (.start mem (offset - 1))
    .ok (d.index + 1, vs, d.toMemory)

end Mihini.LuaToBin
