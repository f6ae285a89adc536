import Mihini.Lib.Bytes
import Mihini.Lib.Search

/-!
# Definitions shared by the Bysant serializer and deserializer

Context identifiers, stack frames, the opcode tables of `bysant_common.c` and the
class collections of `bysant_class.c`.

The C code leaves some operations without a meaning: an index outside an array,
a pointer that was freed, a union member that was never written, a signed
overflow.  Throughout the model such an operation is `none`, and a function that
may perform one returns an `Option`.
-/

namespace Mihini.Bysant

/-- Data contexts (`bs_ctxid_t`).  A context read from a stream is one byte, so
values past the last regular context occur and are kept as `unknown`. -/
inductive CtxId
  | global
  | unsignedOrString
  | number
  | int32
  | float
  | double
  | listOrMap
  | unknown (n : Nat)
  | chunked
  | object
  deriving Repr, DecidableEq

namespace CtxId

/-- The numeric value of a context.  `chunked` and `object` are internal and lie
past every value a byte can hold. -/
def toNat : CtxId → Nat
  | global => 0
  | unsignedOrString => 1
  | number => 2
  | int32 => 3
  | float => 4
  | double => 5
  | listOrMap => 6
  | unknown n => n
  | chunked => 256
  | object => 257

def ofByte (b : UInt8) : CtxId :=
  match b.toNat with
  | 0 => global
  | 1 => unsignedOrString
  | 2 => number
  | 3 => int32
  | 4 => float
  | 5 => double
  | 6 => listOrMap
  | n => unknown n

/-- `ctxid < BS_CTXID_LAST`: the contexts a caller may give to a container. -/
def regular : CtxId → Bool
  | unknown _ | chunked | object => false
  | _ => true

theorem ofByte_toNat {c : CtxId} (h : c.regular = true) :
    ofByte (Lib.Bytes.byte c.toNat) = c := by
  cases c <;> first | rfl | cases h

end CtxId

inductive FrameKind
  | top
  | map
  | zmap
  | object
  | list
  | zlist
  | chunked
  | classdef
  deriving Repr, DecidableEq

namespace FrameKind

def fixed : FrameKind → Bool
  | list | map | object => true
  | _ => false

def isMap : FrameKind → Bool
  | map | zmap => true
  | _ => false

end FrameKind

/-! ## Classes -/

inductive ClassMode
  | managed
  | external
  deriving Repr, DecidableEq

def cstring (s : List UInt8) : List UInt8 := s.takeWhile (· != 0)

structure BsField where
  name : Option (List UInt8)
  ctxid : CtxId
  deriving Repr, DecidableEq

/-- A class definition (`bs_class_t`).  `nfields` is the length of `fields`. -/
structure BsClass where
  classid : UInt32
  classname : Option (List UInt8)
  mode : ClassMode
  fields : List BsField
  deriving Repr, DecidableEq

namespace BsClass

def nfields (c : BsClass) : Int := c.fields.length

/-- `class->fields[i]`. -/
def fieldAt (c : BsClass) (i : Int) : Option BsField :=
  if 0 ≤ i then c.fields[i.toNat]? else none

end BsClass

structure ClassPtr where
  block : Nat
  cls : BsClass
  deriving Repr, DecidableEq

/-- A class collection (`bs_classcoll_t`), with the blocks it has released. -/
structure ClassColl where
  classes : List ClassPtr
  nclasses : Nat
  freed : List Nat
  deriving Repr, DecidableEq

namespace ClassColl

def bsClasscollInit : ClassColl := { classes := [], nclasses := 0, freed := [] }

/-- Releases the managed classes and the array, but leaves `nclasses` as it
was. -/
def bsClasscollReset (coll : ClassColl) : ClassColl :=
  { coll with
    classes := []
    freed := ((coll.classes.take coll.nclasses).filter
      (·.cls.mode == .managed)).map (·.block) ++ coll.freed }

/-- The difference of two 32-bit identifiers, read as an `int`. -/
def compareClassesById (classid : UInt32) (member : ClassPtr) : Int :=
  Lib.Bytes.toSigned (2 ^ 31) (classid - member.cls.classid).toNat

/-- Where `bsearch` finds a class identifier in the array. -/
def indexOf (coll : ClassColl) (classid : UInt32) : Option (Option Nat) :=
  Lib.bsearch (compareClassesById classid) coll.classes coll.nclasses

def bsClasscollGet (coll : ClassColl) (classid : UInt32) : Option (Option ClassPtr) :=
  (coll.indexOf classid).map fun found => found.bind (coll.classes[·]?)

/-- Replaces or inserts a definition.  The slot of a replaced definition is the
difference of two class pointers, which only means something when both are the
same object, that is when the first class of the array is replaced. -/
def bsClasscollSet (coll : ClassColl) (classdef : ClassPtr) : Option ClassColl := do
  let existing ← coll.bsClasscollGet classdef.cls.classid
  match existing with
  | some existing =>
    let first ← coll.classes[0]?
    if existing.block = first.block then
      some { coll with
        classes := coll.classes.set 0 classdef
        freed := if existing.cls.mode = .managed then existing.block :: coll.freed
          else coll.freed }
    else none
  | none =>
    if coll.classes.length = coll.nclasses then
      let below : ClassPtr → Bool := fun p => decide (p.cls.classid < classdef.cls.classid)
      some { coll with
        classes := coll.classes.takeWhile below ++ classdef :: coll.classes.dropWhile below
        nclasses := coll.nclasses + 1 }
    else none

/-- Follows a class pointer, unless its block was released. -/
def deref (coll : ClassColl) (p : ClassPtr) : Option BsClass :=
  if p.block ∈ coll.freed then none else some p.cls

end ClassColl

/-! ## Stack frames -/

/-- The union at the end of a stack frame.  `junk` is memory never written. -/
inductive FrameContent
  | junk
  | map (even : Bool)
  | object (classdef : ClassPtr)
  deriving Repr, DecidableEq

structure Frame where
  kind : FrameKind
  ctxid : CtxId
  missing : Int
  content : FrameContent
  deriving Repr, DecidableEq

namespace Frame

def even (f : Frame) : Option Bool :=
  match f.content with
  | .map e => some e
  | _ => none

def onKey (f : Frame) : Option Bool := if f.kind.isMap then f.even else some false

def classdef (coll : ClassColl) (f : Frame) : Option BsClass :=
  match f.content with
  | .object p => coll.deref p
  | _ => none

/-- The context of the next value of a frame: keys of maps have their own, the
fields of an object follow its class. -/
def getctxid (coll : ClassColl) (f : Frame) : Option CtxId :=
  match f.kind with
  | .map | .zmap => do
    let even ← f.even
    if even then some .unsignedOrString else some f.ctxid
  | .object => do
    let cls ← f.classdef coll
    let field ← cls.fieldAt (cls.nfields - f.missing)
    some field.ctxid
  | _ => some f.ctxid

def toggle (f : Frame) : Option Frame := do
  let even ← f.even
  some { f with content := .map (!even) }

end Frame

abbrev Stack := Nat → Frame

def blankStack : Stack := fun _ =>
  { kind := .top, ctxid := .global, missing := 0, content := .junk }

def Stack.modify (st : Stack) (i : Nat) (g : Frame → Frame) : Stack :=
  fun j => if j = i then g (st i) else st j

@[simp] theorem Stack.modify_same (st : Stack) (i : Nat) (g : Frame → Frame) :
    st.modify i g i = g (st i) := if_pos rfl

theorem Stack.modify_of_ne (st : Stack) {i j : Nat} (h : j ≠ i) (g : Frame → Frame) :
    st.modify i g j = st j := if_neg h

theorem Stack.modify_modify (st : Stack) (n : Nat) (g g' : Frame → Frame) :
    (st.modify n g).modify n g' = st.modify n fun f => g' (g f) := by
  funext i
  by_cases h : i = n
  · subst h
    rw [modify_same, modify_same, modify_same]
  · rw [modify_of_ne _ h, modify_of_ne _ h, modify_of_ne _ h]

theorem Stack.modify_cases {P : Frame → Prop} (st : Stack) (n : Nat) (g : Frame → Frame) (i : Nat)
    (htop : i = n → P (g (st n))) (hold : i ≠ n → P (st i)) : P (st.modify n g i) := by
  by_cases h : i = n
  · subst h
    rw [modify_same]
    exact htop rfl
  · rw [modify_of_ne st h]
    exact hold h

def cint (x : Int) : Option Int := if -2 ^ 31 ≤ x ∧ x < 2 ^ 31 then some x else none

/-! ## Encoding tables -/

structure CollEncoding where
  emptyOpcode : Nat
  variableTypedOpcode : Nat
  variableUntypedOpcode : Nat
  smallLimit : Nat
  smallTypedOpcode : Nat
  smallUntypedOpcode : Nat
  longTypedOpcode : Nat
  longUntypedOpcode : Nat
  fixedKind : FrameKind
  variableKind : FrameKind

structure StringEncoding where
  smallLimit : Nat
  smallOpcode : Nat
  mediumLimit : Nat
  mediumOpcode : Nat
  largeLimit : Nat
  largeOpcode : Nat
  chunkedOpcode : Nat

structure IntegerEncoding where
  tinyMin : Int
  tinyMax : Int
  tinyZeroOpcode : Int
  smallMin : Int
  smallMax : Int
  smallNegOpcode : Int
  smallPosOpcode : Int
  mediumMin : Int
  mediumMax : Int
  mediumNegOpcode : Int
  mediumPosOpcode : Int
  largeMin : Int
  largeMax : Int
  largeNegOpcode : Int
  largePosOpcode : Int
  lastLargeNegOpcode : Int
  int32Opcode : Int
  int64Opcode : Int

def globalList : CollEncoding where
  emptyOpcode := 0x2a
  variableTypedOpcode := 0x40
  variableUntypedOpcode := 0x35
  smallLimit := 9
  smallTypedOpcode := 0x36
  smallUntypedOpcode := 0x2b
  longTypedOpcode := 0x3f
  longUntypedOpcode := 0x34
  fixedKind := .list
  variableKind := .zlist

def globalMap : CollEncoding where
  emptyOpcode := 0x41
  variableTypedOpcode := 0x57
  variableUntypedOpcode := 0x4c
  smallLimit := 9
  smallTypedOpcode := 0x4d
  smallUntypedOpcode := 0x42
  longTypedOpcode := 0x56
  longUntypedOpcode := 0x4b
  fixedKind := .map
  variableKind := .zmap

def listmapList : CollEncoding where
  emptyOpcode := 0x01
  variableTypedOpcode := 0x7d
  variableUntypedOpcode := 0x3f
  smallLimit := 60
  smallTypedOpcode := 0x40
  smallUntypedOpcode := 0x02
  longTypedOpcode := 0x7c
  longUntypedOpcode := 0x3e
  fixedKind := .list
  variableKind := .zlist

def listmapMap : CollEncoding where
  emptyOpcode := 0x83
  variableTypedOpcode := 0xff
  variableUntypedOpcode := 0xc1
  smallLimit := 60
  smallTypedOpcode := 0xc2
  smallUntypedOpcode := 0x84
  longTypedOpcode := 0xfe
  longUntypedOpcode := 0xc0
  fixedKind := .map
  variableKind := .zmap

def globalString : StringEncoding where
  smallLimit := 32
  smallOpcode := 0x03
  mediumLimit := 1056
  mediumOpcode := 0x24
  largeLimit := 66592
  largeOpcode := 0x28
  chunkedOpcode := 0x29

def uisString : StringEncoding where
  smallLimit := 47
  smallOpcode := 0x01
  mediumLimit := 2095
  mediumOpcode := 0x31
  largeLimit := 67631
  largeOpcode := 0x39
  chunkedOpcode := 0x3a

def globalInteger : IntegerEncoding where
  tinyMin := -31
  tinyMax := 64
  tinyZeroOpcode := 0x9f
  smallMin := -2079
  smallMax := 2112
  smallNegOpcode := 0xe8
  smallPosOpcode := 0xe0
  mediumMin := -264223
  mediumMax := 264256
  mediumNegOpcode := 0xf4
  mediumPosOpcode := 0xf0
  largeMin := -33818655
  largeMax := 33818688
  largeNegOpcode := 0xfa
  largePosOpcode := 0xf8
  lastLargeNegOpcode := 0xfb
  int32Opcode := 0xfc
  int64Opcode := 0xfd

def numberInteger : IntegerEncoding where
  tinyMin := -97
  tinyMax := 97
  tinyZeroOpcode := 0x62
  smallMin := -4193
  smallMax := 4193
  smallNegOpcode := 0xd4
  smallPosOpcode := 0xc4
  mediumMin := -528481
  mediumMax := 528481
  mediumNegOpcode := 0xec
  mediumPosOpcode := 0xe4
  largeMin := -67637345
  largeMax := 67637345
  largeNegOpcode := 0xf8
  largePosOpcode := 0xf4
  lastLargeNegOpcode := 0xfb
  int32Opcode := 0xfc
  int64Opcode := 0xfd

/-! Limits of the unsigned integers of the `unsignedOrString` context. -/

def utiMax : Int := 139
def usiMax : Int := 8331
def umiMax : Int := 1056907
def uliMax : Int := 135274635

/-! ## Floating point

A `double` is its eight bytes and a `float` its four.  What the C compiler does
with them is a parameter. -/

class CFloat where
  /-- `(float) x` -/
  toFloat : UInt64 → UInt32
  ofFloat : UInt32 → UInt64
  /-- `x == y` -/
  eq : UInt64 → UInt64 → Bool
  toInt64 : UInt64 → Int64
  /-- `(double) y` -/
  ofInt64 : Int64 → UInt64

@[reducible] def hostFloat : CFloat where
  toFloat := fun x => (Float.ofBits x).toFloat32.toBits
  ofFloat := fun f => (Float32.ofBits f).toFloat.toBits
  eq := fun x y => Float.ofBits x == Float.ofBits y
  toInt64 := fun x => (Float.ofBits x).toInt64
  ofInt64 := fun y => y.toFloat.toBits

end Mihini.Bysant
