import Mihini.Bysant.Common

/-!
# The Bysant serializer

`bysants.c`, function by function.  A context carries the state of its writer, so
that one model serves a writer that collects bytes, one that overflows and the
one of the staging tables.

The counters `written`, `acknowledged` and `skipped` are unbounded: the code only
ever reads their differences.
-/

namespace Mihini.Bysant

open Lib.Bytes

/-- Status codes (`bss_status_t`).  A writer may also return a negative code of
its own, which is passed on. -/
inductive Status
  | eok
  | eagain
  | etoodeep
  | einvalid
  | emem
  | ebroken
  | enocontainer
  | ebadmap
  | esize
  | ebadctxid
  | ebadcontext
  | ebadclassid
  | ebadfield
  | eoutofbounds
  | einternal
  | writer (code : Int)
  deriving Repr, DecidableEq

def bssStackSize : Nat := 16

/-- A writer consumes the beginning of the bytes it is given and returns how many
it took, or a negative code. -/
abbrev Writer (W : Type) := W → List UInt8 → Int × W

/-- A serialization context (`bss_ctx_t`). -/
structure SCtx (W : Type) where
  writerctx : W
  written : Int
  acknowledged : Int
  skipped : Int
  broken : Bool
  stacksize : Nat
  acknowledgedStacksize : Nat
  classcoll : ClassColl
  stack : Stack

abbrev Res (W : Type) := Status × SCtx W

namespace SCtx

variable {W : Type}

def topframe (c : SCtx W) : Frame := c.stack c.stacksize

def modifyTop (c : SCtx W) (g : Frame → Frame) : SCtx W :=
  { c with stack := c.stack.modify c.stacksize g }

/-- A frame more on the stack.  It keeps the `missing` count and the content its
slot had before. -/
def push (c : SCtx W) (kind : FrameKind) (ctxid : CtxId) : SCtx W :=
  { c with stacksize := c.stacksize + 1 }.modifyTop fun f => { f with kind := kind, ctxid := ctxid }

def getctxid (c : SCtx W) : Option CtxId := c.topframe.getctxid c.classcoll

end SCtx

section
variable {W : Type}

/-- An error in the middle of an operation: when it left bytes of the operation in
the stream the context is broken. -/
def abandon (e : Status) (c : SCtx W) : Res W :=
  (e, if c.written ≠ c.acknowledged then { c with broken := true } else c)

/-- The `TRY` macro: go on after success, give up on overflow or error. -/
def tryThen (r : Res W) (k : SCtx W → Res W) : Res W :=
  match r.1 with
  | .eok => k r.2
  | .eagain => r
  | e => abandon e r.2

/-- `TRY` followed by steps that may have no meaning. -/
def tryThenO (r : Res W) (k : SCtx W → Option (Res W)) : Option (Res W) :=
  match r.1 with
  | .eok => k r.2
  | .eagain => some r
  | e => some (abandon e r.2)

/-! ## Transactions -/

def startTransaction (c : SCtx W) : Res W :=
  let f := c.topframe
  let c := { c with stacksize := c.acknowledgedStacksize }
  if c.broken then (.ebroken, c)
  else if f.kind.fixed ∧ f.missing = 0 then (.esize, c)
  else (.eok, { c with skipped := 0 })

def starting (c : SCtx W) (k : SCtx W → Option (Res W)) : Option (Res W) :=
  match startTransaction c with
  | (.eok, c) => k c
  | (e, c) => some (e, c)

def commitFrame (f : Frame) : Option (Status × Frame) :=
  match f.kind with
  | .zmap => do
    let f ← f.toggle
    some (.eok, f)
  | .map => do
    let f ← f.toggle
    if f.missing = 0 then some (.esize, f)
    else some (.eok, { f with missing := f.missing - 1 })
  | .list | .object =>
    if f.missing = 0 then some (.esize, f)
    else some (.eok, { f with missing := f.missing - 1 })
  | .zlist | .chunked | .top => some (.eok, f)
  | .classdef => some (.einternal, f)

/-- `commitTransaction`, with the `COMMIT_AND_RETURN` macro around it. -/
def commitTransaction (c : SCtx W) : Option (Res W) := do
  let (st, f) ← commitFrame c.topframe
  let c := c.modifyTop fun _ => f
  if st = .eok then
    some (.eok, { c with acknowledged := c.written, acknowledgedStacksize := c.stacksize })
  else some (st, c)

/-! ## Writing bytes -/

/-- Hands a block to the writer, less what an interrupted attempt of the same
operation already wrote. -/
def writeData (wr : Writer W) (c : SCtx W) (buffer : List UInt8) : Res W :=
  let toskip := c.written - c.acknowledged - c.skipped
  if 0 < toskip ∧ (buffer.length : Int) ≤ toskip then
    (.eok, { c with skipped := c.skipped + buffer.length })
  else
    let skip := if 0 < toskip then toskip else 0
    let buffer := buffer.drop skip.toNat
    let c := { c with skipped := c.skipped + skip }
    let (n, w) := wr c.writerctx buffer
    let c := { c with writerctx := w }
    if n < 0 then (.writer n, c)
    else
      let c := { c with written := c.written + n, skipped := c.skipped + n }
      (if n = buffer.length then .eok else .eagain, c)

def writeByte (wr : Writer W) (c : SCtx W) (k : Int) : Res W :=
  writeData wr c [byte k]

/-- `writeBytes`; the code never asks for more than four. -/
def writeBytes (wr : Writer W) (c : SCtx W) (ks : List Int) : Res W :=
  if 4 < ks.length then (.einternal, c) else writeData wr c (ks.map byte)

def writeEach (wr : Writer W) : SCtx W → List UInt8 → Res W
  | c, [] => (.eok, c)
  | c, b :: bs => tryThen (writeData wr c [b]) fun c => writeEach wr c bs

/-- Writes `(x >> i) & 0xff` for the shifts `i` of `nbytes` bytes, high byte
first. -/
def writeIntegerBigEndian (wr : Writer W) (c : SCtx W) (x : Int) (nbytes : Nat) : Res W :=
  writeEach wr c (beBytes nbytes x)

/-! ## Integers -/

def computeOffset (x ifneg ifpos : Int) : Int :=
  if x < 0 then -x - (-ifneg + 1) else x - (ifpos + 1)

def writeInteger (wr : Writer W) (c : SCtx W) (x : Int) (enc : IntegerEncoding) : Res W :=
  if enc.tinyMin ≤ x ∧ x ≤ enc.tinyMax then
    writeByte wr c (enc.tinyZeroOpcode + x)
  else if enc.smallMin ≤ x ∧ x ≤ enc.smallMax then
    let offset := computeOffset x enc.tinyMin enc.tinyMax
    let opbase := if x < 0 then enc.smallNegOpcode else enc.smallPosOpcode
    writeBytes wr c [opbase + offset / 2 ^ 8, offset]
  else if enc.mediumMin ≤ x ∧ x ≤ enc.mediumMax then
    let offset := computeOffset x enc.smallMin enc.smallMax
    let opbase := if x < 0 then enc.mediumNegOpcode else enc.mediumPosOpcode
    writeBytes wr c [opbase + offset / 2 ^ 16, offset / 2 ^ 8, offset]
  else if enc.largeMin ≤ x ∧ x ≤ enc.largeMax then
    let offset := computeOffset x enc.mediumMin enc.mediumMax
    let opbase := if x < 0 then enc.largeNegOpcode else enc.largePosOpcode
    writeBytes wr c [opbase + offset / 2 ^ 24, offset / 2 ^ 16, offset / 2 ^ 8, offset]
  else if toSigned (2 ^ 31) (x % 2 ^ 32) = x then
    tryThen (writeByte wr c enc.int32Opcode) fun c => writeIntegerBigEndian wr c x 4
  else
    tryThen (writeByte wr c enc.int64Opcode) fun c => writeIntegerBigEndian wr c x 8

/-- `writeUnsignedInteger` takes a `uint32_t`: callers with a wider value lose
its high bits here. -/
def writeUnsignedInteger (wr : Writer W) (c : SCtx W) (x : Int) : Res W :=
  let x := x % 2 ^ 32
  if x ≤ utiMax then writeByte wr c (x + 0x3b)
  else if x ≤ usiMax then
    let offset := x - (utiMax + 1)
    writeBytes wr c [0xc7 + offset / 2 ^ 8, offset]
  else if x ≤ umiMax then
    let offset := x - (usiMax + 1)
    writeBytes wr c [0xe7 + offset / 2 ^ 16, offset / 2 ^ 8, offset]
  else if x ≤ uliMax then
    let offset := x - (umiMax + 1)
    writeBytes wr c [0xf7 + offset / 2 ^ 24, offset / 2 ^ 16, offset / 2 ^ 8, offset]
  else
    tryThen (writeByte wr c 0xff) fun c => writeIntegerBigEndian wr c x 4

/-! ## Floating point -/

structure FloatEncoding where
  float32Opcode : Int
  float64Opcode : Int

def globalFloatOpcodes : FloatEncoding := { float32Opcode := 0xfe, float64Opcode := 0xff }
def numberFloatOpcodes : FloatEncoding := { float32Opcode := 0xfe, float64Opcode := 0xff }

def writeFloat32 (wr : Writer W) (c : SCtx W) (f : UInt32) : Res W :=
  writeEach wr c (beBytes 4 f.toNat)

def writeFloat64 (wr : Writer W) (c : SCtx W) (d : UInt64) : Res W :=
  writeEach wr c (beBytes 8 d.toNat)

def writeFloat [CFloat] (wr : Writer W) (c : SCtx W) (x : UInt64) (enc : FloatEncoding) :
    Res W :=
  if CFloat.eq (CFloat.ofFloat (CFloat.toFloat x)) x then
    tryThen (writeByte wr c enc.float32Opcode) fun c => writeFloat32 wr c (CFloat.toFloat x)
  else
    tryThen (writeByte wr c enc.float64Opcode) fun c => writeFloat64 wr c x

/-! ## Strings -/

/-- Cuts data into chunks of at most `0xffff` bytes, each after its length. -/
def writeChunk (wr : Writer W) (c : SCtx W) (data : List UInt8) : Res W :=
  if 0xffff < data.length then
    tryThen (writeBytes wr c [0xff, 0xff]) fun c =>
      tryThen (writeData wr c (data.take 0xffff)) fun c =>
        writeChunk wr c (data.drop 0xffff)
  else if 0 < data.length then
    tryThen (writeBytes wr c [(data.length : Int) / 2 ^ 8, data.length]) fun c =>
      tryThen (writeData wr c data) fun c => (.eok, c)
  else (.eok, c)
termination_by data.length
decreasing_by simp only [List.length_drop]; omega

def writeString (wr : Writer W) (c : SCtx W) (data : List UInt8) (enc : StringEncoding) :
    Res W :=
  let len := data.length
  if len ≤ enc.smallLimit then
    tryThen (writeByte wr c (enc.smallOpcode + len)) fun c => writeData wr c data
  else if len ≤ enc.mediumLimit then
    let sentLen := len - (enc.smallLimit + 1)
    tryThen (writeBytes wr c [enc.mediumOpcode + sentLen / 2 ^ 8, sentLen]) fun c =>
      writeData wr c data
  else if len ≤ enc.largeLimit then
    let sentLen := len - (enc.mediumLimit + 1)
    tryThen (writeBytes wr c [enc.largeOpcode, sentLen / 2 ^ 8, sentLen]) fun c =>
      writeData wr c data
  else
    tryThen (writeByte wr c enc.chunkedOpcode) fun c =>
      tryThen (writeChunk wr c data) fun c => writeBytes wr c [0x00, 0x00]

/-! ## Containers -/

def openContainer (wr : Writer W) (c : SCtx W) (kind : FrameKind) (ctxid : CtxId)
    (opcode : Int) : Res W :=
  if c.stacksize = bssStackSize - 1 then (.etoodeep, c)
  else writeByte wr (c.push kind ctxid) opcode

def openCollection (wr : Writer W) (c : SCtx W) (len : Int) (ctxid : CtxId)
    (enc : CollEncoding) : Res W :=
  let hastype : Bool := ctxid ≠ .global
  if !ctxid.regular then (.ebadfield, c)
  else
    let r :=
      if len < 0 then
        let opcode := if hastype then enc.variableTypedOpcode else enc.variableUntypedOpcode
        openContainer wr c enc.variableKind ctxid opcode
      else if len = 0 then
        openContainer wr c enc.fixedKind ctxid enc.emptyOpcode
      else if len ≤ enc.smallLimit then
        let opcode := if hastype then enc.smallTypedOpcode else enc.smallUntypedOpcode
        openContainer wr c enc.fixedKind ctxid (len + opcode - 1)
      else
        let opcode := if hastype then enc.longTypedOpcode else enc.longUntypedOpcode
        tryThen (openContainer wr c enc.fixedKind ctxid opcode) fun c =>
          writeUnsignedInteger wr c (len - (enc.smallLimit + 1))
    tryThen r fun c =>
      if len ≠ 0 ∧ hastype then writeByte wr c ctxid.toNat else (.eok, c)

def getNullToken (ctxid : CtxId) : List UInt8 :=
  match ctxid with
  | .int32 => [0x80, 0, 0, 0, 0]
  | .float => [0xff, 0xff, 0xff, 0xff, 0]
  | .double => [0xff, 0xff, 0xff, 0xff, 0xff, 0xff, 0xff, 0xff, 0]
  | _ => [0]

/-! ## Public interface -/

/-- `bss_reset`, on the memory `stack` left by whoever used the context before. -/
def bssReset (c : SCtx W) : SCtx W :=
  { c with
    classcoll := c.classcoll.bsClasscollReset
    written := 0
    acknowledged := 0
    skipped := 0
    broken := false
    stacksize := 0
    acknowledgedStacksize := 0
    stack := c.stack.modify 0 fun f => { f with kind := .top, ctxid := .global } }

def bssInit (w : W) (memory : Stack) : SCtx W :=
  bssReset
    { writerctx := w
      written := 0
      acknowledged := 0
      skipped := 0
      broken := false
      stacksize := 0
      acknowledgedStacksize := 0
      classcoll := ClassColl.bsClasscollInit
      stack := memory }

/-- The end of `bss_close`: drop the frame and count the container in the one
below. -/
def closeFrame (c : SCtx W) : Option (Res W) :=
  commitTransaction { c with stacksize := c.stacksize - 1 }

def bssClose (wr : Writer W) (c : SCtx W) : Option (Res W) :=
  let frame := c.topframe
  match frame.kind with
  | .zmap =>
    starting c fun c => do
      let even ← frame.even
      if !even then some (.ebadmap, c)
      else tryThenO (writeData wr c (getNullToken .unsignedOrString)) closeFrame
  | .zlist =>
    starting c fun c =>
      tryThenO (writeData wr c (getNullToken frame.ctxid)) closeFrame
  | .object | .list | .map =>
    if frame.missing ≠ 0 then some (.esize, c) else closeFrame c
  | .chunked => starting c fun c => tryThenO (writeBytes wr c [0, 0]) closeFrame
  | .top => some (.enocontainer, c)
  | .classdef => some (.einternal, c)

def bssObject (wr : Writer W) (c : SCtx W) (classid : UInt32) : Option (Res W) := do
  let direct : Bool := classid < 0x10
  let found ← c.classcoll.bsClasscollGet classid
  let ctxid ← c.getctxid
  if ctxid ≠ .global then some (.ebadcontext, c)
  else
    match found with
    | none => some (.ebadclassid, c)
    | some p =>
      starting c fun c =>
        let opcode : Int := if direct then 0x60 + classid.toNat else 0x70
        let r := tryThen (openContainer wr c .object .object opcode) fun c =>
          if direct then (.eok, c) else writeUnsignedInteger wr c (classid - 0x10).toNat
        tryThenO r fun c => do
          let cls ← c.classcoll.deref p
          let missing ← cint (cls.nfields + 1)
          commitTransaction (c.modifyTop fun f =>
            { f with missing := missing, content := .object p })

def checkClassdef (cls : BsClass) : Bool :=
  cls.fields.all fun field =>
    !(cls.classname.isSome && field.name.isNone) && field.ctxid.regular

def writeFields (wr : Writer W) (named : Bool) : SCtx W → List BsField → Res W
  | c, [] => (.eok, c)
  | c, field :: fields =>
    let r := if named then writeString wr c (cstring (field.name.getD [])) uisString
      else (.eok, c)
    tryThen r fun c =>
      tryThen (writeByte wr c field.ctxid.toNat) fun c => writeFields wr named c fields

/-- What `bss_class` does to the frame on top, to cancel the element that the
commit is about to count. -/
def uncountFrame (f : Frame) : Option Frame :=
  match f.kind with
  | .zmap => f.toggle
  | .map => do
    let f ← f.toggle
    some { f with missing := f.missing + 1 }
  | .list | .object => some { f with missing := f.missing + 1 }
  | _ => some f

def bssClass (wr : Writer W) (c : SCtx W) (p : ClassPtr) (internal : Bool) :
    Option (Res W) :=
  let cls := p.cls
  let named := cls.classname.isSome
  if !checkClassdef cls then some (.ebadfield, c)
  else if internal then do
    let coll ← c.classcoll.bsClasscollSet p
    some (.eok, { c with classcoll := coll })
  else do
    let ctxid ← c.getctxid
    if ctxid ≠ .global then some (.ebadcontext, c)
    else
      starting c fun c =>
        let r :=
          tryThen (writeByte wr c (if named then 0x71 else 0x72)) fun c =>
          tryThen (writeUnsignedInteger wr c cls.classid.toNat) fun c =>
          tryThen (if named then writeString wr c (cstring (cls.classname.getD [])) uisString
            else (.eok, c)) fun c =>
          tryThen (writeUnsignedInteger wr c cls.nfields) fun c =>
          writeFields wr named c cls.fields
        tryThenO r fun c => do
          let coll ← c.classcoll.bsClasscollSet p
          let c := { c with classcoll := coll }
          let f ← uncountFrame c.topframe
          commitTransaction (c.modifyTop fun _ => f)

def bssMap (wr : Writer W) (c : SCtx W) (len : Int) (ctxid : CtxId) : Option (Res W) := do
  let context ← c.getctxid
  match (match context with
    | .global => some globalMap
    | .listOrMap => some listmapMap
    | _ => none) with
  | none => some (.ebadcontext, c)
  | some enc =>
    if !ctxid.regular then some (.ebadmap, c)
    else
      starting c fun c =>
        tryThenO (openCollection wr c len ctxid enc) fun c => do
          let missing ← if 0 ≤ len then cint (len * 2 + 1) else some c.topframe.missing
          commitTransaction (c.modifyTop fun f =>
            { f with missing := missing, content := .map false })

def bssList (wr : Writer W) (c : SCtx W) (len : Int) (ctxid : CtxId) : Option (Res W) := do
  let context ← c.getctxid
  match (match context with
    | .global => some globalList
    | .listOrMap => some listmapList
    | _ => none) with
  | none => some (.ebadcontext, c)
  | some enc =>
    if !ctxid.regular then some (.ebadctxid, c)
    else
      starting c fun c =>
        tryThenO (openCollection wr c len ctxid enc) fun c => do
          let missing ← if 0 ≤ len then cint (len + 1) else some c.topframe.missing
          commitTransaction (c.modifyTop fun f => { f with missing := missing })

def stringEncoding : CtxId → Option StringEncoding
  | .global => some globalString
  | .unsignedOrString => some uisString
  | _ => none

def bssChunked (wr : Writer W) (c : SCtx W) : Option (Res W) := do
  let context ← c.getctxid
  match stringEncoding context with
  | none => some (.ebadcontext, c)
  | some enc =>
    starting c fun c =>
      tryThenO (openContainer wr c .chunked .chunked enc.chunkedOpcode) commitTransaction

def bssChunk (wr : Writer W) (c : SCtx W) (data : List UInt8) : Option (Res W) :=
  if c.topframe.ctxid ≠ .chunked then some (.ebadcontext, c)
  else if data.length = 0 then some (.einvalid, c)
  else starting c fun c => tryThenO (writeChunk wr c data) commitTransaction

def bssInt (wr : Writer W) (c : SCtx W) (x : Int64) : Option (Res W) := do
  let context ← c.getctxid
  match context with
  | .global =>
    starting c fun c =>
      tryThenO (writeInteger wr c x.toInt globalInteger) commitTransaction
  | .number =>
    starting c fun c =>
      tryThenO (writeInteger wr c x.toInt numberInteger) commitTransaction
  | .unsignedOrString =>
    if x.toInt < 0 then some (.ebadcontext, c)
    else
      starting c fun c =>
        tryThenO (writeUnsignedInteger wr c x.toInt) commitTransaction
  | .int32 =>
    let y := toSigned (2 ^ 31) (x.toInt % 2 ^ 32)
    if x.toInt ≠ y then some (.eoutofbounds, c)
    else
      starting c fun c =>
        let r := tryThen (writeIntegerBigEndian wr c y 4) fun c =>
          if y = -2 ^ 31 then writeByte wr c 0x01 else (.eok, c)
        tryThenO r commitTransaction
  | _ => some (.ebadcontext, c)

def bssBool (wr : Writer W) (c : SCtx W) (x : Bool) : Option (Res W) := do
  let context ← c.getctxid
  if context ≠ .global then some (.ebadcontext, c)
  else
    starting c fun c =>
      tryThenO (writeByte wr c (if x then 0x01 else 0x02)) commitTransaction

def bssDouble [CFloat] (wr : Writer W) (c : SCtx W) (x : UInt64) : Option (Res W) := do
  let context ← c.getctxid
  match context with
  | .float =>
    starting c fun c =>
      let f := CFloat.toFloat x
      let r := tryThen (writeFloat32 wr c f) fun c =>
        if f = 0xffffffff then writeByte wr c 0x01 else (.eok, c)
      tryThenO r commitTransaction
  | .double =>
    starting c fun c =>
      let r := tryThen (writeFloat64 wr c x) fun c =>
        if x = 0xffffffffffffffff then writeByte wr c 0x01 else (.eok, c)
      tryThenO r commitTransaction
  | _ =>
    let y := CFloat.toInt64 x
    if CFloat.eq (CFloat.ofInt64 y) x then bssInt wr c y
    else
      match context with
      | .global =>
        starting c fun c =>
          tryThenO (writeFloat wr c x globalFloatOpcodes) commitTransaction
      | .number =>
        starting c fun c =>
          tryThenO (writeFloat wr c x numberFloatOpcodes) commitTransaction
      | _ => some (.ebadcontext, c)

def bssLstring (wr : Writer W) (c : SCtx W) (data : List UInt8) : Option (Res W) := do
  let context ← c.getctxid
  match stringEncoding context with
  | none => some (.ebadcontext, c)
  | some enc => starting c fun c => tryThenO (writeString wr c data enc) commitTransaction

def bssString (wr : Writer W) (c : SCtx W) (data : List UInt8) : Option (Res W) :=
  bssLstring wr c (cstring data)

def bssNull (wr : Writer W) (c : SCtx W) : Option (Res W) := do
  let top := c.topframe
  if top.kind = .zlist then some (.einvalid, c)
  else
    let isKey ← top.onKey
    if isKey then some (.einvalid, c)
    else
      let context ← c.getctxid
      starting c fun c => tryThenO (writeData wr c (getNullToken context)) commitTransaction

def bssRaw (wr : Writer W) (c : SCtx W) (data : List UInt8) : Option (Res W) :=
  starting c fun c => tryThenO (writeData wr c data) commitTransaction

end

/-! ## Operations as data -/

inductive Op
  | close
  | object (classid : UInt32)
  | classdef (p : ClassPtr) (internal : Bool)
  | map (len : Int) (ctxid : CtxId)
  | list (len : Int) (ctxid : CtxId)
  | chunked
  | chunk (data : List UInt8)
  | int (x : Int64)
  | bool (x : Bool)
  | double (x : UInt64)
  | lstring (data : List UInt8)
  | null
  | raw (data : List UInt8)

def Op.apply {W : Type} [CFloat] (wr : Writer W) (c : SCtx W) : Op → Option (Res W)
  | .close => bssClose wr c
  | .object classid => bssObject wr c classid
  | .classdef p internal => bssClass wr c p internal
  | .map len ctxid => bssMap wr c len ctxid
  | .list len ctxid => bssList wr c len ctxid
  | .chunked => bssChunked wr c
  | .chunk data => bssChunk wr c data
  | .int x => bssInt wr c x
  | .bool x => bssBool wr c x
  | .double x => bssDouble wr c x
  | .lstring data => bssLstring wr c data
  | .null => bssNull wr c
  | .raw data => bssRaw wr c data

def acceptAll : Writer (List UInt8) := fun out buffer => (buffer.length, out ++ buffer)

end Mihini.Bysant
