import Mihini.Bysant.Common

/-!
# The Bysant deserializer

`bysantd.c`, function by function.  A decoding function is given the memory its
`buffer` points to and the `length` it may look at, which are different things:
a negative length means that no check is made, and a wrong length makes the code
read memory it was not given.  Reading outside `buffer` is `none`.

Hosts are little-endian, so every multi-byte number of a stream is big-endian
after the swap of `ntoh`.
-/

namespace Mihini.Bysant

open Lib.Bytes

def bsdStackSize : Nat := 16

inductive BsdStatus
  | eok
  | enotimpl
  | einvalid
  | ebadcontext
  | einvopcode
  | ebadclassid
  | etoodeep
  | ememory
  | einternal
  deriving Repr, DecidableEq

inductive DataType
  | error
  | close
  | null
  | int
  | bool
  | double
  | string
  | chunkedString
  | chunk
  | list
  | zlist
  | map
  | zmap
  | object
  | classdef
  deriving Repr, DecidableEq

inductive DataKind
  | toplevel
  | listitem
  | mapkey
  | mapvalue
  | objfield
  | chunk
  | newcontainer
  deriving Repr, DecidableEq

/-- The union of `bsd_data_t`.  Strings and chunks are the bytes they point to. -/
inductive Content
  | junk
  | int (i : Int)
  | bool (b : Bool)
  | double (d : UInt64)
  | length (n : Nat)
  | classdef (p : ClassPtr)
  | contType (t : DataType)
  | error (e : BsdStatus)
  | bytes (data : List UInt8)
  deriving Repr, DecidableEq

/-- A decoded element (`bsd_data_t`). -/
structure Data where
  type : DataType
  kind : DataKind
  fieldname : Option (List UInt8)
  content : Content
  deriving Repr, DecidableEq

namespace Data

def put (x : Data) (type : DataType) (content : Content) : Data :=
  { x with type := type, content := content }

def intContent (x : Data) : Option Int :=
  match x.content with
  | .int i => some i
  | _ => none

def bytesContent (x : Data) : Option (List UInt8) :=
  match x.content with
  | .bytes data => some data
  | _ => none

end Data

/-- A deserialization context (`bsd_ctx_t`).  `nalloc` numbers the blocks that
decoded class definitions are allocated in. -/
structure DCtx where
  read : Int
  stacksize : Nat
  classcoll : ClassColl
  stack : Stack
  nalloc : Nat

namespace DCtx

def topframe (ctx : DCtx) : Frame := ctx.stack ctx.stacksize

def pop (ctx : DCtx) : DCtx := { ctx with stacksize := ctx.stacksize - 1 }

end DCtx

abbrev DRes := Int × Data × DCtx

def bsdError (x : Data) (ctx : DCtx) (cause : BsdStatus) : Option DRes :=
  some (0, x.put .error (.error cause), ctx)

/-! ## Frames -/

def bsdGetFrameDataKind (f : Frame) : Option DataKind :=
  match f.kind with
  | .classdef | .top => some .toplevel
  | .map | .zmap => do
    let even ← f.even
    some (if even then .mapvalue else .mapkey)
  | .object => some .objfield
  | .list | .zlist => some .listitem
  | .chunked => some .chunk

def bsdTypeFromFrameKind : FrameKind → DataType
  | .map => .map
  | .zmap => .zmap
  | .object => .object
  | .list => .list
  | .zlist => .zlist
  | .chunked => .chunkedString
  | .top | .classdef => .error

def dOpenContainer (ctx : DCtx) (kind : FrameKind) (ctxid : CtxId) (missing : Int) :
    Option (BsdStatus × DCtx) :=
  if ctx.stacksize = bsdStackSize - 1 then some (.etoodeep, ctx)
  else do
    let top := ctx.stacksize + 1
    let missing ← if kind.isMap then cint (missing * 2) else some missing
    some (.eok, { ctx with
      stacksize := top
      stack := ctx.stack.modify top fun f =>
        { kind := kind
          ctxid := ctxid
          missing := missing
          content := if kind.isMap then .map true else f.content } })

/-- A `size_t` passed where an `int` is expected. -/
def intOfSize (n : Nat) : Int := toSigned (2 ^ 31) ((n : Int) % 2 ^ 32)

/-- Instantiates a class.  When no frame is left the class is stored through a
null pointer. -/
def bsdObject (ctx : DCtx) (x : Data) (classid : UInt32) : Option (BsdStatus × Data × DCtx) := do
  let found ← ctx.classcoll.bsClasscollGet classid
  match found with
  | none => some (.ebadclassid, x, ctx)
  | some klass =>
    let x := x.put .object (.classdef klass)
    let cls ← ctx.classcoll.deref klass
    let (status, ctx) ← dOpenContainer ctx .object .global cls.nfields
    if status = .eok then
      some (.eok, x, { ctx with
        stack := ctx.stack.modify ctx.stacksize fun f => { f with content := .object klass } })
    else none

/-! ## The checking macros -/

def checkLength (length n : Int) (x : Data) (ctx : DCtx) (k : Option DRes) : Option DRes :=
  if 0 ≤ length ∧ length < n then some (-n, x, ctx) else k

def checkOpen (x : Data) (r : Option (BsdStatus × DCtx)) (k : DCtx → Option DRes) :
    Option DRes := do
  let (status, ctx) ← r
  if status = .eok then k ctx else bsdError x ctx status

def checkDecode (r : Option DRes) (k : Data → DCtx → Option DRes) : Option DRes := do
  let (nread, x, ctx) ← r
  if nread ≠ 0 then some (nread, x, ctx)
  else if x.type = .error then some (0, x, ctx)
  else k x ctx

/-- `CHECK_SUBDECODE`: a failed inner decoding gives `-nread - subread`. -/
def checkSubdecode (nread : Int) (r : Option DRes) (expected : DataType)
    (k : Int → Data → DCtx → Option DRes) : Option DRes := do
  let (subread, x, ctx) ← r
  if subread ≤ 0 then some (-nread - subread, x, ctx)
  else if x.type ≠ expected then bsdError x ctx .einvalid
  else k (nread + subread) x ctx

/-- The first `n` bytes at `buffer`. -/
def bytesAt (buffer : List UInt8) (n : Nat) : Option (List UInt8) :=
  if n ≤ buffer.length then some (buffer.take n) else none

def opcodeAt (buffer : List UInt8) : Option Int := buffer.head?.map fun b => (b.toNat : Int)

/-- An element of `n` bytes that is decoded once they are all there. -/
def decodeFixed (ctx : DCtx) (x : Data) (buffer : List UInt8) (length : Int) (n : Nat)
    (k : List UInt8 → Data) : Option DRes :=
  checkLength length n x ctx do
    let bytes ← bytesAt buffer n
    some (n, k bytes, ctx)

/-- An integer of `n` bytes: a function of what follows the opcode. -/
def decodeItem (ctx : DCtx) (x : Data) (buffer : List UInt8) (length : Int) (n : Nat)
    (k : Int → Int) : Option DRes :=
  decodeFixed ctx x buffer length n fun bytes =>
    x.put .int (.int (k (beValue (bytes.drop 1))))

/-- A text after a header of `header` bytes, which has to be there first. -/
def decodeText (ctx : DCtx) (x : Data) (buffer : List UInt8) (length : Int) (header : Nat)
    (len : List UInt8 → Nat) : Option DRes :=
  checkLength length header x ctx do
    let bytes ← bytesAt buffer header
    decodeFixed ctx x buffer length (header + len bytes) fun bytes =>
      x.put .string (.bytes (bytes.drop header))

/-! ## Decoding helpers -/

def decodeInteger (ctx : DCtx) (x : Data) (buffer : List UInt8) (length : Int)
    (enc : IntegerEncoding) : Option DRes := do
  let opcode ← opcodeAt buffer
  checkLength length 1 x ctx <|
    let x := { x with type := .int }
    let item := decodeItem ctx x buffer length
    if enc.tinyZeroOpcode + enc.tinyMin ≤ opcode ∧ opcode ≤ enc.tinyZeroOpcode + enc.tinyMax then
      item 1 fun _ => opcode - enc.tinyZeroOpcode
    else if enc.smallPosOpcode ≤ opcode ∧ opcode < enc.smallNegOpcode then
      item 2 fun v => (opcode - enc.smallPosOpcode) * 2 ^ 8 + v + enc.tinyMax + 1
    else if enc.smallNegOpcode ≤ opcode ∧ opcode < enc.mediumPosOpcode then
      item 2 fun v => -((opcode - enc.smallNegOpcode) * 2 ^ 8 + v) + enc.tinyMin - 1
    else if enc.mediumPosOpcode ≤ opcode ∧ opcode < enc.mediumNegOpcode then
      item 3 fun v => (opcode - enc.mediumPosOpcode) * 2 ^ 16 + v + enc.smallMax + 1
    else if enc.mediumNegOpcode ≤ opcode ∧ opcode < enc.largePosOpcode then
      item 3 fun v => -((opcode - enc.mediumNegOpcode) * 2 ^ 16 + v) + enc.smallMin - 1
    else if enc.largePosOpcode ≤ opcode ∧ opcode < enc.largeNegOpcode then
      item 4 fun v => (opcode - enc.largePosOpcode) * 2 ^ 24 + v + enc.mediumMax + 1
    else if enc.largeNegOpcode ≤ opcode ∧ opcode ≤ enc.lastLargeNegOpcode then
      item 4 fun v => -((opcode - enc.largeNegOpcode) * 2 ^ 24 + v) + enc.mediumMin - 1
    else if enc.int32Opcode = opcode then item 5 (toSigned (2 ^ 31))
    else if enc.int64Opcode = opcode then item 9 (toSigned (2 ^ 63))
    else some (0, x, ctx)

def decodeString (ctx : DCtx) (x : Data) (buffer : List UInt8) (length : Int)
    (enc : StringEncoding) : Option DRes := do
  let opcode ← opcodeAt buffer
  checkLength length 1 x ctx <|
    let x := { x with type := .string }
    let text := decodeText ctx x buffer length
    if enc.smallOpcode ≤ opcode ∧ opcode < enc.mediumOpcode then
      text 1 fun _ => (opcode - enc.smallOpcode).toNat
    else if enc.mediumOpcode ≤ opcode ∧ opcode < enc.largeOpcode then
      text 2 fun bytes =>
        ((opcode - enc.mediumOpcode) * 2 ^ 8 + beValue (bytes.drop 1) + enc.smallLimit + 1).toNat
    else if opcode = enc.largeOpcode then
      text 3 fun bytes => (beValue (bytes.drop 1) + enc.mediumLimit + 1).toNat
    else if opcode = enc.chunkedOpcode then
      checkOpen x (dOpenContainer ctx .chunked .chunked (-1)) fun ctx =>
        some (1, { x with type := .chunkedString }, ctx)
    else some (0, x, ctx)

def decodeNull (ctx : DCtx) (x : Data) : Option (Data × DCtx) :=
  let f := ctx.topframe
  let close : Data × DCtx :=
    (x.put .close (.contType (bsdTypeFromFrameKind f.kind)), ctx.pop)
  match f.kind with
  | .zlist => some close
  | .zmap => do
    let even ← f.even
    some (if even then close else ({ x with type := .null }, ctx))
  | _ => some ({ x with type := .null }, ctx)

/-- The end of a decoding function that met a null of `n` bytes. -/
def decodedNull (n : Int) (ctx : DCtx) (x : Data) : Option DRes := do
  let (x, ctx) ← decodeNull ctx x
  some (n, x, ctx)

/-- The part of `bsd_uis` after its strings. -/
def decodeUnsigned (opcode : Int) (ctx : DCtx) (x : Data) (buffer : List UInt8) (length : Int) :
    Option DRes :=
  let x := { x with type := .int }
  let item := decodeItem ctx x buffer length
  if 0x3b ≤ opcode ∧ opcode ≤ 0xc6 then item 1 fun _ => opcode - 0x3b
  else if 0xc7 ≤ opcode ∧ opcode ≤ 0xe6 then
    item 2 fun v => (opcode - 0xc7) * 2 ^ 8 + v + utiMax + 1
  else if 0xe7 ≤ opcode ∧ opcode ≤ 0xf6 then
    item 3 fun v => (opcode - 0xe7) * 2 ^ 16 + v + usiMax + 1
  else if 0xf7 ≤ opcode ∧ opcode ≤ 0xfe then
    item 4 fun v => (opcode - 0xf7) * 2 ^ 24 + v + umiMax + 1
  else if 0xff = opcode then item 5 fun v => v
  else if 0x00 = opcode then decodedNull 1 ctx x
  else bsdError x ctx .einvalid

def bsdUis (ctx : DCtx) (x : Data) (buffer : List UInt8) (length : Int) : Option DRes :=
  checkLength length 1 x ctx do
    let opcode ← opcodeAt buffer
    checkDecode (decodeString ctx x buffer length uisString) fun x ctx =>
      decodeUnsigned opcode ctx x buffer length

/-- The end of `decodeCollection` for a container of `len` elements. -/
def openFixed (nread : Int) (ctx : DCtx) (x : Data) (enc : CollEncoding) (ctxid : CtxId)
    (len : Nat) : Option DRes :=
  let x := x.put (bsdTypeFromFrameKind enc.fixedKind) (.length len)
  checkOpen x (dOpenContainer ctx enc.fixedKind ctxid (intOfSize len)) fun ctx =>
    some (nread, x, ctx)

def openVariable (nread : Int) (ctx : DCtx) (x : Data) (enc : CollEncoding) (ctxid : CtxId) :
    Option DRes :=
  let x := { x with type := bsdTypeFromFrameKind enc.variableKind }
  checkOpen x (dOpenContainer ctx enc.variableKind ctxid (-1)) fun ctx => some (nread, x, ctx)

/-- Long containers decode their length from the bytes after the opcode, with
`length + 1` where `length - 1` bytes are left. -/
def decodeCollection (ctx : DCtx) (x : Data) (buffer : List UInt8) (length : Int)
    (enc : CollEncoding) : Option DRes := do
  let opcode ← opcodeAt buffer
  checkLength length 1 x ctx <|
    if opcode = enc.emptyOpcode then openFixed 1 ctx x enc .global 0
    else if enc.smallUntypedOpcode ≤ opcode
        ∧ opcode ≤ enc.smallUntypedOpcode + enc.smallLimit - 1 then
      openFixed 1 ctx x enc .global (opcode - enc.smallUntypedOpcode + 1).toNat
    else if opcode = enc.longUntypedOpcode then
      checkSubdecode 1 (bsdUis ctx x (buffer.drop 1) (length + 1)) .int fun nread x ctx => do
        let i ← x.intContent
        openFixed nread ctx x enc .global (i + enc.smallLimit + 1).toNat
    else if opcode = enc.variableUntypedOpcode then openVariable 1 ctx x enc .global
    else if enc.smallTypedOpcode ≤ opcode
        ∧ opcode ≤ enc.smallTypedOpcode + enc.smallLimit - 1 then
      checkLength length 2 x ctx do
        let ctxid ← buffer[1]?
        openFixed 2 ctx x enc (.ofByte ctxid) (opcode - enc.smallTypedOpcode + 1).toNat
    else if opcode = enc.longTypedOpcode then
      checkSubdecode 1 (bsdUis ctx x (buffer.drop 1) (length + 1)) .int fun nread x ctx =>
        checkLength length (nread + 1) x ctx do
          let i ← x.intContent
          let ctxid ← buffer[nread.toNat]?
          openFixed (nread + 1) ctx x enc (.ofByte ctxid) (i + enc.smallLimit + 1).toNat
    else if opcode = enc.variableTypedOpcode then
      checkLength length 2 x ctx do
        let ctxid ← buffer[1]?
        openVariable 2 ctx x enc (.ofByte ctxid)
    else some (0, x, ctx)

/-- The fields of a class definition.  The code passes over them twice, first to
compute the size of the block it allocates; both passes read the same bytes. -/
def decodeFields (named : Bool) (buffer : List UInt8) (length : Int)
    (k : Int → Data → DCtx → List BsField → Option DRes) :
    Nat → Int → Data → DCtx → List BsField → Option DRes
  | 0, nread, x, ctx, fields => k nread x ctx fields
  | n + 1, nread, x, ctx, fields =>
    let ctxidByte (nread : Int) (x : Data) (ctx : DCtx) (name : Option (List UInt8)) :=
      checkLength length (nread + 1) x ctx do
        let ctxid ← buffer[nread.toNat]?
        decodeFields named buffer length k n (nread + 1) x ctx
          (fields ++ [{ name := name, ctxid := .ofByte ctxid }])
    if named then
      checkSubdecode nread (bsdUis ctx x (buffer.drop nread.toNat) (length - nread)) .string
        fun nread x ctx => do
          let name ← x.bytesContent
          ctxidByte nread x ctx (some (cstring name))
    else ctxidByte nread x ctx none

def bsdAddClass (ctx : DCtx) (classdef : ClassPtr) : Option DCtx := do
  let coll ← ctx.classcoll.bsClasscollSet classdef
  some { ctx with classcoll := coll }

def finishClass (classid : Int) (name : Option (List UInt8)) (nread : Int) (x : Data)
    (ctx : DCtx) (fields : List BsField) : Option DRes := do
  let cls : BsClass :=
    { classid := UInt32.ofNat classid.toNat
      classname := name
      mode := .managed
      fields := fields }
  let p : ClassPtr := { block := ctx.nalloc, cls := cls }
  let ctx ← bsdAddClass { ctx with nalloc := ctx.nalloc + 1 } p
  some (nread, x.put .classdef (.classdef p), ctx)

def decodeClassFields (named : Bool) (buffer : List UInt8) (length : Int) (classid : Int)
    (nread : Int) (x : Data) (ctx : DCtx) (name : Option (List UInt8)) : Option DRes :=
  checkSubdecode nread (bsdUis ctx x (buffer.drop nread.toNat) (length - nread)) .int
    fun nread x ctx => do
      let nfields ← x.intContent
      decodeFields named buffer length (finishClass classid name) nfields.toNat nread x ctx []

def decodeClass (ctx : DCtx) (x : Data) (buffer : List UInt8) (length : Int) : Option DRes :=
  checkLength length 1 x ctx do
    let opcode ← opcodeAt buffer
    if opcode ≠ 0x71 ∧ opcode ≠ 0x72 then some (0, x, ctx)
    else
      let named : Bool := opcode = 0x71
      checkSubdecode 1 (bsdUis ctx x (buffer.drop 1) (length - 1)) .int fun nread x ctx => do
        let classid ← x.intContent
        if named then
          checkSubdecode nread (bsdUis ctx x (buffer.drop nread.toNat) (length - nread)) .string
            fun nread x ctx => do
              let name ← x.bytesContent
              decodeClassFields named buffer length classid nread x ctx (some (cstring name))
        else decodeClassFields named buffer length classid nread x ctx none

/-! ## Decoding routines, one per context -/

def decodeFloats [CFloat] (opcode : Int) (ctx : DCtx) (x : Data) (buffer : List UInt8)
    (length : Int) : Option DRes :=
  if opcode = 0xfe then
    decodeFixed ctx x buffer length 5 fun bytes =>
      x.put .double (.double (CFloat.ofFloat (UInt32.ofNat (beValue (bytes.drop 1)).toNat)))
  else if opcode = 0xff then
    decodeFixed ctx x buffer length 9 fun bytes =>
      x.put .double (.double (UInt64.ofNat (beValue (bytes.drop 1)).toNat))
  else bsdError x ctx .einvalid

/-- The end of `bsd_global` for an instance of a class. -/
def instantiate (nread : Int) (x : Data) (ctx : DCtx) (classid : UInt32) : Option DRes := do
  let (status, x, ctx) ← bsdObject ctx x classid
  if status = .eok then some (nread, x, ctx) else bsdError x ctx status

/-- The part of `bsd_global` after numbers, strings, collections and classes. -/
def decodeOther [CFloat] (opcode : Int) (ctx : DCtx) (x : Data) (buffer : List UInt8)
    (length : Int) : Option DRes :=
  if 0x60 ≤ opcode ∧ opcode ≤ 0x6f then
    instantiate 1 x ctx (UInt32.ofNat (opcode - 0x60).toNat)
  else if opcode = 0x00 then decodedNull 1 ctx x
  else if opcode = 0x01 then some (1, x.put .bool (.bool true), ctx)
  else if opcode = 0x02 then some (1, x.put .bool (.bool false), ctx)
  else if opcode = 0x70 then
    checkSubdecode 1 (bsdUis ctx x (buffer.drop 1) (length - 1)) .int fun nread x ctx => do
      let i ← x.intContent
      instantiate nread x ctx (UInt32.ofNat (i + 0x10).toNat)
  else decodeFloats opcode ctx x buffer length

def bsdGlobal [CFloat] (ctx : DCtx) (x : Data) (buffer : List UInt8) (length : Int) :
    Option DRes :=
  checkLength length 1 x ctx do
    let opcode ← opcodeAt buffer
    checkDecode (decodeInteger ctx x buffer length globalInteger) fun x ctx =>
    checkDecode (decodeString ctx x buffer length globalString) fun x ctx =>
    checkDecode (decodeCollection ctx x buffer length globalList) fun x ctx =>
    checkDecode (decodeCollection ctx x buffer length globalMap) fun x ctx =>
    checkDecode (decodeClass ctx x buffer length) fun x ctx =>
      decodeOther opcode ctx x buffer length

def bsdChunked (ctx : DCtx) (x : Data) (buffer : List UInt8) (length : Int) : Option DRes :=
  checkLength length 2 x ctx do
    let header ← bytesAt buffer 2
    let chunksize := (beValue header).toNat
    if chunksize = 0 then some (2, x.put .close (.contType .chunkedString), ctx.pop)
    else
      decodeFixed ctx x buffer length (chunksize + 2) fun bytes =>
        x.put .chunk (.bytes (bytes.drop 2))

def bsdNumber [CFloat] (ctx : DCtx) (x : Data) (buffer : List UInt8) (length : Int) :
    Option DRes :=
  checkLength length 1 x ctx do
    let opcode ← opcodeAt buffer
    checkDecode (decodeInteger ctx x buffer length numberInteger) fun x ctx =>
      if opcode = 0x00 then decodedNull 1 ctx x else decodeFloats opcode ctx x buffer length

/-- A word of `n` bytes with one value that escapes to the byte after it: zero
there is null, one is the value itself. -/
def decodeEscaped (ctx : DCtx) (x : Data) (buffer : List UInt8) (length : Int) (n : Nat)
    (escape : Int) (k : Int → Data) : Option DRes :=
  checkLength length n x ctx do
    let word ← bytesAt buffer n
    let x := k (beValue word)
    if beValue word = escape then
      checkLength length (n + 1) x ctx do
        let b ← buffer[n]?
        if b = 0 then decodedNull (n + 1) ctx x
        else if b = 1 then some (n + 1, x, ctx)
        else bsdError x ctx .einvalid
    else some (n, x, ctx)

def bsdInt32 (ctx : DCtx) (x : Data) (buffer : List UInt8) (length : Int) : Option DRes :=
  decodeEscaped ctx x buffer length 4 0x80000000 fun u =>
    x.put .int (.int (toSigned (2 ^ 31) u))

def bsdFloat [CFloat] (ctx : DCtx) (x : Data) (buffer : List UInt8) (length : Int) :
    Option DRes :=
  decodeEscaped ctx x buffer length 4 0xffffffff fun u =>
    x.put .double (.double (CFloat.ofFloat (UInt32.ofNat u.toNat)))

def bsdDouble (ctx : DCtx) (x : Data) (buffer : List UInt8) (length : Int) : Option DRes :=
  decodeEscaped ctx x buffer length 8 0xffffffffffffffff fun u =>
    x.put .double (.double (UInt64.ofNat u.toNat))

def bsdListmap (ctx : DCtx) (x : Data) (buffer : List UInt8) (length : Int) : Option DRes :=
  checkLength length 1 x ctx do
    let opcode ← opcodeAt buffer
    checkDecode (decodeCollection ctx x buffer length listmapList) fun x ctx =>
    checkDecode (decodeCollection ctx x buffer length listmapMap) fun x ctx =>
      if opcode = 0x00 then decodedNull 1 ctx x else bsdError x ctx .einvalid

/-! ## Public interface -/

def describe (ctx : DCtx) (x : Data) : Option Data := do
  let f := ctx.topframe
  let kind ← bsdGetFrameDataKind f
  let x := { x with kind := kind }
  if kind = .objfield then
    let cls ← f.classdef ctx.classcoll
    let field ← cls.fieldAt (cls.nfields - (f.missing + 1))
    some { x with fieldname := field.name }
  else some x

/-- Counts the element just read in frame `f`. -/
def countElement (f : Frame) : Option Frame :=
  let f := if 0 < f.missing then { f with missing := f.missing - 1 } else f
  if f.kind.isMap then f.toggle else some f

def bsdContext [CFloat] (ctxid : CtxId) (ctx : DCtx) (x : Data) (buffer : List UInt8)
    (length : Int) : Option DRes :=
  match ctxid with
  | .global => bsdGlobal ctx x buffer length
  | .unsignedOrString => bsdUis ctx x buffer length
  | .number => bsdNumber ctx x buffer length
  | .int32 => bsdInt32 ctx x buffer length
  | .float => bsdFloat ctx x buffer length
  | .double => bsdDouble ctx x buffer length
  | .listOrMap => bsdListmap ctx x buffer length
  | .chunked => bsdChunked ctx x buffer length
  | _ => bsdError x ctx .ebadcontext

/-- The end of `bsd_read`: count the element in the frame `top` it was read in,
and say where it stands. -/
def bsdReadDone (top : Nat) (nread : Int) (x : Data) (ctx : DCtx) : Option DRes :=
  if nread < 0 ∨ x.type = .error then some (nread, x, ctx)
  else do
    let f ← if x.type = .classdef then some (ctx.stack top) else countElement (ctx.stack top)
    let ctx := { ctx with stack := ctx.stack.modify top fun _ => f }
    let x ← if top < ctx.stacksize then some { x with kind := .newcontainer }
      else describe ctx x
    some (nread, x, { ctx with read := ctx.read + nread })

def bsdRead [CFloat] (ctx : DCtx) (x : Data) (buffer : List UInt8) (length : Int) :
    Option DRes :=
  let f := ctx.topframe
  let x := { x with type := .null }
  if f.missing = 0 then do
    let ctx := ctx.pop
    let x ← describe ctx (x.put .close (.contType (bsdTypeFromFrameKind f.kind)))
    some (0, x, ctx)
  else do
    let ctxid ← f.getctxid ctx.classcoll
    let (nread, x, ctx') ← bsdContext ctxid ctx x buffer length
    bsdReadDone ctx.stacksize nread x ctx'

def bsdInit (memory : Stack) : DCtx where
  read := 0
  stacksize := 0
  classcoll := ClassColl.bsClasscollInit
  stack := memory.modify 0 fun f => { f with kind := .top, ctxid := .global, missing := -1 }
  nalloc := 0

end Mihini.Bysant
