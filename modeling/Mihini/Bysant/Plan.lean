import Mihini.Bysant.Serializer

/-!
# What an operation does, as data

An operation of the serializer checks its arguments against the frame on top,
hands some blocks of bytes to the writer one after the other, and then updates
the stack.  `opPlan` computes this from the frame on top and the classes alone,
and `Op.apply_eq` says that the code carries the plan out.  The proofs about whole
sessions only look at plans.
-/

namespace Mihini.Bysant

open Lib.Bytes Option

section
variable {W : Type}

/-! ## Sequences of blocks -/

/-- `TRY` with nothing after it. -/
def tried (r : Res W) : Res W := tryThen r fun c => (.eok, c)

/-- Blocks handed to the writer one after the other, each under `TRY`. -/
def writeSegs (wr : Writer W) : SCtx W → List (List UInt8) → Res W
  | c, [] => (.eok, c)
  | c, seg :: segs => tryThen (writeData wr c seg) fun c => writeSegs wr c segs

theorem abandon_abandon (e : Status) (c : SCtx W) :
    abandon e (abandon e c).2 = abandon e c := by
  by_cases h : c.written = c.acknowledged <;> simp [abandon, h]

theorem tryThen_tried (r : Res W) (k : SCtx W → Res W) :
    tryThen (tried r) k = tryThen r k := by
  obtain ⟨st, c⟩ := r
  cases st
  case eok => rfl
  case eagain => rfl
  all_goals exact abandon_abandon _ c

theorem tryThenO_tried (r : Res W) (k : SCtx W → Option (Res W)) :
    tryThenO (tried r) k = tryThenO r k := by
  obtain ⟨st, c⟩ := r
  cases st
  case eok => rfl
  case eagain => rfl
  all_goals exact congrArg some (abandon_abandon _ c)

theorem tryThen_assoc (r : Res W) (f g : SCtx W → Res W) :
    tryThen (tryThen r f) g = tryThen r fun c => tryThen (f c) g := by
  obtain ⟨st, c⟩ := r
  cases st
  case eok => rfl
  case eagain => rfl
  all_goals exact abandon_abandon _ c

theorem tried_tryThen (r : Res W) (k : SCtx W → Res W) :
    tried (tryThen r k) = tryThen r fun c => tried (k c) := tryThen_assoc r k _

@[simp] theorem tried_writeSegs (wr : Writer W) (c : SCtx W) (segs : List (List UInt8)) :
    tried (writeSegs wr c segs) = writeSegs wr c segs := by
  induction segs generalizing c with
  | nil => rfl
  | cons seg segs ih =>
    simp only [writeSegs, tried_tryThen]
    congr 1
    funext c
    exact ih c

theorem writeSegs_append (wr : Writer W) (c : SCtx W) (segs segs' : List (List UInt8)) :
    writeSegs wr c (segs ++ segs')
      = tryThen (writeSegs wr c segs) fun c => writeSegs wr c segs' := by
  induction segs generalizing c with
  | nil => rfl
  | cons seg segs ih =>
    simp only [List.cons_append, writeSegs, tryThen_assoc]
    congr 1
    funext c
    exact ih c

/-! ## Emission

`Emits wr f segs` says that `f`, under `TRY`, hands exactly the blocks `segs` to
the writer and does nothing else. -/

def Emits (wr : Writer W) (f : SCtx W → Res W) (segs : List (List UInt8)) : Prop :=
  ∀ c, tried (f c) = writeSegs wr c segs

namespace Emits

variable {wr : Writer W}

theorem nil : Emits wr (fun c => (.eok, c)) [] := fun _ => rfl

theorem data (buffer : List UInt8) : Emits wr (fun c => writeData wr c buffer) [buffer] :=
  fun _ => rfl

theorem seq {f g : SCtx W → Res W} {segs segs' : List (List UInt8)}
    (hf : Emits wr f segs) (hg : Emits wr g segs') :
    Emits wr (fun c => tryThen (f c) g) (segs ++ segs') := by
  intro c
  rw [writeSegs_append, ← hf c, tryThen_tried, tried_tryThen]
  congr 1
  funext c
  exact hg c

theorem ite {f g : SCtx W → Res W} {segs segs' : List (List UInt8)} (p : Prop) [Decidable p]
    (hf : Emits wr f segs) (hg : Emits wr g segs') :
    Emits wr (fun c => if p then f c else g c) (if p then segs else segs') := by
  intro c
  split
  · exact hf c
  · exact hg c

theorem byte (k : Int) : Emits wr (fun c => writeByte wr c k) [[Lib.Bytes.byte k]] :=
  data _

theorem bytes (ks : List Int) (h : ks.length ≤ 4) :
    Emits wr (fun c => writeBytes wr c ks) [ks.map Lib.Bytes.byte] := by
  intro c
  have hlen : ¬ 4 < ks.length := by omega
  simp only [writeBytes, if_neg hlen]
  exact data _ c

theorem each (bs : List UInt8) : Emits wr (fun c => writeEach wr c bs) (bs.map fun b => [b]) := by
  intro c
  induction bs generalizing c with
  | nil => rfl
  | cons b bs ih =>
    simp only [writeEach, List.map_cons, writeSegs, tried_tryThen]
    congr 1
    funext c
    exact ih c

end Emits

/-! ## Emission under a new frame -/

def pushThen (push : Option (FrameKind × CtxId)) (c : SCtx W) (k : SCtx W → Res W) : Res W :=
  match push with
  | none => k c
  | some (kind, ctxid) =>
    if c.stacksize = bssStackSize - 1 then (.etoodeep, c) else k (c.push kind ctxid)

/-- `Opens wr push f segs`: the same as `Emits`, after the frame `push`. -/
def Opens (wr : Writer W) (push : Option (FrameKind × CtxId)) (f : SCtx W → Res W)
    (segs : List (List UInt8)) : Prop :=
  ∀ c, tried (f c) = tried (pushThen push c fun c => writeSegs wr c segs)

namespace Opens

variable {wr : Writer W} {push : Option (FrameKind × CtxId)}

theorem of_emits {f : SCtx W → Res W} {segs : List (List UInt8)} (h : Emits wr f segs) :
    Opens wr none f segs := by
  intro c
  show tried (f c) = tried (writeSegs wr c segs)
  rw [h c, tried_writeSegs]

theorem openContainer (kind : FrameKind) (ctxid : CtxId) (opcode : Int) :
    Opens wr (some (kind, ctxid)) (fun c => openContainer wr c kind ctxid opcode)
      [[Lib.Bytes.byte opcode]] := by
  intro c
  by_cases hfull : c.stacksize = bssStackSize - 1
  · simp only [Bysant.openContainer, pushThen, if_pos hfull]
  · simp only [Bysant.openContainer, pushThen, if_neg hfull]
    rw [tried_writeSegs]
    rfl

theorem seq {f g : SCtx W → Res W} {segs segs' : List (List UInt8)}
    (hf : Opens wr push f segs) (hg : Emits wr g segs') :
    Opens wr push (fun c => tryThen (f c) g) (segs ++ segs') := by
  intro c
  have hthen : tried (tryThen (f c) g)
      = tryThen (pushThen push c fun c => writeSegs wr c segs)
          fun c => writeSegs wr c segs' := by
    rw [← tryThen_tried (f c), hf c, tryThen_tried, tried_tryThen]
    congr 1
    funext c
    exact hg c
  rw [hthen]
  cases push with
  | none =>
    show _ = tried (writeSegs wr c (segs ++ segs'))
    rw [tried_writeSegs, writeSegs_append]
    rfl
  | some top =>
    by_cases hfull : c.stacksize = bssStackSize - 1
    · simp only [pushThen, if_pos hfull]
      rfl
    · simp only [pushThen, if_neg hfull]
      rw [tried_writeSegs, writeSegs_append]

theorem ite {f g : SCtx W → Res W} {segs segs' : List (List UInt8)} (p : Prop) [Decidable p]
    (hf : Opens wr push f segs) (hg : Opens wr push g segs') :
    Opens wr push (fun c => if p then f c else g c) (if p then segs else segs') := by
  intro c
  split
  · exact hf c
  · exact hg c

theorem tryThenO_eq {f : SCtx W → Res W} {segs : List (List UInt8)} (h : Opens wr push f segs)
    (c : SCtx W) (k : SCtx W → Option (Res W)) :
    tryThenO (f c) k = tryThenO (pushThen push c fun c => writeSegs wr c segs) k := by
  rw [← tryThenO_tried, h c, tryThenO_tried]

end Opens

/-! ## The blocks of each value -/

def integerSegs (x : Int) (enc : IntegerEncoding) : List (List UInt8) :=
  if enc.tinyMin ≤ x ∧ x ≤ enc.tinyMax then [[byte (enc.tinyZeroOpcode + x)]]
  else if enc.smallMin ≤ x ∧ x ≤ enc.smallMax then
    let offset := computeOffset x enc.tinyMin enc.tinyMax
    let opbase := if x < 0 then enc.smallNegOpcode else enc.smallPosOpcode
    [[opbase + offset / 2 ^ 8, offset].map byte]
  else if enc.mediumMin ≤ x ∧ x ≤ enc.mediumMax then
    let offset := computeOffset x enc.smallMin enc.smallMax
    let opbase := if x < 0 then enc.mediumNegOpcode else enc.mediumPosOpcode
    [[opbase + offset / 2 ^ 16, offset / 2 ^ 8, offset].map byte]
  else if enc.largeMin ≤ x ∧ x ≤ enc.largeMax then
    let offset := computeOffset x enc.mediumMin enc.mediumMax
    let opbase := if x < 0 then enc.largeNegOpcode else enc.largePosOpcode
    [[opbase + offset / 2 ^ 24, offset / 2 ^ 16, offset / 2 ^ 8, offset].map byte]
  else if toSigned (2 ^ 31) (x % 2 ^ 32) = x then
    [[byte enc.int32Opcode]] ++ (beBytes 4 x).map fun b => [b]
  else [[byte enc.int64Opcode]] ++ (beBytes 8 x).map fun b => [b]

theorem emits_integer (wr : Writer W) (x : Int) (enc : IntegerEncoding) :
    Emits wr (fun c => writeInteger wr c x enc) (integerSegs x enc) := by
  unfold writeInteger integerSegs
  exact .ite _ (.byte _) <| .ite _ (.bytes _ (by simp)) <| .ite _ (.bytes _ (by simp)) <|
    .ite _ (.bytes _ (by simp)) <| .ite _ (.seq (.byte _) (.each _)) (.seq (.byte _) (.each _))

def unsignedSegs (x : Int) : List (List UInt8) :=
  let x := x % 2 ^ 32
  if x ≤ utiMax then [[byte (x + 0x3b)]]
  else if x ≤ usiMax then
    let offset := x - (utiMax + 1)
    [[0xc7 + offset / 2 ^ 8, offset].map byte]
  else if x ≤ umiMax then
    let offset := x - (usiMax + 1)
    [[0xe7 + offset / 2 ^ 16, offset / 2 ^ 8, offset].map byte]
  else if x ≤ uliMax then
    let offset := x - (umiMax + 1)
    [[0xf7 + offset / 2 ^ 24, offset / 2 ^ 16, offset / 2 ^ 8, offset].map byte]
  else [[byte 0xff]] ++ (beBytes 4 x).map fun b => [b]

theorem emits_unsigned (wr : Writer W) (x : Int) :
    Emits wr (fun c => writeUnsignedInteger wr c x) (unsignedSegs x) := by
  unfold writeUnsignedInteger unsignedSegs
  exact .ite _ (.byte _) <| .ite _ (.bytes _ (by simp)) <| .ite _ (.bytes _ (by simp)) <|
    .ite _ (.bytes _ (by simp)) (.seq (.byte _) (.each _))

def floatSegs [CFloat] (x : UInt64) (enc : FloatEncoding) : List (List UInt8) :=
  if CFloat.eq (CFloat.ofFloat (CFloat.toFloat x)) x then
    [[byte enc.float32Opcode]] ++ (beBytes 4 (CFloat.toFloat x).toNat).map fun b => [b]
  else [[byte enc.float64Opcode]] ++ (beBytes 8 x.toNat).map fun b => [b]

theorem emits_float [CFloat] (wr : Writer W) (x : UInt64) (enc : FloatEncoding) :
    Emits wr (fun c => writeFloat wr c x enc) (floatSegs x enc) := by
  unfold writeFloat floatSegs
  exact .ite _ (.seq (.byte _) (.each _)) (.seq (.byte _) (.each _))

def chunkSegs (data : List UInt8) : List (List UInt8) :=
  if 0xffff < data.length then
    [[0xff, 0xff]] ++ ([data.take 0xffff] ++ chunkSegs (data.drop 0xffff))
  else if 0 < data.length then
    [[(data.length : Int) / 2 ^ 8, (data.length : Int)].map byte] ++ ([data] ++ [])
  else []
termination_by data.length
decreasing_by simp only [List.length_drop]; omega

theorem emits_chunk (wr : Writer W) (data : List UInt8) :
    Emits wr (fun c => writeChunk wr c data) (chunkSegs data) := by
  induction data using chunkSegs.induct with
  | case1 data h ih =>
    unfold writeChunk chunkSegs
    simp only [if_pos h]
    exact .seq (.bytes [0xff, 0xff] (by simp)) (.seq (.data _) ih)
  | case2 data h h' =>
    unfold writeChunk chunkSegs
    simp only [if_neg h, if_pos h']
    exact .seq (.bytes _ (by simp)) (.seq (.data _) .nil)
  | case3 data h h' =>
    unfold writeChunk chunkSegs
    simp only [if_neg h, if_neg h']
    exact .nil

def stringSegs (data : List UInt8) (enc : StringEncoding) : List (List UInt8) :=
  let len := data.length
  if len ≤ enc.smallLimit then [[byte (enc.smallOpcode + len)]] ++ [data]
  else if len ≤ enc.mediumLimit then
    let sentLen := len - (enc.smallLimit + 1)
    [[(enc.mediumOpcode : Int) + sentLen / 2 ^ 8, (sentLen : Int)].map byte] ++ [data]
  else if len ≤ enc.largeLimit then
    let sentLen := len - (enc.mediumLimit + 1)
    [[(enc.largeOpcode : Int), sentLen / 2 ^ 8, (sentLen : Int)].map byte] ++ [data]
  else [[byte enc.chunkedOpcode]] ++ (chunkSegs data ++ [[0x00, 0x00]])

theorem emits_string (wr : Writer W) (data : List UInt8) (enc : StringEncoding) :
    Emits wr (fun c => writeString wr c data enc) (stringSegs data enc) := by
  unfold writeString stringSegs
  exact .ite _ (.seq (.byte _) (.data _)) <| .ite _ (.seq (.bytes _ (by simp)) (.data _)) <|
    .ite _ (.seq (.bytes _ (by simp)) (.data _)) <|
    .seq (.byte _) (.seq (emits_chunk wr data) (.bytes [0, 0] (by simp)))

/-! ## Containers and classes -/

def collectionKind (len : Int) (enc : CollEncoding) : FrameKind :=
  if len < 0 then enc.variableKind else enc.fixedKind

def collectionSegs (len : Int) (ctxid : CtxId) (enc : CollEncoding) : List (List UInt8) :=
  let hastype : Bool := ctxid ≠ .global
  (if len < 0 then
    [[byte (if hastype then enc.variableTypedOpcode else enc.variableUntypedOpcode : Nat)]]
  else if len = 0 then [[byte enc.emptyOpcode]]
  else if len ≤ enc.smallLimit then
    [[byte (len + (if hastype then enc.smallTypedOpcode else enc.smallUntypedOpcode : Nat) - 1)]]
  else
    [[byte (if hastype then enc.longTypedOpcode else enc.longUntypedOpcode : Nat)]]
      ++ unsignedSegs (len - (enc.smallLimit + 1)))
  ++ if len ≠ 0 ∧ hastype then [[byte ctxid.toNat]] else []

theorem opens_collection (wr : Writer W) (len : Int) {ctxid : CtxId} (enc : CollEncoding)
    (h : ctxid.regular = true) :
    Opens wr (some (collectionKind len enc, ctxid)) (fun c => openCollection wr c len ctxid enc)
      (collectionSegs len ctxid enc) := by
  have hreg : ¬ (!ctxid.regular) = true := by simp [h]
  have hlast : Emits wr
      (fun c => if len ≠ 0 ∧ decide (ctxid ≠ .global) = true then writeByte wr c ctxid.toNat
        else (.eok, c))
      (if len ≠ 0 ∧ decide (ctxid ≠ .global) = true then [[byte ctxid.toNat]] else []) :=
    .ite _ (.byte _) .nil
  unfold openCollection collectionSegs
  simp only [if_neg hreg]
  refine Opens.seq ?_ hlast
  by_cases hneg : len < 0
  · simp only [collectionKind, if_pos hneg]
    exact .openContainer _ _ _
  · simp only [collectionKind, if_neg hneg]
    exact .ite _ (.openContainer _ _ _) <| .ite _ (.openContainer _ _ _) <|
      .seq (.openContainer _ _ _) (emits_unsigned wr _)

def objectSegs (classid : UInt32) : List (List UInt8) :=
  let direct : Bool := classid < 0x10
  [[byte (if direct then 0x60 + classid.toNat else 0x70 : Int)]]
    ++ if direct then [] else unsignedSegs (classid - 0x10).toNat

def fieldSegs (named : Bool) : List BsField → List (List UInt8)
  | [] => []
  | field :: fields =>
    (if named then stringSegs (cstring (field.name.getD [])) uisString else [])
      ++ ([[byte field.ctxid.toNat]] ++ fieldSegs named fields)

theorem emits_fields (wr : Writer W) (named : Bool) (fields : List BsField) :
    Emits wr (fun c => writeFields wr named c fields) (fieldSegs named fields) := by
  induction fields with
  | nil => exact .nil
  | cons field fields ih =>
    exact .seq (.ite _ (emits_string wr _ _) .nil) (.seq (.byte _) ih)

def classSegs (cls : BsClass) : List (List UInt8) :=
  let named := cls.classname.isSome
  [[byte (if named then 0x71 else 0x72)]] ++ (unsignedSegs cls.classid.toNat
    ++ ((if named then stringSegs (cstring (cls.classname.getD [])) uisString else [])
    ++ (unsignedSegs cls.nfields ++ fieldSegs named cls.fields)))

/-! ## Plans -/

inductive Finish
  | commit
  | close
  | object (p : ClassPtr)
  | classdef (p : ClassPtr)
  | map (len : Int)
  | list (len : Int)
  deriving DecidableEq

def Finish.run (finish : Finish) (c : SCtx W) : Option (Res W) :=
  match finish with
  | .commit => commitTransaction c
  | .close => closeFrame c
  | .object p => do
    let cls ← c.classcoll.deref p
    let missing ← cint (cls.nfields + 1)
    commitTransaction (c.modifyTop fun f =>
      { f with missing := missing, content := .object p })
  | .classdef p => do
    let coll ← c.classcoll.bsClasscollSet p
    let c := { c with classcoll := coll }
    let f ← uncountFrame c.topframe
    commitTransaction (c.modifyTop fun _ => f)
  | .map len => do
    let missing ← if 0 ≤ len then cint (len * 2 + 1) else some c.topframe.missing
    commitTransaction (c.modifyTop fun f =>
      { f with missing := missing, content := .map false })
  | .list len => do
    let missing ← if 0 ≤ len then cint (len + 1) else some c.topframe.missing
    commitTransaction (c.modifyTop fun f => { f with missing := missing })

inductive Plan
  | reject (status : Status)
  /-- refused in the transaction, before any byte; `none` where the code reads a
  union member that was never written -/
  | start (status : Option Status)
  | define (p : ClassPtr)
  | closeFixed
  | write (push : Option (FrameKind × CtxId)) (segs : List (List UInt8)) (finish : Finish)
  deriving DecidableEq

def Plan.exec (wr : Writer W) (c : SCtx W) : Plan → Option (Res W)
  | .reject status => some (status, c)
  | .start status => starting c fun c => status.map fun status => (status, c)
  | .define p => do
    let coll ← c.classcoll.bsClasscollSet p
    some (.eok, { c with classcoll := coll })
  | .closeFixed => closeFrame c
  | .write push segs finish =>
    starting c fun c => tryThenO (pushThen push c fun c => writeSegs wr c segs) finish.run

def collEncoding (inGlobal inListmap : CollEncoding) : CtxId → Option CollEncoding
  | .global => some inGlobal
  | .listOrMap => some inListmap
  | _ => none

def closePlan (top : Frame) : Plan :=
  match top.kind with
  | .zmap =>
    match top.even with
    | none => .start none
    | some false => .start (some .ebadmap)
    | some true => .write none [getNullToken .unsignedOrString] .close
  | .zlist => .write none [getNullToken top.ctxid] .close
  | .object | .list | .map => if top.missing ≠ 0 then .reject .esize else .closeFixed
  | .chunked => .write none [[0, 0]] .close
  | .top => .reject .enocontainer
  | .classdef => .reject .einternal

def objectPlan (classid : UInt32) (found : Option ClassPtr) (context : CtxId) : Plan :=
  if context ≠ .global then .reject .ebadcontext
  else
    match found with
    | none => .reject .ebadclassid
    | some p => .write (some (.object, .object)) (objectSegs classid) (.object p)

def collectionPlan (len : Int) (ctxid : CtxId) (badctxid : Status) (finish : Finish)
    (enc : Option CollEncoding) : Plan :=
  match enc with
  | none => .reject .ebadcontext
  | some enc =>
    if !ctxid.regular then .reject badctxid
    else .write (some (collectionKind len enc, ctxid)) (collectionSegs len ctxid enc) finish

def intPlan (x : Int) (context : CtxId) : Plan :=
  match context with
  | .global => .write none (integerSegs x globalInteger) .commit
  | .number => .write none (integerSegs x numberInteger) .commit
  | .unsignedOrString =>
    if x < 0 then .reject .ebadcontext else .write none (unsignedSegs x) .commit
  | .int32 =>
    let y := toSigned (2 ^ 31) (x % 2 ^ 32)
    if x ≠ y then .reject .eoutofbounds
    else
      .write none (((beBytes 4 y).map fun b => [b]) ++ if y = -2 ^ 31 then [[0x01]] else [])
        .commit
  | _ => .reject .ebadcontext

def doublePlan [CFloat] (x : UInt64) (context : CtxId) : Plan :=
  match context with
  | .float =>
    let f := CFloat.toFloat x
    .write none
      (((beBytes 4 f.toNat).map fun b => [b]) ++ if f = 0xffffffff then [[0x01]] else [])
      .commit
  | .double =>
    .write none
      (((beBytes 8 x.toNat).map fun b => [b])
        ++ if x = 0xffffffffffffffff then [[0x01]] else [])
      .commit
  | _ =>
    let y := CFloat.toInt64 x
    if CFloat.eq (CFloat.ofInt64 y) x then intPlan y.toInt context
    else
      match context with
      | .global => .write none (floatSegs x globalFloatOpcodes) .commit
      | .number => .write none (floatSegs x numberFloatOpcodes) .commit
      | _ => .reject .ebadcontext

def nullPlan (top : Frame) (coll : ClassColl) : Option Plan :=
  if top.kind = .zlist then some (.reject .einvalid)
  else do
    let isKey ← top.onKey
    if isKey then some (.reject .einvalid)
    else do
      let context ← top.getctxid coll
      some (.write none [getNullToken context] .commit)

def opPlan [CFloat] (top : Frame) (coll : ClassColl) : Op → Option Plan
  | .close => some (closePlan top)
  | .object classid => do
    let found ← coll.bsClasscollGet classid
    let context ← top.getctxid coll
    some (objectPlan classid found context)
  | .classdef p internal =>
    if !checkClassdef p.cls then some (.reject .ebadfield)
    else if internal then some (.define p)
    else do
      let context ← top.getctxid coll
      some (if context ≠ .global then .reject .ebadcontext
        else .write none (classSegs p.cls) (.classdef p))
  | .map len ctxid => do
    let context ← top.getctxid coll
    some (collectionPlan len ctxid .ebadmap (.map len)
      (collEncoding globalMap listmapMap context))
  | .list len ctxid => do
    let context ← top.getctxid coll
    some (collectionPlan len ctxid .ebadctxid (.list len)
      (collEncoding globalList listmapList context))
  | .chunked => do
    let context ← top.getctxid coll
    some (match stringEncoding context with
      | none => .reject .ebadcontext
      | some enc => .write (some (.chunked, .chunked)) [[byte enc.chunkedOpcode]] .commit)
  | .chunk data =>
    some (if top.ctxid ≠ .chunked then .reject .ebadcontext
      else if data.length = 0 then .reject .einvalid
      else .write none (chunkSegs data) .commit)
  | .int x => do
    let context ← top.getctxid coll
    some (intPlan x.toInt context)
  | .bool x => do
    let context ← top.getctxid coll
    some (if context ≠ .global then .reject .ebadcontext
      else .write none [[byte (if x then 0x01 else 0x02)]] .commit)
  | .double x => do
    let context ← top.getctxid coll
    some (doublePlan x context)
  | .lstring data => do
    let context ← top.getctxid coll
    some (match stringEncoding context with
      | none => .reject .ebadcontext
      | some enc => .write none (stringSegs data enc) .commit)
  | .null => nullPlan top coll
  | .raw data => some (.write none [data] .commit)

/-! ## The code carries out the plan -/

theorem starting_congr (c : SCtx W) {k k' : SCtx W → Option (Res W)}
    (h : ∀ c, k c = k' c) : starting c k = starting c k' := by
  have hk : k = k' := funext h
  rw [hk]

theorem starting_opens {wr : Writer W} {push : Option (FrameKind × CtxId)}
    {f : SCtx W → Res W} {segs : List (List UInt8)} (h : Opens wr push f segs) (c : SCtx W)
    (finish : Finish) :
    starting c (fun c => tryThenO (f c) finish.run)
      = Plan.exec wr c (.write push segs finish) :=
  starting_congr c fun c => h.tryThenO_eq c finish.run

theorem starting_emits {wr : Writer W} {f : SCtx W → Res W} {segs : List (List UInt8)}
    (h : Emits wr f segs) (c : SCtx W) (finish : Finish) :
    starting c (fun c => tryThenO (f c) finish.run)
      = Plan.exec wr c (.write none segs finish) :=
  starting_opens (.of_emits h) c finish

theorem bssClose_eq (wr : Writer W) (c : SCtx W) :
    bssClose wr c = Plan.exec wr c (closePlan c.topframe) := by
  unfold bssClose closePlan
  cases hkind : c.topframe.kind
  case zmap =>
    simp only [hkind]
    cases heven : c.topframe.even with
    | none => rfl
    | some even =>
      cases even with
      | false => rfl
      | true => exact starting_emits (.data _) c .close
  case zlist =>
    simp only [hkind]
    exact starting_emits (.data _) c .close
  case chunked =>
    simp only [hkind]
    exact starting_emits (.bytes [0, 0] (by simp)) c .close
  all_goals
    simp only [hkind]
    first
      | rfl
      | by_cases hmissing : c.topframe.missing = 0 <;> simp [hmissing, Plan.exec]

theorem bssInt_eq (wr : Writer W) (c : SCtx W) (x : Int64) :
    bssInt wr c x = c.getctxid.bind fun context => Plan.exec wr c (intPlan x.toInt context) := by
  unfold bssInt
  cases hctx : c.getctxid with
  | none => rfl
  | some context =>
    show _ = Plan.exec wr c (intPlan x.toInt context)
    cases context with
    | global => exact starting_emits (emits_integer wr _ _) c .commit
    | number => exact starting_emits (emits_integer wr _ _) c .commit
    | unsignedOrString =>
      by_cases hneg : x.toInt < 0
      · simp [intPlan, hneg, Plan.exec]
      · simp only [intPlan, if_neg hneg, bind_eq_bind, bind_some]
        exact starting_emits (emits_unsigned wr _) c .commit
    | int32 =>
      by_cases hout : x.toInt = toSigned (2 ^ 31) (x.toInt % 2 ^ 32)
      · simp only [intPlan, ne_eq, ← hout, not_true_eq_false, if_false, bind_eq_bind,
          bind_some]
        exact starting_emits (.seq (.each _) (.ite _ (.byte _) .nil)) c .commit
      · simp only [intPlan, ne_eq, hout, not_false_eq_true, if_true, bind_eq_bind,
          bind_some]
        rfl
    | _ => rfl

theorem bssDouble_eq [CFloat] (wr : Writer W) (c : SCtx W) (x : UInt64) :
    bssDouble wr c x
      = c.getctxid.bind fun context => Plan.exec wr c (doublePlan x context) := by
  unfold bssDouble
  cases hctx : c.getctxid with
  | none => rfl
  | some context =>
    show _ = Plan.exec wr c (doublePlan x context)
    have hint : bssInt wr c (CFloat.toInt64 x)
        = Plan.exec wr c (intPlan (CFloat.toInt64 x).toInt context) := by
      rw [bssInt_eq, hctx]
      rfl
    cases context with
    | float =>
      exact starting_emits (.seq (.each _) (.ite _ (.byte 1) .nil)) c .commit
    | double =>
      exact starting_emits (.seq (.each _) (.ite _ (.byte 1) .nil)) c .commit
    | global | number =>
      by_cases heq : CFloat.eq (CFloat.ofInt64 (CFloat.toInt64 x)) x = true
      · simp only [doublePlan, heq, if_true, bind_eq_bind, bind_some, hint]
      · simp only [doublePlan, if_neg heq, bind_eq_bind, bind_some]
        exact starting_emits (emits_float wr x _) c .commit
    | _ =>
      by_cases heq : CFloat.eq (CFloat.ofInt64 (CFloat.toInt64 x)) x = true
      · simp only [doublePlan, heq, if_true, bind_eq_bind, bind_some, hint]
      · simp only [doublePlan, if_neg heq, bind_eq_bind, bind_some, Plan.exec]

theorem bssObject_eq (wr : Writer W) (c : SCtx W) (classid : UInt32) :
    bssObject wr c classid
      = (do
        let found ← c.classcoll.bsClasscollGet classid
        let context ← c.getctxid
        Plan.exec wr c (objectPlan classid found context)) := by
  unfold bssObject objectPlan
  cases hfound : c.classcoll.bsClasscollGet classid with
  | none => rfl
  | some found =>
    cases hctx : c.getctxid with
    | none => rfl
    | some context =>
      by_cases hglobal : context = .global
      · subst hglobal
        cases found with
        | none => rfl
        | some p =>
          exact starting_opens (.seq (.openContainer _ _ _) (.ite _ .nil (emits_unsigned wr _)))
            c (.object p)
      · simp only [bind_eq_bind, bind_some, ne_eq, hglobal, not_false_eq_true,
          if_true]
        rfl

theorem emits_class (wr : Writer W) (cls : BsClass) :
    Emits wr
      (fun c =>
        tryThen (writeByte wr c (if cls.classname.isSome then 0x71 else 0x72)) fun c =>
        tryThen (writeUnsignedInteger wr c cls.classid.toNat) fun c =>
        tryThen (if cls.classname.isSome then
            writeString wr c (cstring (cls.classname.getD [])) uisString
          else (.eok, c)) fun c =>
        tryThen (writeUnsignedInteger wr c cls.nfields) fun c =>
        writeFields wr cls.classname.isSome c cls.fields)
      (classSegs cls) :=
  .seq (.byte _) <| .seq (emits_unsigned wr _) <| .seq (.ite _ (emits_string wr _ _) .nil) <|
    .seq (emits_unsigned wr _) (emits_fields wr _ _)

theorem bssMap_eq (wr : Writer W) (c : SCtx W) (len : Int) (ctxid : CtxId) :
    bssMap wr c len ctxid
      = c.getctxid.bind fun context =>
          Plan.exec wr c (collectionPlan len ctxid .ebadmap (.map len)
            (collEncoding globalMap listmapMap context)) := by
  unfold bssMap collectionPlan
  cases hctx : c.getctxid with
  | none => rfl
  | some context =>
    have hopens (enc : CollEncoding) (hreg : ctxid.regular = true) :=
      starting_opens (opens_collection wr len enc hreg) c (.map len)
    cases hreg : ctxid.regular <;> cases context <;> first | rfl | exact hopens _ hreg

theorem bssList_eq (wr : Writer W) (c : SCtx W) (len : Int) (ctxid : CtxId) :
    bssList wr c len ctxid
      = c.getctxid.bind fun context =>
          Plan.exec wr c (collectionPlan len ctxid .ebadctxid (.list len)
            (collEncoding globalList listmapList context)) := by
  unfold bssList collectionPlan
  cases hctx : c.getctxid with
  | none => rfl
  | some context =>
    have hopens (enc : CollEncoding) (hreg : ctxid.regular = true) :=
      starting_opens (opens_collection wr len enc hreg) c (.list len)
    cases hreg : ctxid.regular <;> cases context <;> first | rfl | exact hopens _ hreg

theorem bssNull_eq (wr : Writer W) (c : SCtx W) :
    bssNull wr c = (nullPlan c.topframe c.classcoll).bind (Plan.exec wr c) := by
  unfold bssNull nullPlan
  by_cases hzlist : c.topframe.kind = .zlist
  · simp only [if_pos hzlist]
    rfl
  simp only [if_neg hzlist]
  cases hkey : c.topframe.onKey with
  | none => rfl
  | some isKey =>
    cases isKey with
    | true => rfl
    | false =>
      have hgetctxid : c.getctxid = c.topframe.getctxid c.classcoll := rfl
      cases hctx : c.topframe.getctxid c.classcoll with
      | none => simp [hgetctxid, hctx]
      | some context =>
        simp only [hgetctxid, hctx, bind_eq_bind, bind_some]
        exact starting_emits (.data _) c .commit

theorem Op.apply_eq [CFloat] (wr : Writer W) (c : SCtx W) (op : Op) :
    op.apply wr c = (opPlan c.topframe c.classcoll op).bind (Plan.exec wr c) := by
  have hgetctxid : c.getctxid = c.topframe.getctxid c.classcoll := rfl
  cases op with
  | close => exact bssClose_eq wr c
  | object classid =>
    show bssObject wr c classid = _
    rw [bssObject_eq, hgetctxid]
    cases hfound : c.classcoll.bsClasscollGet classid with
    | none => simp [opPlan, hfound]
    | some found => cases hctx : c.topframe.getctxid c.classcoll <;> simp [opPlan, hfound, hctx]
  | classdef p internal =>
    show bssClass wr c p internal = _
    unfold bssClass
    rw [hgetctxid]
    cases hcheck : checkClassdef p.cls <;> cases internal <;>
      cases hctx : c.topframe.getctxid c.classcoll <;> simp [opPlan, hcheck, hctx, Plan.exec]
    case true.false.some context =>
      by_cases hglobal : context = .global
      · simp only [if_pos hglobal]
        exact starting_emits (emits_class wr p.cls) c (.classdef p)
      · simp only [if_neg hglobal]
  | map len ctxid =>
    show bssMap wr c len ctxid = _
    rw [bssMap_eq, hgetctxid]
    cases hctx : c.topframe.getctxid c.classcoll <;> simp [opPlan, hctx]
  | list len ctxid =>
    show bssList wr c len ctxid = _
    rw [bssList_eq, hgetctxid]
    cases hctx : c.topframe.getctxid c.classcoll <;> simp [opPlan, hctx]
  | chunked =>
    show bssChunked wr c = _
    unfold bssChunked
    rw [hgetctxid]
    cases hctx : c.topframe.getctxid c.classcoll with
    | none => simp [opPlan, hctx]
    | some context =>
      simp only [opPlan, hctx, bind_eq_bind, bind_some]
      cases henc : stringEncoding context with
      | none => rfl
      | some enc => exact starting_opens (.openContainer _ _ _) c .commit
  | chunk data =>
    show bssChunk wr c data = _
    unfold bssChunk
    by_cases hctx : c.topframe.ctxid = .chunked
    · by_cases hlen : data.length = 0
      · simp [opPlan, hctx, hlen, Plan.exec]
      · simp only [opPlan, hctx, hlen, ne_eq, not_true_eq_false, if_false, bind_some]
        exact starting_emits (emits_chunk wr data) c .commit
    · simp [opPlan, hctx, Plan.exec]
  | int x =>
    show bssInt wr c x = _
    rw [bssInt_eq, hgetctxid]
    cases hctx : c.topframe.getctxid c.classcoll <;> simp [opPlan, hctx]
  | bool x =>
    show bssBool wr c x = _
    unfold bssBool
    rw [hgetctxid]
    cases hctx : c.topframe.getctxid c.classcoll with
    | none => simp [opPlan, hctx]
    | some context =>
      by_cases hglobal : context = .global
      · simp only [opPlan, hctx, hglobal, ne_eq, not_true_eq_false, if_false,
          bind_eq_bind, bind_some]
        exact starting_emits (.byte _) c .commit
      · simp [opPlan, hctx, hglobal, Plan.exec]
  | double x =>
    show bssDouble wr c x = _
    rw [bssDouble_eq, hgetctxid]
    cases hctx : c.topframe.getctxid c.classcoll <;> simp [opPlan, hctx]
  | lstring data =>
    show bssLstring wr c data = _
    unfold bssLstring
    rw [hgetctxid]
    cases hctx : c.topframe.getctxid c.classcoll with
    | none => simp [opPlan, hctx]
    | some context =>
      simp only [opPlan, hctx, bind_eq_bind, bind_some]
      cases henc : stringEncoding context with
      | none => rfl
      | some enc => exact starting_emits (emits_string wr data enc) c .commit
  | null => exact bssNull_eq wr c
  | raw data => exact starting_emits (.data _) c .commit

/-! ## Which frames and which ends go together -/

inductive Shape (top : Frame) : Option (FrameKind × CtxId) → Finish → Prop
  | value : Shape top none .commit
  | classdef (p : ClassPtr) : Shape top none (.classdef p)
  | close : top.kind ≠ .top → Shape top none .close
  | chunked : Shape top (some (.chunked, .chunked)) .commit
  | object (p : ClassPtr) : Shape top (some (.object, .object)) (.object p)
  | map (len : Int) (ctxid : CtxId) :
      Shape top (some (if len < 0 then .zmap else .map, ctxid)) (.map len)
  | list (len : Int) (ctxid : CtxId) :
      Shape top (some (if len < 0 then .zlist else .list, ctxid)) (.list len)

def Plan.Sound (top : Frame) : Plan → Prop
  | .reject st | .start (some st) => st ≠ .eok ∧ st ≠ .eagain
  | .start none | .define _ => True
  | .closeFixed => top.kind ≠ .top
  | .write push _ finish => Shape top push finish

theorem closePlan_sound (top : Frame) : (closePlan top).Sound top := by
  unfold closePlan
  cases hkind : top.kind
  case zmap =>
    simp only
    cases top.even with
    | none => trivial
    | some even =>
      cases even with
      | false => exact ⟨by simp, by simp⟩
      | true => exact .close (by simp [hkind])
  case zlist => exact .close (by simp [hkind])
  case chunked => exact .close (by simp [hkind])
  case top => exact ⟨by simp, by simp⟩
  case classdef => exact ⟨by simp, by simp⟩
  all_goals
    simp only
    split
    · exact ⟨by simp, by simp⟩
    · simp [Plan.Sound, hkind]

theorem collectionPlan_sound {top : Frame} {len : Int} {ctxid : CtxId} {badctxid : Status}
    {finish : Finish} {enc : Option CollEncoding}
    (hbad : badctxid ≠ .eok ∧ badctxid ≠ .eagain)
    (hshape : ∀ e, enc = some e → Shape top (some (collectionKind len e, ctxid)) finish) :
    (collectionPlan len ctxid badctxid finish enc).Sound top := by
  unfold collectionPlan
  cases enc with
  | none => exact ⟨by simp, by simp⟩
  | some e =>
    simp only
    split
    · exact hbad
    · exact hshape e rfl

theorem intPlan_sound (top : Frame) (x : Int) (context : CtxId) :
    (intPlan x context).Sound top := by
  unfold intPlan
  cases context
  case global => exact .value
  case number => exact .value
  case unsignedOrString =>
    simp only
    split
    · exact ⟨by simp, by simp⟩
    · exact .value
  case int32 =>
    simp only
    split
    · exact ⟨by simp, by simp⟩
    · exact .value
  all_goals exact ⟨by simp, by simp⟩

theorem doublePlan_sound [CFloat] (top : Frame) (x : UInt64) (context : CtxId) :
    (doublePlan x context).Sound top := by
  unfold doublePlan
  cases context
  case float => exact .value
  case double => exact .value
  all_goals
    simp only
    split
    · exact intPlan_sound top _ _
    · first | exact .value | exact ⟨by simp, by simp⟩

theorem opPlan_sound [CFloat] {top : Frame} {coll : ClassColl} {op : Op} {plan : Plan}
    (h : opPlan top coll op = some plan) : plan.Sound top := by
  cases op
  case close =>
    obtain rfl : closePlan top = plan := by simpa [opPlan] using h
    exact closePlan_sound top
  case null =>
    simp only [opPlan, nullPlan] at h
    split at h
    · cases h
      exact ⟨by simp, by simp⟩
    obtain ⟨isKey, -, h⟩ := bind_eq_some_iff.mp h
    split at h
    · cases h
      exact ⟨by simp, by simp⟩
    · obtain ⟨context, -, h⟩ := bind_eq_some_iff.mp h
      cases h
      exact .value
  case classdef p internal =>
    simp only [opPlan] at h
    split at h
    · cases h
      exact ⟨by simp, by simp⟩
    split at h
    · cases h
      trivial
    · obtain ⟨context, -, h⟩ := bind_eq_some_iff.mp h
      cases h
      split
      · exact ⟨by simp, by simp⟩
      · exact .classdef p
  case chunk data =>
    cases h
    split
    · exact ⟨by simp, by simp⟩
    · split
      · exact ⟨by simp, by simp⟩
      · exact .value
  case raw data =>
    cases h
    exact .value
  case object classid =>
    obtain ⟨found, -, h⟩ := bind_eq_some_iff.mp h
    obtain ⟨context, -, h⟩ := bind_eq_some_iff.mp h
    cases h
    unfold objectPlan
    split
    · exact ⟨by simp, by simp⟩
    · cases found with
      | none => exact ⟨by simp, by simp⟩
      | some p => exact .object p
  all_goals
    obtain ⟨context, -, h⟩ := bind_eq_some_iff.mp h
    cases h
  case map len ctxid =>
    refine collectionPlan_sound ⟨by simp, by simp⟩ fun e he => ?_
    have hkind : collectionKind len e = if len < 0 then .zmap else .map := by
      cases context <;> cases he <;> rfl
    rw [hkind]
    exact .map len ctxid
  case list len ctxid =>
    refine collectionPlan_sound ⟨by simp, by simp⟩ fun e he => ?_
    have hkind : collectionKind len e = if len < 0 then .zlist else .list := by
      cases context <;> cases he <;> rfl
    rw [hkind]
    exact .list len ctxid
  case chunked =>
    cases stringEncoding context with
    | none => exact ⟨by simp, by simp⟩
    | some enc => exact .chunked
  case int x => exact intPlan_sound top _ _
  case bool x =>
    split
    · exact ⟨by simp, by simp⟩
    · exact .value
  case double x => exact doublePlan_sound top _ _
  case lstring data =>
    cases stringEncoding context with
    | none => exact ⟨by simp, by simp⟩
    | some enc => exact .value

end

end Mihini.Bysant
