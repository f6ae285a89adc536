import Mihini.Bysant.Codec

/-!
# What each context reads

One lemma for each kind of value and context: the decoding routine of the context,
without a length check, reads back the bytes that the serializer writes for the
value there.
-/

namespace Mihini.Bysant

open Lib.Bytes List Option

def DCtx.push (ctx : DCtx) (kind : FrameKind) (ctxid : CtxId) (missing : Int) : DCtx :=
  { ctx with
    stacksize := ctx.stacksize + 1
    stack := ctx.stack.modify (ctx.stacksize + 1) fun f =>
      { kind := kind
        ctxid := ctxid
        missing := missing
        content := if kind.isMap then .map true else f.content } }

theorem DCtx.push_stack_of_le (d : DCtx) (kind : FrameKind) (ctxid : CtxId) (missing : Int) {i : Nat}
    (h : i ≤ d.stacksize) : (d.push kind ctxid missing).stack i = d.stack i := by
  have hne : i ≠ d.stacksize + 1 := by omega
  simp only [DCtx.push, Stack.modify_of_ne d.stack hne]

theorem DCtx.push_topframe (d : DCtx) (kind : FrameKind) (ctxid : CtxId) (missing : Int) :
    (d.push kind ctxid missing).topframe
      = { kind := kind
          ctxid := ctxid
          missing := missing
          content := if kind.isMap then .map true else (d.stack (d.stacksize + 1)).content } := by
  simp only [DCtx.push, DCtx.topframe, Stack.modify_same]

theorem dOpenContainer_ok {ctx : DCtx} {kind : FrameKind} (hroom : ctx.stacksize ≠ bsdStackSize - 1)
    (hkind : kind.isMap = false) (ctxid : CtxId) (missing : Int) :
    dOpenContainer ctx kind ctxid missing = some (.eok, ctx.push kind ctxid missing) := by
  simp [dOpenContainer, hroom, hkind, DCtx.push]

theorem dOpenContainer_map {ctx : DCtx} {kind : FrameKind} (hroom : ctx.stacksize ≠ bsdStackSize - 1)
    (hkind : kind.isMap = true) (ctxid : CtxId) {missing : Int}
    (hmissing : -2 ^ 31 ≤ missing * 2 ∧ missing * 2 < 2 ^ 31) :
    dOpenContainer ctx kind ctxid missing = some (.eok, ctx.push kind ctxid (missing * 2)) := by
  simp only [dOpenContainer, if_neg hroom, hkind, if_true, cint, if_pos hmissing,
    bind_eq_bind, bind_some, DCtx.push]

theorem intOfSize_toNat {len : Int} (hlen : 0 ≤ len ∧ len < 2 ^ 31) : intOfSize len.toNat = len := by
  unfold intOfSize toSigned
  split <;> omega

section
variable {length : Int} (ctx : DCtx) (x : Data)

theorem integerSegs_head (v : Int) (enc : IntegerEncoding) :
    ∃ b bs, (integerSegs v enc).flatten = b :: bs := by
  unfold integerSegs
  simp only
  split
  · exact ⟨_, _, rfl⟩
  split
  · exact ⟨_, _, rfl⟩
  · split
    · exact ⟨_, _, rfl⟩
    · split
      · exact ⟨_, _, rfl⟩
      · split <;> exact ⟨_, _, rfl⟩

theorem flatten_ne_nil {b : UInt8} {bs : List UInt8} {segs : List (List UInt8)}
    (h : segs.flatten = b :: bs) : segs.flatten ≠ [] := by
  rw [h]
  exact cons_ne_nil b bs

/-- A routine that starts with the integers of its context. -/
theorem bsdGlobal_integer [CFloat] {v : Int} (hv : -2 ^ 63 ≤ v ∧ v < 2 ^ 63) (rest : List UInt8)
    (h : Enough length (integerSegs v globalInteger).flatten.length) :
    bsdGlobal ctx x ((integerSegs v globalInteger).flatten ++ rest) length
      = some (((integerSegs v globalInteger).flatten.length : Int), x.put .int (.int v), ctx) := by
  obtain ⟨b, bs, hhead⟩ := integerSegs_head v globalInteger
  have hpos : 0 < (integerSegs v globalInteger).flatten.length := by simp [hhead]
  have hop : opcodeAt ((integerSegs v globalInteger).flatten ++ rest) = some (b.toNat : Int) := by
    rw [hhead]
    rfl
  unfold bsdGlobal
  rw [checkLength_enough (h.mono (by omega)), hop, bind_eq_bind, bind_some,
    decodeInteger_integerSegs ctx x globalInteger_valid v hv rest h, checkDecode_done (by omega)]

theorem bsdNumber_integer [CFloat] {v : Int} (hv : -2 ^ 63 ≤ v ∧ v < 2 ^ 63) (rest : List UInt8)
    (h : Enough length (integerSegs v numberInteger).flatten.length) :
    bsdNumber ctx x ((integerSegs v numberInteger).flatten ++ rest) length
      = some (((integerSegs v numberInteger).flatten.length : Int), x.put .int (.int v), ctx) := by
  obtain ⟨b, bs, hhead⟩ := integerSegs_head v numberInteger
  have hpos : 0 < (integerSegs v numberInteger).flatten.length := by simp [hhead]
  have hop : opcodeAt ((integerSegs v numberInteger).flatten ++ rest) = some (b.toNat : Int) := by
    rw [hhead]
    rfl
  unfold bsdNumber
  rw [checkLength_enough (h.mono (by omega)), hop, bind_eq_bind, bind_some,
    decodeInteger_integerSegs ctx x numberInteger_valid v hv rest h, checkDecode_done (by omega)]

theorem bsdGlobal_noninteger [CFloat] {op : Int} (h : Enough length 1)
    (hop : op < 0x80 ∨ 0xfd < op) (h0 : 0 ≤ op) (h1 : op < 256) (bs : List UInt8) :
    bsdGlobal ctx x (byte op :: bs) length
      = checkDecode (decodeString ctx { x with type := .int } (byte op :: bs) length globalString)
          fun x ctx =>
        checkDecode (decodeCollection ctx x (byte op :: bs) length globalList) fun x ctx =>
        checkDecode (decodeCollection ctx x (byte op :: bs) length globalMap) fun x ctx =>
        checkDecode (decodeClass ctx x (byte op :: bs) length) fun x ctx =>
          decodeOther op ctx x (byte op :: bs) length := by
  unfold bsdGlobal
  rw [checkLength_enough h, opcodeAt_byte h0 h1, bind_eq_bind, bind_some,
    decodeInteger_skip ctx x globalInteger_valid h hop h0 h1, checkDecode_skip (by simp)]

/-- The opcodes `bsdGlobal` only looks at last. -/
theorem bsdGlobal_other [CFloat] {op : Int} (h : Enough length 1)
    (hop : op < 0x03 ∨ (0x57 < op ∧ op < 0x71) ∨ 0xfd < op) (h0 : 0 ≤ op) (h1 : op < 256)
    (bs : List UInt8) :
    bsdGlobal ctx x (byte op :: bs) length
      = decodeOther op ctx { x with type := .string } (byte op :: bs) length := by
  have hclass (x : Data) : decodeClass ctx x (byte op :: bs) length = some (0, x, ctx) := by
    unfold decodeClass
    rw [checkLength_enough h, opcodeAt_byte h0 h1, bind_eq_bind, bind_some,
      if_pos (by omega)]
  have hstring : op < globalString.smallOpcode ∨ globalString.chunkedOpcode < op := by
    simp only [globalString]
    omega
  have hlist : op < globalList.emptyOpcode ∨ globalList.variableTypedOpcode < op := by
    simp only [globalList]
    omega
  have hmap : op < globalMap.emptyOpcode ∨ globalMap.variableTypedOpcode < op := by
    simp only [globalMap]
    omega
  rw [bsdGlobal_noninteger ctx x h (by omega) h0 h1,
    decodeString_skip ctx _ globalString_valid h hstring h0 h1, checkDecode_skip (by simp),
    decodeCollection_skip ctx _ globalList_valid h hlist h0 h1, checkDecode_skip (by simp),
    decodeCollection_skip ctx _ globalMap_valid h hmap h0 h1, checkDecode_skip (by simp),
    hclass, checkDecode_skip (by simp)]

theorem bsdGlobal_bool [CFloat] (b : Bool) (hlength : length < -1) (bs : List UInt8) :
    bsdGlobal ctx x (byte (if b then 0x01 else 0x02) :: bs) length
      = some (1, x.put .bool (.bool b), ctx) := by
  have h : Enough length 1 := .inl (by omega)
  cases b with
  | true =>
    rw [if_pos rfl, bsdGlobal_other ctx x h (by omega) (by omega) (by omega), decodeOther,
      if_neg (by omega), if_neg (by omega), if_pos rfl]
    rfl
  | false =>
    rw [if_neg (by simp), bsdGlobal_other ctx x h (by omega) (by omega) (by omega), decodeOther,
      if_neg (by omega), if_neg (by omega), if_neg (by omega), if_pos rfl]
    rfl

/-! ## Floating point -/

theorem uint32_ofNat_emod (f : UInt32) :
    UInt32.ofNat ((f.toNat : Int) % 256 ^ 4).toNat = f := by
  have hf := f.toNat_lt
  have hmod : ((f.toNat : Int) % 256 ^ 4).toNat = f.toNat := by omega
  rw [hmod, UInt32.ofNat_toNat]

theorem uint64_ofNat_emod (d : UInt64) :
    UInt64.ofNat ((d.toNat : Int) % 256 ^ 8).toNat = d := by
  have hd := d.toNat_lt
  have hmod : ((d.toNat : Int) % 256 ^ 8).toNat = d.toNat := by omega
  rw [hmod, UInt64.ofNat_toNat]

def sentDouble [CFloat] (d : UInt64) : UInt64 :=
  if CFloat.eq (CFloat.ofFloat (CFloat.toFloat d)) d then CFloat.ofFloat (CFloat.toFloat d) else d

theorem decodeFloats_floatSegs [CFloat] (d : UInt64) (hlength : length < -1) (rest : List UInt8) :
    ∃ (op : Int) (bs : List UInt8), 0xfe ≤ op ∧ op < 256
      ∧ (floatSegs d globalFloatOpcodes).flatten ++ rest = byte op :: bs
      ∧ decodeFloats op ctx x ((floatSegs d globalFloatOpcodes).flatten ++ rest) length
        = some (((floatSegs d globalFloatOpcodes).flatten.length : Int),
            x.put .double (.double (sentDouble d)), ctx) := by
  unfold floatSegs sentDouble
  by_cases heq : CFloat.eq (CFloat.ofFloat (CFloat.toFloat d)) d = true
  · simp only [if_pos heq, flatten_append, flatten_cons, flatten_nil,
      append_nil, flatten_singletons, length_append, beBytes_length]
    refine ⟨0xfe, _, by omega, by omega, rfl, ?_⟩
    unfold decodeFloats
    rw [if_pos rfl, decodeFixed_enough ctx x rest _ (by simp [beBytes_length]) (.inl (by omega)),
      cons_append, nil_append, drop_succ_cons, drop_zero, beValue_beBytes,
      uint32_ofNat_emod]
    rfl
  · simp only [if_neg heq, flatten_append, flatten_cons, flatten_nil,
      append_nil, flatten_singletons, length_append, beBytes_length]
    refine ⟨0xff, _, by omega, by omega, rfl, ?_⟩
    unfold decodeFloats
    rw [if_neg (by omega), if_pos rfl,
      decodeFixed_enough ctx x rest _ (by simp [beBytes_length]) (.inl (by omega)),
      cons_append, nil_append, drop_succ_cons, drop_zero, beValue_beBytes,
      uint64_ofNat_emod]
    rfl

theorem bsdGlobal_float [CFloat] (d : UInt64) (hlength : length < -1) (rest : List UInt8) :
    bsdGlobal ctx x ((floatSegs d globalFloatOpcodes).flatten ++ rest) length
      = some (((floatSegs d globalFloatOpcodes).flatten.length : Int),
          x.put .double (.double (sentDouble d)), ctx) := by
  obtain ⟨op, bs, hop, hop', hhead, hdecode⟩ :=
    decodeFloats_floatSegs ctx { x with type := .string } d hlength rest
  rw [hhead] at hdecode ⊢
  rw [bsdGlobal_other ctx x (.inl (by omega)) (by omega) (by omega) hop', decodeOther,
    if_neg (by omega), if_neg (by omega), if_neg (by omega), if_neg (by omega),
    if_neg (by omega), hdecode]
  rfl

theorem bsdNumber_byte [CFloat] {op : Int} (h : Enough length 1) (hop : op = 0 ∨ 0xfd < op)
    (h1 : op < 256) (bs : List UInt8) :
    bsdNumber ctx x (byte op :: bs) length
      = if op = 0x00 then decodedNull 1 ctx { x with type := .int }
        else decodeFloats op ctx { x with type := .int } (byte op :: bs) length := by
  have hskip : op < numberInteger.tinyZeroOpcode + numberInteger.tinyMin
      ∨ numberInteger.int64Opcode < op := by
    simp only [numberInteger]
    omega
  unfold bsdNumber
  rw [checkLength_enough h, opcodeAt_byte (by omega) h1, bind_eq_bind, bind_some,
    decodeInteger_skip ctx x numberInteger_valid h hskip (by omega) h1,
    checkDecode_skip (by simp)]

theorem bsdNumber_float [CFloat] (d : UInt64) (hlength : length < -1) (rest : List UInt8) :
    bsdNumber ctx x ((floatSegs d numberFloatOpcodes).flatten ++ rest) length
      = some (((floatSegs d numberFloatOpcodes).flatten.length : Int),
          x.put .double (.double (sentDouble d)), ctx) := by
  obtain ⟨op, bs, hop, hop', hhead, hdecode⟩ :=
    decodeFloats_floatSegs ctx { x with type := .int } d hlength rest
  show bsdNumber ctx x ((floatSegs d globalFloatOpcodes).flatten ++ rest) length = _
  rw [hhead] at hdecode ⊢
  rw [bsdNumber_byte ctx x (.inl (by omega)) (by omega) hop', if_neg (by omega), hdecode]
  rfl

/-! ## Words with an escape -/

theorem decodeEscaped_value (n : Nat) (v escape : Int) (k : Int → Data) (hlength : length < -1)
    (rest : List UInt8) :
    decodeEscaped ctx x
        (beBytes n v ++ (if v % 256 ^ n = escape then [0x01] else []) ++ rest) length n escape k
      = some (((beBytes n v ++ (if v % 256 ^ n = escape then [0x01] else [])).length : Int),
          k (v % 256 ^ n), ctx) := by
  have hbytes (bs : List UInt8) : bytesAt (beBytes n v ++ bs) n = some (beBytes n v) := by
    have h := bytesAt_append (beBytes n v) bs
    rwa [beBytes_length] at h
  unfold decodeEscaped
  rw [checkLength_enough (.inl (by omega)), append_assoc, hbytes, bind_eq_bind,
    bind_some, beValue_beBytes]
  by_cases hesc : v % 256 ^ n = escape
  · have hbyte : (beBytes n v ++ ([0x01] ++ rest))[n]? = some 0x01 := by
      rw [List.getElem?_append_right (by rw [beBytes_length]), beBytes_length, Nat.sub_self]
      rfl
    simp only [if_pos hesc]
    rw [checkLength_enough (.inl (by omega)), hbyte, bind_eq_bind, bind_some,
      if_neg (by decide), if_pos rfl, length_append, beBytes_length]
    rfl
  · simp only [if_neg hesc, append_nil, beBytes_length]

theorem decodeEscaped_null (n : Nat) {escape : Int} (k : Int → Data)
    (hesc : escape % 256 ^ n = escape) (hlength : length < -1) (rest : List UInt8) :
    decodeEscaped ctx x (beBytes n escape ++ (0x00 :: rest)) length n escape k
      = decodedNull (n + 1) ctx (k escape) := by
  have hbytes (bs : List UInt8) : bytesAt (beBytes n escape ++ bs) n = some (beBytes n escape) := by
    have h := bytesAt_append (beBytes n escape) bs
    rwa [beBytes_length] at h
  have hbyte : (beBytes n escape ++ (0x00 :: rest))[n]? = some 0x00 := by
    rw [List.getElem?_append_right (by rw [beBytes_length]), beBytes_length, Nat.sub_self]
    rfl
  unfold decodeEscaped
  rw [checkLength_enough (.inl (by omega)), hbytes, bind_eq_bind, bind_some,
    beValue_beBytes, hesc, if_pos rfl, checkLength_enough (.inl (by omega)), hbyte,
    bind_eq_bind, bind_some, if_pos rfl]

theorem bsdInt32_value {v : Int} (hv : -2 ^ 31 ≤ v ∧ v < 2 ^ 31) (hlength : length < -1)
    (rest : List UInt8) :
    bsdInt32 ctx x (beBytes 4 v ++ (if v = -2 ^ 31 then [0x01] else []) ++ rest) length
      = some (((beBytes 4 v ++ (if v = -2 ^ 31 then [0x01] else [])).length : Int),
          x.put .int (.int v), ctx) := by
  have hesc : (v = -2 ^ 31) = (v % 256 ^ 4 = 0x80000000) := by
    apply propext
    constructor <;> intro h <;> omega
  have hvalue : toSigned (2 ^ 31) (v % 256 ^ 4) = v := @toSigned_emod (2 ^ 31) v hv.1 hv.2
  have hdecode := decodeEscaped_value ctx x 4 v 0x80000000
    (fun u => x.put .int (.int (toSigned (2 ^ 31) u))) hlength rest
  rw [hvalue] at hdecode
  simp only [hesc]
  exact hdecode

theorem bsdFloat_value [CFloat] (f : UInt32) (hlength : length < -1) (rest : List UInt8) :
    bsdFloat ctx x (beBytes 4 f.toNat ++ (if f = 0xffffffff then [0x01] else []) ++ rest) length
      = some (((beBytes 4 f.toNat ++ (if f = 0xffffffff then [0x01] else [])).length : Int),
          x.put .double (.double (CFloat.ofFloat f)), ctx) := by
  have hf := f.toNat_lt
  have hesc : (f = 0xffffffff) = ((f.toNat : Int) % 256 ^ 4 = 0xffffffff) := by
    apply propext
    constructor
    · rintro rfl
      rfl
    · intro h
      apply UInt32.toNat_inj.mp
      show f.toNat = 4294967295
      omega
  have hdecode := decodeEscaped_value ctx x 4 f.toNat 0xffffffff
    (fun u => x.put .double (.double (CFloat.ofFloat (UInt32.ofNat u.toNat)))) hlength rest
  rw [uint32_ofNat_emod] at hdecode
  simp only [hesc]
  exact hdecode

theorem bsdDouble_value (d : UInt64) (hlength : length < -1) (rest : List UInt8) :
    bsdDouble ctx x
        (beBytes 8 d.toNat ++ (if d = 0xffffffffffffffff then [0x01] else []) ++ rest) length
      = some (((beBytes 8 d.toNat ++ (if d = 0xffffffffffffffff then [0x01] else [])).length : Int),
          x.put .double (.double d), ctx) := by
  have hd := d.toNat_lt
  have hesc : (d = 0xffffffffffffffff) = ((d.toNat : Int) % 256 ^ 8 = 0xffffffffffffffff) := by
    apply propext
    constructor
    · rintro rfl
      rfl
    · intro h
      apply UInt64.toNat_inj.mp
      show d.toNat = 18446744073709551615
      omega
  have hdecode := decodeEscaped_value ctx x 8 d.toNat 0xffffffffffffffff
    (fun u => x.put .double (.double (UInt64.ofNat u.toNat))) hlength rest
  rw [uint64_ofNat_emod] at hdecode
  simp only [hesc]
  exact hdecode

/-! ## Null -/

theorem bsdListmap_zero (hx : x.type ≠ .error) (h : Enough length 1) (bs : List UInt8) :
    bsdListmap ctx x (byte 0x00 :: bs) length = decodedNull 1 ctx x := by
  unfold bsdListmap
  rw [checkLength_enough h, opcodeAt_byte (by omega) (by omega), bind_eq_bind,
    bind_some,
    decodeCollection_skip ctx _ listmapList_valid h (by simp [listmapList]) (by omega) (by omega),
    checkDecode_skip hx,
    decodeCollection_skip ctx _ listmapMap_valid h (by simp [listmapMap]) (by omega) (by omega),
    checkDecode_skip hx, if_pos rfl]

theorem getNullToken_int32 : getNullToken .int32 = beBytes 4 0x80000000 ++ [0x00] := by decide

theorem getNullToken_float : getNullToken .float = beBytes 4 0xffffffff ++ [0x00] := by decide

theorem getNullToken_double : getNullToken .double = beBytes 8 0xffffffffffffffff ++ [0x00] := by
  decide

variable {ctxid : CtxId}

theorem bsdContext_null [CFloat] (hctxid : ctxid.regular = true)
    (hx : x.type ≠ .error) (hlength : length < -1) (rest : List UInt8) :
    ∃ x', bsdContext ctxid ctx x (getNullToken ctxid ++ rest) length
      = decodedNull (getNullToken ctxid).length ctx x' := by
  have h : Enough length 1 := .inl (by omega)
  cases ctxid with
  | global =>
    refine ⟨{ x with type := .string }, ?_⟩
    show bsdGlobal ctx x (byte 0x00 :: rest) length = _
    rw [bsdGlobal_other ctx x h (by omega) (by omega) (by omega), decodeOther, if_neg (by omega),
      if_pos rfl]
    rfl
  | unsignedOrString =>
    refine ⟨{ x with type := .int }, ?_⟩
    show bsdUis ctx x (byte 0x00 :: rest) length = _
    rw [bsdUis_byte ctx x h (by omega) (by omega) (by omega), decodeUnsigned, if_neg (by omega),
      if_neg (by omega), if_neg (by omega), if_neg (by omega), if_neg (by omega), if_pos rfl]
    rfl
  | number =>
    refine ⟨{ x with type := .int }, ?_⟩
    show bsdNumber ctx x (byte 0x00 :: rest) length = _
    rw [bsdNumber_byte ctx x h (.inl rfl) (by omega), if_pos rfl]
    rfl
  | int32 =>
    refine ⟨x.put .int (.int (toSigned (2 ^ 31) 0x80000000)), ?_⟩
    unfold bsdContext bsdInt32
    rw [getNullToken_int32, append_assoc, length_append, beBytes_length]
    exact decodeEscaped_null ctx x 4 _ (by decide) hlength rest
  | float =>
    refine ⟨x.put .double (.double (CFloat.ofFloat (UInt32.ofNat (0xffffffff : Int).toNat))), ?_⟩
    unfold bsdContext bsdFloat
    rw [getNullToken_float, append_assoc, length_append, beBytes_length]
    exact decodeEscaped_null ctx x 4 _ (by decide) hlength rest
  | double =>
    refine ⟨x.put .double (.double (UInt64.ofNat (0xffffffffffffffff : Int).toNat)), ?_⟩
    unfold bsdContext bsdDouble
    rw [getNullToken_double, append_assoc, length_append, beBytes_length]
    exact decodeEscaped_null ctx x 8 _ (by decide) hlength rest
  | listOrMap => exact ⟨x, bsdListmap_zero ctx x hx h rest⟩
  | unknown n => cases hctxid
  | chunked => cases hctxid
  | object => cases hctxid

theorem decodedNull_value {n : Int} {ctx : DCtx} (x : Data) (hk : ctx.topframe.kind ≠ .zlist)
    (heven : ctx.topframe.kind = .zmap → ctx.topframe.even = some false) :
    decodedNull n ctx x = some (n, { x with type := .null }, ctx) := by
  cases hkind : ctx.topframe.kind with
  | zlist => exact absurd hkind hk
  | zmap => simp [decodedNull, decodeNull, hkind, heven hkind]
  | _ => simp [decodedNull, decodeNull, hkind]

theorem decodedNull_close {n : Int} {ctx : DCtx} (x : Data)
    (hk : ctx.topframe.kind = .zlist
      ∨ ctx.topframe.kind = .zmap ∧ ctx.topframe.even = some true) :
    decodedNull n ctx x
      = some (n, x.put .close (.contType (bsdTypeFromFrameKind ctx.topframe.kind)), ctx.pop) := by
  rcases hk with hk | ⟨hk, heven⟩
  · simp [decodedNull, decodeNull, hk]
  · simp [decodedNull, decodeNull, hk, heven]

/-! ## Strings -/

theorem stringSegs_head {enc : StringEncoding} (henc : enc.Valid) (data : List UInt8) :
    ∃ (op : Int) (bs : List UInt8), (stringSegs data enc).flatten = byte op :: bs
      ∧ enc.smallOpcode ≤ op ∧ op ≤ enc.chunkedOpcode := by
  obtain ⟨hsmall, hmedium, hlarge, hlimits, hopcodes, hbyte⟩ := henc
  unfold stringSegs
  simp only
  split
  · exact ⟨_, _, rfl, by omega, by omega⟩
  split
  · exact ⟨_, _, rfl, by omega, by omega⟩
  · split
    · exact ⟨_, _, rfl, by omega, by omega⟩
    · exact ⟨_, _, rfl, by omega, by omega⟩

theorem bsdGlobal_string [CFloat] (data rest : List UInt8)
    (hdata : data.length ≤ globalString.largeLimit) (hlength : length < -1) :
    bsdGlobal ctx x ((stringSegs data globalString).flatten ++ rest) length
      = some (((stringSegs data globalString).flatten.length : Int),
          x.put .string (.bytes data), ctx) := by
  have hneg : length < 0 := by omega
  have hdecode := decodeString_stringSegs ctx { x with type := .int } globalString_valid data rest
    hdata (.inl hneg)
  obtain ⟨op, bs, hhead, hop, hop'⟩ := stringSegs_head globalString_valid data
  simp only [globalString] at hop hop'
  rw [hhead, cons_append] at hdecode ⊢
  rw [bsdGlobal_noninteger ctx x (.inl (by omega)) (by omega) (by omega) (by omega), hdecode,
    checkDecode_done (by simp)]
  rfl

theorem decodeString_chunked {enc : StringEncoding} (henc : enc.Valid)
    (hroom : ctx.stacksize ≠ bsdStackSize - 1) (h : Enough length 1) (bs : List UInt8) :
    decodeString ctx x (byte enc.chunkedOpcode :: bs) length enc
      = some (1, { x with type := .chunkedString }, ctx.push .chunked .chunked (-1)) := by
  obtain ⟨hsmall, hmedium, hlarge, hlimits, hopcodes, hbyte⟩ := henc
  unfold decodeString
  rw [opcodeAt_byte (by omega) (by omega), bind_eq_bind, bind_some,
    checkLength_enough h, if_neg (by omega), if_neg (by omega), if_neg (by omega), if_pos rfl,
    dOpenContainer_ok hroom rfl]
  rfl

theorem bsdGlobal_chunked [CFloat] (hroom : ctx.stacksize ≠ bsdStackSize - 1)
    (hlength : length < -1) (bs : List UInt8) :
    bsdGlobal ctx x (byte globalString.chunkedOpcode :: bs) length
      = some (1, { x with type := .chunkedString }, ctx.push .chunked .chunked (-1)) := by
  have hop : (0 : Int) ≤ globalString.chunkedOpcode ∧ (globalString.chunkedOpcode : Int) < 0x80 := by
    decide
  rw [bsdGlobal_noninteger ctx x (.inl (by omega)) (.inl hop.2) hop.1 (by omega),
    decodeString_chunked ctx _ globalString_valid hroom (.inl (by omega)),
    checkDecode_done (by omega)]

theorem bsdUis_chunked (hroom : ctx.stacksize ≠ bsdStackSize - 1) (hlength : length < -1)
    (bs : List UInt8) :
    bsdUis ctx x (byte uisString.chunkedOpcode :: bs) length
      = some (1, { x with type := .chunkedString }, ctx.push .chunked .chunked (-1)) := by
  have hop : (0 : Int) ≤ uisString.chunkedOpcode ∧ (uisString.chunkedOpcode : Int) < 256 := by
    decide
  unfold bsdUis
  rw [checkLength_enough (.inl (by omega)), opcodeAt_byte hop.1 hop.2, bind_eq_bind,
    bind_some, decodeString_chunked ctx x uisString_valid hroom (.inl (by omega)),
    checkDecode_done (by omega)]

theorem bsdChunked_chunk {data : List UInt8} (hpos : 0 < data.length) (hle : data.length ≤ 0xffff)
    (hlength : length < -1) (rest : List UInt8) :
    bsdChunked ctx x
        ([(data.length : Int) / 2 ^ 8, (data.length : Int)].map byte ++ data ++ rest) length
      = some ((data.length : Int) + 2, x.put .chunk (.bytes data), ctx) := by
  have hsize : beValue ([(data.length : Int) / 2 ^ 8, (data.length : Int)].map byte)
      = data.length := by
    simp only [map_cons, map_nil, beValue_two, byte_toNat]
    omega
  have hheader : bytesAt
      ([(data.length : Int) / 2 ^ 8, (data.length : Int)].map byte ++ data ++ rest) 2
      = some ([(data.length : Int) / 2 ^ 8, (data.length : Int)].map byte) := by
    rw [append_assoc]
    exact bytesAt_append _ (data ++ rest)
  unfold bsdChunked
  rw [checkLength_enough (.inl (by omega)), hheader, bind_eq_bind, bind_some, hsize,
    Int.toNat_natCast, if_neg (by omega),
    decodeFixed_enough ctx x rest _ (by simp) (.inl (by omega)), Nat.cast_add]
  rfl

theorem bsdChunked_close (hlength : length < -1) (rest : List UInt8) :
    bsdChunked ctx x (0x00 :: 0x00 :: rest) length
      = some (2, x.put .close (.contType .chunkedString), ctx.pop) := by
  have hheader : bytesAt (0x00 :: 0x00 :: rest) 2 = some [0x00, 0x00] :=
    bytesAt_append [0x00, 0x00] rest
  unfold bsdChunked
  rw [checkLength_enough (.inl (by omega)), hheader, bind_eq_bind, bind_some,
    if_pos (by decide)]

/-! ## Containers -/

variable {len : Int} {r : DRes}

theorem bsdGlobal_list [CFloat]
    (hctxid : ctxid.regular = true) (hlen : len < 2 ^ 31) (hlength : length < -1)
    (rest : List UInt8)
    (hopen : opened ctx { x with type := .string }
      (collectionSegs len ctxid globalList).flatten.length globalList len ctxid = some r)
    (hr : 0 < r.1) :
    bsdGlobal ctx x ((collectionSegs len ctxid globalList).flatten ++ rest) length = some r := by
  have hdecode := decodeCollection_collectionSegs ctx { x with type := .string } globalList_valid
    hctxid hlen hlength rest
  obtain ⟨op, bs, hhead, hop, hop'⟩ := collectionSegs_head globalList_valid len ctxid
  have hstring : op < globalString.smallOpcode ∨ globalString.chunkedOpcode < op := by
    simp only [globalString, globalList] at *
    omega
  simp only [globalList] at hop hop'
  rw [hopen] at hdecode
  rw [hhead, cons_append] at hdecode ⊢
  rw [bsdGlobal_noninteger ctx x (.inl (by omega)) (by omega) (by omega) (by omega),
    decodeString_skip ctx _ globalString_valid (.inl (by omega)) hstring (by omega) (by omega),
    checkDecode_skip (by simp), hdecode, checkDecode_done hr]

theorem bsdGlobal_map [CFloat]
    (hctxid : ctxid.regular = true) (hlen : len < 2 ^ 31) (hlength : length < -1)
    (rest : List UInt8)
    (hopen : opened ctx { x with type := .string }
      (collectionSegs len ctxid globalMap).flatten.length globalMap len ctxid = some r)
    (hr : 0 < r.1) :
    bsdGlobal ctx x ((collectionSegs len ctxid globalMap).flatten ++ rest) length = some r := by
  have hdecode := decodeCollection_collectionSegs ctx { x with type := .string } globalMap_valid
    hctxid hlen hlength rest
  obtain ⟨op, bs, hhead, hop, hop'⟩ := collectionSegs_head globalMap_valid len ctxid
  have hstring : op < globalString.smallOpcode ∨ globalString.chunkedOpcode < op := by
    simp only [globalString, globalMap] at *
    omega
  have hlist : op < globalList.emptyOpcode ∨ globalList.variableTypedOpcode < op := by
    simp only [globalList, globalMap] at *
    omega
  simp only [globalMap] at hop hop'
  rw [hopen] at hdecode
  rw [hhead, cons_append] at hdecode ⊢
  rw [bsdGlobal_noninteger ctx x (.inl (by omega)) (by omega) (by omega) (by omega),
    decodeString_skip ctx _ globalString_valid (.inl (by omega)) hstring (by omega) (by omega),
    checkDecode_skip (by simp),
    decodeCollection_skip ctx _ globalList_valid (.inl (by omega)) hlist (by omega) (by omega),
    checkDecode_skip (by simp), hdecode, checkDecode_done hr]

theorem bsdListmap_list (hctxid : ctxid.regular = true)
    (hlen : len < 2 ^ 31) (hlength : length < -1) (rest : List UInt8)
    (hopen : opened ctx x (collectionSegs len ctxid listmapList).flatten.length listmapList len
      ctxid = some r)
    (hr : 0 < r.1) :
    bsdListmap ctx x ((collectionSegs len ctxid listmapList).flatten ++ rest) length = some r := by
  have hdecode := decodeCollection_collectionSegs ctx x listmapList_valid hctxid hlen hlength rest
  obtain ⟨op, bs, hhead, hop, hop'⟩ := collectionSegs_head listmapList_valid len ctxid
  simp only [listmapList] at hop hop'
  rw [hopen] at hdecode
  rw [hhead, cons_append] at hdecode ⊢
  unfold bsdListmap
  rw [checkLength_enough (.inl (by omega)), opcodeAt_byte (by omega) (by omega),
    bind_eq_bind, bind_some, hdecode, checkDecode_done hr]

theorem bsdListmap_map (hx : x.type ≠ .error)
    (hctxid : ctxid.regular = true) (hlen : len < 2 ^ 31) (hlength : length < -1)
    (rest : List UInt8)
    (hopen : opened ctx x (collectionSegs len ctxid listmapMap).flatten.length listmapMap len
      ctxid = some r)
    (hr : 0 < r.1) :
    bsdListmap ctx x ((collectionSegs len ctxid listmapMap).flatten ++ rest) length = some r := by
  have hdecode := decodeCollection_collectionSegs ctx x listmapMap_valid hctxid hlen hlength rest
  obtain ⟨op, bs, hhead, hop, hop'⟩ := collectionSegs_head listmapMap_valid len ctxid
  have hlist : op < listmapList.emptyOpcode ∨ listmapList.variableTypedOpcode < op := by
    simp only [listmapList, listmapMap] at *
    omega
  simp only [listmapMap] at hop hop'
  rw [hopen] at hdecode
  rw [hhead, cons_append] at hdecode ⊢
  unfold bsdListmap
  rw [checkLength_enough (.inl (by omega)), opcodeAt_byte (by omega) (by omega),
    bind_eq_bind, bind_some,
    decodeCollection_skip ctx _ listmapList_valid (.inl (by omega)) hlist (by omega) (by omega),
    checkDecode_skip hx, hdecode, checkDecode_done hr]

theorem bsdGlobal_object [CFloat] (classid : UInt32) (hlength : length < -1) (rest : List UInt8) :
    ∃ x', bsdGlobal ctx x ((objectSegs classid).flatten ++ rest) length
      = instantiate (objectSegs classid).flatten.length x' ctx classid := by
  have henough {n : Int} : Enough length n := .inl (by omega)
  have hlt := classid.toNat_lt
  unfold objectSegs
  by_cases hdirect : classid < 0x10
  · have hid : classid.toNat < 16 := hdirect
    refine ⟨{ x with type := .string }, ?_⟩
    simp only [hdirect, decide_true, if_true, flatten_cons, flatten_nil,
      append_nil, cons_append, nil_append]
    rw [bsdGlobal_other ctx x henough (by omega) (by omega) (by omega), decodeOther,
      if_pos (by omega)]
    have hclassid : UInt32.ofNat (0x60 + (classid.toNat : Int) - 0x60).toNat = classid := by
      have : (0x60 + (classid.toNat : Int) - 0x60).toNat = classid.toNat := by omega
      rw [this, UInt32.ofNat_toNat]
    rw [hclassid]
    rfl
  · have hid : 16 ≤ classid.toNat := by
      have : ¬ classid.toNat < 16 := hdirect
      omega
    have hsub : (classid - 0x10).toNat = classid.toNat - 16 :=
      UInt32.toNat_sub_of_le classid 0x10 (UInt32.le_iff_toNat_le.mpr hid)
    have hpos := unsignedSegs_length_pos (classid - 0x10).toNat
    simp only [hdirect, decide_false, Bool.false_eq_true, if_false, flatten_cons,
      cons_append, nil_append]
    refine ⟨{ x with type := .string }.put .int (.int (classid - 0x10).toNat), ?_⟩
    rw [bsdGlobal_other ctx x henough (by omega) (by omega) (by omega), decodeOther,
      if_neg (by omega), if_neg (by omega), if_neg (by omega), if_neg (by omega), if_pos rfl,
      drop_succ_cons, drop_zero,
      bsdUis_unsignedSegs ctx _ (by omega) rest (.inl (by omega)),
      checkSubdecode_put ctx _ (by omega)]
    have hclassid : UInt32.ofNat (((classid - 0x10).toNat : Int) + 0x10).toNat = classid := by
      have : (((classid - 0x10).toNat : Int) + 0x10).toNat = classid.toNat := by omega
      rw [this, UInt32.ofNat_toNat]
    show instantiate _ _ ctx (UInt32.ofNat (((classid - 0x10).toNat : Int) + 0x10).toNat) = _
    rw [hclassid, length_cons, Nat.cast_add, Int.add_comm]
    rfl

/-! ## Class definitions -/

def sentField (named : Bool) (field : BsField) : BsField where
  name := if named then some (cstring (field.name.getD [])) else none
  ctxid := field.ctxid

def sentClass (cls : BsClass) : BsClass where
  classid := cls.classid
  classname := cls.classname.map cstring
  mode := .managed
  fields := cls.fields.map (sentField cls.classname.isSome)

theorem cstring_cstring (s : List UInt8) : cstring (cstring s) = cstring s := by
  unfold cstring
  induction s with
  | nil => rfl
  | cons b s ih =>
    by_cases hb : (b != 0) = true
    · simp only [takeWhile_cons, hb, if_true, ih]
    · simp only [takeWhile_cons, if_neg hb, takeWhile_nil]

def namesFit (cls : BsClass) : Prop :=
  cls.classname.isSome = true →
    (cstring (cls.classname.getD [])).length ≤ uisString.largeLimit
    ∧ ∀ field ∈ cls.fields, (cstring (field.name.getD [])).length ≤ uisString.largeLimit

theorem getElem?_of_drop {α : Type} {l : List α} {n : Nat} {a : α} {rest : List α}
    (h : l.drop n = a :: rest) : l[n]? = some a := by
  rw [← List.head?_drop, h]
  rfl

theorem drop_of_drop {α : Type} {l rest : List α} {n : Nat} (bytes : List α)
    (h : l.drop n = bytes ++ rest) : l.drop (n + bytes.length) = rest := by
  rw [← drop_drop, h, drop_left']
  rfl

theorem decodeFields_fieldSegs {named : Bool} {buf : List UInt8}
    {k : Int → Data → DCtx → List BsField → Option DRes} (hlength : length < 0)
    (fields : List BsField) (hregular : ∀ field ∈ fields, field.ctxid.regular = true)
    (hnames : named = true → ∀ field ∈ fields,
      (cstring (field.name.getD [])).length ≤ uisString.largeLimit)
    (nread : Nat) (acc : List BsField) (rest : List UInt8)
    (hbuf : buf.drop nread = (fieldSegs named fields).flatten ++ rest) :
    ∃ x', decodeFields named buf length k fields.length nread x ctx acc
      = k (nread + (fieldSegs named fields).flatten.length) x' ctx
          (acc ++ fields.map (sentField named)) := by
  induction fields generalizing nread x acc with
  | nil => exact ⟨x, by simp [decodeFields, fieldSegs]⟩
  | cons field fields ih =>
    have hctxid : CtxId.ofByte (byte field.ctxid.toNat) = field.ctxid :=
      CtxId.ofByte_toNat (hregular field (mem_cons_self ..))
    -- The byte of the context and the fields after it, once the name is read.
    have hstep (n : Nat) (x : Data) (name : Option (List UInt8))
        (hname : name = (sentField named field).name)
        (hdrop : buf.drop n = byte field.ctxid.toNat :: ((fieldSegs named fields).flatten ++ rest)) :
        ∃ x', (checkLength length ((n : Int) + 1) x ctx do
            let ctxid ← buf[(n : Int).toNat]?
            decodeFields named buf length k fields.length ((n : Int) + 1) x ctx
              (acc ++ [{ name := name, ctxid := .ofByte ctxid }]))
          = k ((n : Int) + 1 + (fieldSegs named fields).flatten.length) x' ctx
              (acc ++ (field :: fields).map (sentField named)) := by
      obtain ⟨x', hx'⟩ := ih x (fun f hf => hregular f (mem_cons_of_mem _ hf))
        (fun h f hf => hnames h f (mem_cons_of_mem _ hf)) (n + 1)
        (acc ++ [sentField named field]) (drop_of_drop [byte field.ctxid.toNat] hdrop)
      refine ⟨x', ?_⟩
      rw [checkLength_enough (.inl hlength), Int.toNat_natCast, getElem?_of_drop hdrop,
        bind_eq_bind, bind_some, hctxid, hname, map_cons]
      rw [append_assoc, singleton_append, Nat.cast_add] at hx'
      exact hx'
    rw [fieldSegs] at hbuf ⊢
    cases named with
    | true =>
      have hfit := hnames rfl field (mem_cons_self ..)
      have hpos := stringSegs_length_pos (cstring (field.name.getD [])) uisString
      simp only [if_true, flatten_append, flatten_cons, append_assoc,
        cons_append, nil_append] at hbuf
      obtain ⟨x', hx'⟩ := hstep
        (nread + (stringSegs (cstring (field.name.getD [])) uisString).flatten.length)
        (x.put .string (.bytes (cstring (field.name.getD []))))
        (some (cstring (cstring (field.name.getD []))))
        (by simp [sentField, cstring_cstring]) (drop_of_drop _ hbuf)
      refine ⟨x', ?_⟩
      simp only [length_cons, decodeFields, if_true, Int.toNat_natCast]
      rw [hbuf, bsdUis_stringSegs ctx x _ _ hfit (.inl (by omega)),
        checkSubdecode_put ctx x (by omega)]
      simp only [Data.put, Data.bytesContent, bind_eq_bind, bind_some]
      simp only [Nat.cast_add, Data.put, bind_eq_bind] at hx'
      rw [hx']
      simp only [flatten_append, flatten_cons, flatten_nil, length_append,
        length_cons, length_nil, Nat.cast_add]
      congr 1
      simp only [Nat.cast_one, Nat.cast_zero]
      omega
    | false =>
      simp only [Bool.false_eq_true, if_false, flatten_cons, cons_append,
        nil_append] at hbuf
      obtain ⟨x', hx'⟩ := hstep nread x none rfl hbuf
      refine ⟨x', ?_⟩
      simp only [length_cons, decodeFields, Bool.false_eq_true, if_false]
      rw [hx']
      simp only [nil_append, flatten_append, flatten_cons, flatten_nil,
        length_append, length_cons, length_nil, Nat.cast_add]
      congr 1
      simp only [Nat.cast_one, Nat.cast_zero]
      omega

variable {cls : BsClass}

theorem decodeClassFields_segs {buf : List UInt8} {classid : Int}
    {name : Option (List UInt8)} (hlength : length < 0) (hclass : checkClassdef cls = true)
    (hfit : namesFit cls) (hn : cls.nfields < 2 ^ 32) (nread : Nat) (rest : List UInt8)
    (hbuf : buf.drop nread = (unsignedSegs cls.nfields).flatten
      ++ (fieldSegs cls.classname.isSome cls.fields).flatten ++ rest) :
    ∃ x', decodeClassFields cls.classname.isSome buf length classid nread x ctx name
      = finishClass classid name (nread + ((unsignedSegs cls.nfields).flatten
          ++ (fieldSegs cls.classname.isSome cls.fields).flatten).length) x' ctx
          (cls.fields.map (sentField cls.classname.isSome)) := by
  have hregular : ∀ field ∈ cls.fields, field.ctxid.regular = true := by
    intro field hfield
    have := all_eq_true.mp hclass field hfield
    simp only [Bool.and_eq_true] at this
    exact this.2
  have hpos := unsignedSegs_length_pos cls.nfields
  have hnonneg : 0 ≤ cls.nfields := by
    unfold BsClass.nfields
    omega
  rw [append_assoc] at hbuf
  obtain ⟨x', hx'⟩ := decodeFields_fieldSegs ctx (x.put .int (.int cls.nfields)) hlength cls.fields hregular (fun h => (hfit h).2)
    (nread + (unsignedSegs cls.nfields).flatten.length) [] rest (drop_of_drop _ hbuf)
  refine ⟨x', ?_⟩
  unfold decodeClassFields
  rw [Int.toNat_natCast, hbuf, bsdUis_unsignedSegs ctx x ⟨hnonneg, hn⟩ _ (.inl (by omega)),
    checkSubdecode_put ctx x (by omega)]
  simp only [Data.put, Data.intContent, bind_eq_bind, bind_some]
  simp only [Nat.cast_add, Data.put, nil_append] at hx'
  have hfields : cls.nfields.toNat = cls.fields.length := Int.toNat_natCast _
  rw [hfields, hx', length_append, Nat.cast_add, Int.add_assoc]

theorem decodeClass_head (named : Bool) (classid : UInt32) (hlength : length < -1)
    (buf bs : List UInt8)
    (hbuf : buf = byte (if named then 0x71 else 0x72)
      :: ((unsignedSegs classid.toNat).flatten ++ bs)) :
    decodeClass ctx x buf length
      = let n := 1 + (unsignedSegs classid.toNat).flatten.length
        let x := x.put .int (.int classid.toNat)
        if named then
          checkSubdecode n (bsdUis ctx x (buf.drop n) (length - n)) .string fun nread x ctx => do
            let name ← x.bytesContent
            decodeClassFields true buf length classid.toNat nread x ctx (some (cstring name))
        else decodeClassFields false buf length classid.toNat n x ctx none := by
  have hid := classid.toNat_lt
  have hpos := unsignedSegs_length_pos classid.toNat
  have hop : opcodeAt buf = some (if named then 0x71 else 0x72) := by
    rw [hbuf, opcodeAt_byte] <;> split <;> omega
  have hdrop : buf.drop 1 = (unsignedSegs classid.toNat).flatten ++ bs := by
    rw [hbuf]
    rfl
  have hnread : ((1 : Int) + (unsignedSegs classid.toNat).flatten.length).toNat
      = 1 + (unsignedSegs classid.toNat).flatten.length := by omega
  unfold decodeClass
  rw [checkLength_enough (.inl (by omega)), hop, bind_eq_bind, bind_some,
    if_neg (by cases named <;> simp), hdrop,
    bsdUis_unsignedSegs ctx x (by omega) bs (.inl (by omega)), checkSubdecode_put ctx x (by omega)]
  simp only [Data.put, Data.intContent, bind_eq_bind, bind_some, hnread]
  cases named <;> rfl

/-- Class definitions are read up to the collection they are added to. -/
theorem decodeClass_classSegs (hlength : length < -1)
    (hclass : checkClassdef cls = true) (hfit : namesFit cls) (hn : cls.nfields < 2 ^ 32)
    (rest : List UInt8) :
    ∃ x', decodeClass ctx x ((classSegs cls).flatten ++ rest) length
      = finishClass cls.classid.toNat (sentClass cls).classname (classSegs cls).flatten.length x'
          ctx (sentClass cls).fields := by
  have hneg : length < 0 := by omega
  -- The number of fields and the fields, wherever they start.
  have hfields (n : Nat) (x : Data) (name : Option (List UInt8))
      (hbuf : ((classSegs cls).flatten ++ rest).drop n = (unsignedSegs cls.nfields).flatten
        ++ (fieldSegs cls.classname.isSome cls.fields).flatten ++ rest) :=
    @decodeClassFields_segs _ ctx x cls _ cls.classid.toNat name hneg hclass hfit hn n rest hbuf
  cases hname : cls.classname with
  | none =>
    have hsegs : (classSegs cls).flatten = byte (if false then 0x71 else 0x72)
        :: ((unsignedSegs cls.classid.toNat).flatten
          ++ ((unsignedSegs cls.nfields).flatten ++ (fieldSegs false cls.fields).flatten)) := by
      simp [classSegs, hname]
    obtain ⟨x', hx'⟩ := hfields (1 + (unsignedSegs cls.classid.toNat).flatten.length)
      (x.put .int (.int cls.classid.toNat)) none
      (drop_of_drop _ (by simp [hsegs, hname]))
    refine ⟨x', ?_⟩
    rw [decodeClass_head ctx x false cls.classid hlength _
      ((unsignedSegs cls.nfields).flatten ++ (fieldSegs false cls.fields).flatten ++ rest)
      (by rw [hsegs, cons_append, append_assoc])]
    simp only [hname, isSome_none, Nat.cast_add, Nat.cast_one] at hx'
    simp only [Bool.false_eq_true, if_false, Nat.cast_add, Nat.cast_one]
    rw [hx', hsegs, sentClass, hname]
    simp only [length_cons, length_append, Nat.cast_add, Nat.cast_one, map_none,
      isSome_none]
    congr 1
    omega
  | some name =>
    have hsegs : (classSegs cls).flatten = byte (if true then 0x71 else 0x72)
        :: ((unsignedSegs cls.classid.toNat).flatten ++ ((stringSegs (cstring name) uisString).flatten
          ++ ((unsignedSegs cls.nfields).flatten ++ (fieldSegs true cls.fields).flatten))) := by
      simp [classSegs, hname]
    have hnamefit : (cstring name).length ≤ uisString.largeLimit := by
      have := (hfit (by rw [hname]; rfl)).1
      rwa [hname] at this
    have hpos := stringSegs_length_pos (cstring name) uisString
    have hdrop : ((classSegs cls).flatten ++ rest).drop
          (1 + (unsignedSegs cls.classid.toNat).flatten.length)
        = (stringSegs (cstring name) uisString).flatten ++ ((unsignedSegs cls.nfields).flatten
          ++ (fieldSegs cls.classname.isSome cls.fields).flatten ++ rest) :=
      drop_of_drop _ (by simp [hsegs, hname])
    obtain ⟨x', hx'⟩ := hfields (1 + (unsignedSegs cls.classid.toNat).flatten.length
        + (stringSegs (cstring name) uisString).flatten.length)
      ((x.put .int (.int cls.classid.toNat)).put .string (.bytes (cstring name)))
      (some (cstring (cstring name))) (drop_of_drop _ hdrop)
    refine ⟨x', ?_⟩
    rw [decodeClass_head ctx x true cls.classid hlength _
      ((stringSegs (cstring name) uisString).flatten ++ ((unsignedSegs cls.nfields).flatten
        ++ (fieldSegs true cls.fields).flatten) ++ rest)
      (by rw [hsegs, cons_append, append_assoc])]
    simp only [if_true]
    rw [hdrop, bsdUis_stringSegs ctx _ _ _ hnamefit (.inl (by omega)),
      checkSubdecode_put ctx _ (by omega)]
    simp only [hname, isSome_some, Nat.cast_add, Nat.cast_one, Data.put,
      cstring_cstring] at hx'
    simp only [Data.put, Data.bytesContent, bind_eq_bind, bind_some,
      cstring_cstring, Nat.cast_add, Nat.cast_one]
    rw [hx', hsegs, sentClass, hname]
    simp only [length_cons, length_append, Nat.cast_add, Nat.cast_one, map_some,
      isSome_some]
    congr 1
    omega

/-- The class that `bsdGlobal` reads, once it is in the collection. -/
def DCtx.define (ctx : DCtx) (coll : ClassColl) : DCtx :=
  { ctx with classcoll := coll, nalloc := ctx.nalloc + 1 }

theorem bsdGlobal_class [CFloat] {coll : ClassColl} (hlength : length < -1)
    (hclass : checkClassdef cls = true) (hfit : namesFit cls) (hn : cls.nfields < 2 ^ 32)
    (hset : ctx.classcoll.bsClasscollSet { block := ctx.nalloc, cls := sentClass cls } = some coll)
    (rest : List UInt8) :
    ∃ x' : Data, bsdGlobal ctx x ((classSegs cls).flatten ++ rest) length
      = some (((classSegs cls).flatten.length : Int),
          x'.put .classdef (.classdef { block := ctx.nalloc, cls := sentClass cls }),
          ctx.define coll) := by
  have h : Enough length 1 := .inl (by omega)
  obtain ⟨op, bs, hhead, hop⟩ : ∃ (op : Int) (bs : List UInt8),
      (classSegs cls).flatten = byte op :: bs ∧ (op = 0x71 ∨ op = 0x72) := by
    refine ⟨if cls.classname.isSome then 0x71 else 0x72, _, rfl, ?_⟩
    split
    · exact .inl rfl
    · exact .inr rfl
  obtain ⟨x', hx'⟩ := decodeClass_classSegs ctx { x with type := .string } hlength hclass hfit hn rest
  have hid : UInt32.ofNat (cls.classid.toNat : Int).toNat = cls.classid := by
    rw [Int.toNat_natCast, UInt32.ofNat_toNat]
  have hcls : ({ classid := UInt32.ofNat (cls.classid.toNat : Int).toNat
                 classname := (sentClass cls).classname
                 mode := .managed
                 fields := (sentClass cls).fields } : BsClass) = sentClass cls := by
    rw [hid]
    rfl
  have hstring : op < globalString.smallOpcode ∨ globalString.chunkedOpcode < op := by
    simp only [globalString]
    omega
  have hlist : op < globalList.emptyOpcode ∨ globalList.variableTypedOpcode < op := by
    simp only [globalList]
    omega
  have hmap : op < globalMap.emptyOpcode ∨ globalMap.variableTypedOpcode < op := by
    simp only [globalMap]
    omega
  have hpos : (0 : Int) < (classSegs cls).flatten.length := by
    rw [hhead, length_cons]
    omega
  refine ⟨x', ?_⟩
  rw [finishClass, hcls] at hx'
  unfold bsdAddClass at hx'
  rw [hset] at hx'
  generalize (classSegs cls).flatten.length = n at *
  rw [hhead, cons_append] at hx' ⊢
  rw [bsdGlobal_noninteger ctx x h (by omega) (by omega) (by omega),
    decodeString_skip ctx _ globalString_valid h hstring (by omega) (by omega),
    checkDecode_skip (by simp),
    decodeCollection_skip ctx _ globalList_valid h hlist (by omega) (by omega),
    checkDecode_skip (by simp),
    decodeCollection_skip ctx _ globalMap_valid h hmap (by omega) (by omega),
    checkDecode_skip (by simp), hx']
  exact checkDecode_done hpos _ _ _

end

end Mihini.Bysant
