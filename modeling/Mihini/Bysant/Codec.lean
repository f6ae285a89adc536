import Mihini.Bysant.Plan
import Mihini.Bysant.Deserializer

/-!
# Values and their bytes

What the deserializer makes of the bytes that the serializer writes for a value.
The tables of `bysant_common.c` are used by both sides; `Valid` collects the
inequalities between opcodes and limits that make the size classes of a table
disjoint and wide enough.
-/

namespace Mihini.Bysant

open Lib.Bytes List Option

/-- A length that lets `n` bytes be read: none is given, or it is large enough. -/
def Enough (length n : Int) : Prop := length < 0 ∨ n ≤ length

theorem Enough.mono {length n m : Int} (h : Enough length n) (hm : m ≤ n) : Enough length m := by
  rcases h with h | h
  · exact .inl h
  · exact .inr (Int.le_trans hm h)

theorem checkLength_enough {length n : Int} (h : Enough length n) (x : Data) (ctx : DCtx)
    (k : Option DRes) : checkLength length n x ctx k = k := by
  have hcheck : ¬ (0 ≤ length ∧ length < n) := by
    rcases h with h | h <;> omega
  simp only [checkLength, if_neg hcheck]

theorem bytesAt_append (bytes rest : List UInt8) :
    bytesAt (bytes ++ rest) bytes.length = some bytes := by
  have hle : bytes.length ≤ (bytes ++ rest).length := by
    rw [length_append]
    omega
  rw [bytesAt, if_pos hle, take_left']
  rfl

theorem decodeFixed_enough {length : Int} {n : Nat} {bytes : List UInt8} (ctx : DCtx) (x : Data)
    (rest : List UInt8) (k : List UInt8 → Data) (hn : bytes.length = n) (h : Enough length n) :
    decodeFixed ctx x (bytes ++ rest) length n k = some ((n : Int), k bytes, ctx) := by
  subst hn
  unfold decodeFixed
  rw [checkLength_enough h, bytesAt_append]
  rfl

theorem opcodeAt_byte {op : Int} (h0 : 0 ≤ op) (h1 : op < 256) (bs : List UInt8) :
    opcodeAt (byte op :: bs) = some op := by
  rw [opcodeAt, List.head?_cons, map_some, byte_toNat_of_lt h0 h1]

theorem opcode_enough {op length : Int} (h0 : 0 ≤ op) (h1 : op < 256) (h : Enough length 1)
    {bs : List UInt8} {x : Data} {ctx : DCtx} {k : Int → Option DRes} :
    (opcodeAt (byte op :: bs) >>= fun op => checkLength length 1 x ctx (k op)) = k op := by
  rw [opcodeAt_byte h0 h1, bind_eq_bind, bind_some, checkLength_enough h]

theorem beValue_one (a : UInt8) : beValue [a] = a.toNat := by simp [beValue]

theorem beValue_two (a b : UInt8) : beValue [a, b] = a.toNat * 256 + b.toNat := by simp [beValue]

theorem beValue_three (a b c : UInt8) :
    beValue [a, b, c] = (a.toNat * 256 + b.toNat) * 256 + c.toNat := by simp [beValue]

theorem flatten_singletons (bs : List UInt8) : (bs.map fun b => [b]).flatten = bs := by
  induction bs with
  | nil => rfl
  | cons b bs ih => simp [ih]

theorem checkDecode_done {n : Int} (hn : 0 < n) (x : Data) (ctx : DCtx)
    (k : Data → DCtx → Option DRes) :
    checkDecode (some (n, x, ctx)) k = some (n, x, ctx) := by
  have hne : n ≠ 0 := by omega
  simp [checkDecode, hne]

theorem checkDecode_skip {x : Data} (hx : x.type ≠ .error) (ctx : DCtx)
    (k : Data → DCtx → Option DRes) : checkDecode (some (0, x, ctx)) k = k x ctx := by
  simp [checkDecode, hx]

/-! ## Strings -/

namespace StringEncoding

structure Valid (e : StringEncoding) : Prop where
  small : e.smallOpcode + e.smallLimit < e.mediumOpcode
  medium : e.mediumLimit ≤ e.smallLimit + (e.largeOpcode - e.mediumOpcode) * 256
  large : e.largeLimit ≤ e.mediumLimit + 65536
  limits : e.smallLimit ≤ e.mediumLimit ∧ e.mediumLimit ≤ e.largeLimit
  opcodes : e.mediumOpcode ≤ e.largeOpcode ∧ e.largeOpcode < e.chunkedOpcode
  byte : e.chunkedOpcode < 256

end StringEncoding

theorem globalString_valid : globalString.Valid := by
  constructor <;> decide

theorem uisString_valid : uisString.Valid := by
  constructor <;> decide

theorem stringEncoding_valid {context : CtxId} {enc : StringEncoding}
    (h : stringEncoding context = some enc) : enc.Valid := by
  cases context with
  | global =>
    cases h
    exact globalString_valid
  | unsignedOrString =>
    cases h
    exact uisString_valid
  | _ => cases h

theorem stringEncoding_largeLimit {context : CtxId} {enc : StringEncoding}
    (h : stringEncoding context = some enc) : globalString.largeLimit ≤ enc.largeLimit := by
  cases context with
  | global =>
    cases h
    exact Nat.le_refl _
  | unsignedOrString =>
    cases h
    decide
  | _ => cases h

section
variable {length : Int} {enc : StringEncoding} (ctx : DCtx) (x : Data)

theorem decodeString_skip {op : Int} (henc : enc.Valid) (h : Enough length 1)
    (hop : op < enc.smallOpcode ∨ enc.chunkedOpcode < op) (h0 : 0 ≤ op) (h1 : op < 256)
    (bs : List UInt8) :
    decodeString ctx x (byte op :: bs) length enc = some (0, { x with type := .string }, ctx) := by
  have hsmall := henc.small
  have hopcodes := henc.opcodes
  rw [decodeString, opcode_enough h0 h1 h, if_neg (by omega), if_neg (by omega), if_neg (by omega),
    if_neg (by omega)]

theorem decodeText_enough (header : List UInt8) {n : Nat} {len : List UInt8 → Nat}
    {data : List UInt8} (rest : List UInt8) (hheader : header.length = n)
    (hlen : len header = data.length) (h : Enough length (n + data.length)) :
    decodeText ctx x (header ++ (data ++ rest)) length n len
      = some ((n : Int) + data.length, x.put .string (.bytes data), ctx) := by
  subst hheader
  unfold decodeText
  rw [checkLength_enough (h.mono (by omega)), bytesAt_append]
  show decodeFixed ctx x _ length (header.length + len header) _ = _
  rw [hlen, ← append_assoc, decodeFixed_enough ctx x rest _ (length_append ..)
    (by rw [Nat.cast_add]; exact h), Nat.cast_add, drop_left']
  rfl

/-- A string short enough for one block, in its size class. -/
theorem decodeString_stringSegs (henc : enc.Valid) (data rest : List UInt8)
    (hlen : data.length ≤ enc.largeLimit)
    (h : Enough length (stringSegs data enc).flatten.length) :
    decodeString ctx x ((stringSegs data enc).flatten ++ rest) length enc
      = some (((stringSegs data enc).flatten.length : Int), x.put .string (.bytes data), ctx) := by
  obtain ⟨hsmall, hmedium, hlarge, hlimits, hopcodes, hbyte⟩ := henc
  unfold stringSegs at h ⊢
  simp only at h ⊢
  by_cases h1 : data.length ≤ enc.smallLimit
  · simp only [if_pos h1, flatten_append, flatten_cons, flatten_nil,
      append_nil, append_assoc, length_append, Nat.cast_add] at h ⊢
    unfold decodeString
    rw [cons_append, opcode_enough (by omega) (by omega) (h.mono (by simp)), if_pos (by omega)]
    exact decodeText_enough ctx _ [byte _] rest rfl (by omega) h
  · by_cases h2 : data.length ≤ enc.mediumLimit
    · simp only [if_neg h1, if_pos h2, flatten_append, flatten_cons, flatten_nil,
        append_nil, append_assoc, length_append, Nat.cast_add, map_cons,
        map_nil] at h ⊢
      unfold decodeString
      rw [cons_append, opcode_enough (by omega) (by omega) (h.mono (by simp; omega)), if_neg (by omega), if_pos (by omega)]
      refine decodeText_enough ctx _ [byte _, byte _] rest rfl ?_ h
      simp only [drop_succ_cons, drop_zero, beValue_one, byte_toNat]
      omega
    · simp only [if_neg h1, if_neg h2, if_pos hlen, flatten_append, flatten_cons,
        flatten_nil, append_nil, append_assoc, length_append, Nat.cast_add,
        map_cons, map_nil] at h ⊢
      unfold decodeString
      rw [cons_append, opcode_enough (by omega) (by omega) (h.mono (by simp; omega)), if_neg (by omega), if_neg (by omega),
        if_pos rfl]
      refine decodeText_enough ctx _ [byte _, byte _, byte _] rest rfl ?_ h
      simp only [drop_succ_cons, drop_zero, beValue_two, byte_toNat]
      omega

end

/-! ## Integers -/

namespace IntegerEncoding

structure Valid (e : IntegerEncoding) : Prop where
  tiny : 0 ≤ e.tinyZeroOpcode + e.tinyMin ∧ e.tinyZeroOpcode + e.tinyMax < e.smallPosOpcode
  signs : e.tinyMin ≤ 0 ∧ 0 ≤ e.tinyMax
  mins : e.smallMin ≤ e.tinyMin ∧ e.mediumMin ≤ e.smallMin ∧ e.largeMin ≤ e.mediumMin
  maxs : e.tinyMax ≤ e.smallMax ∧ e.smallMax ≤ e.mediumMax ∧ e.mediumMax ≤ e.largeMax
  smallPos : e.smallMax ≤ e.tinyMax + (e.smallNegOpcode - e.smallPosOpcode) * 2 ^ 8
  smallNeg : e.tinyMin - (e.mediumPosOpcode - e.smallNegOpcode) * 2 ^ 8 ≤ e.smallMin
  mediumPos : e.mediumMax ≤ e.smallMax + (e.mediumNegOpcode - e.mediumPosOpcode) * 2 ^ 16
  mediumNeg : e.smallMin - (e.largePosOpcode - e.mediumNegOpcode) * 2 ^ 16 ≤ e.mediumMin
  largePos : e.largeMax ≤ e.mediumMax + (e.largeNegOpcode - e.largePosOpcode) * 2 ^ 24
  largeNeg : e.mediumMin - (e.lastLargeNegOpcode + 1 - e.largeNegOpcode) * 2 ^ 24 ≤ e.largeMin
  last : e.lastLargeNegOpcode < e.int32Opcode ∧ e.int32Opcode < e.int64Opcode ∧ e.int64Opcode < 256

end IntegerEncoding

theorem globalInteger_valid : globalInteger.Valid := by
  constructor <;> decide

theorem numberInteger_valid : numberInteger.Valid := by
  constructor <;> decide

section
variable {length : Int} (ctx : DCtx) (x : Data)

variable {v : Int}

theorem decodeItem_enough (bytes : List UInt8) {n : Nat} (rest : List UInt8) {k : Int → Int}
    (hn : bytes.length = n) (h : Enough length n) (hk : k (beValue (bytes.drop 1)) = v) :
    decodeItem ctx x (bytes ++ rest) length n k = some ((n : Int), x.put .int (.int v), ctx) := by
  unfold decodeItem
  rw [decodeFixed_enough ctx x rest _ hn h, hk]

variable {enc : IntegerEncoding}

/-- An opcode that is not one of integers is left to others. -/
theorem decodeInteger_skip {op : Int} (henc : enc.Valid) (h : Enough length 1)
    (hop : op < enc.tinyZeroOpcode + enc.tinyMin ∨ enc.int64Opcode < op) (h0 : 0 ≤ op)
    (h1 : op < 256) (bs : List UInt8) :
    decodeInteger ctx x (byte op :: bs) length enc = some (0, { x with type := .int }, ctx) := by
  obtain ⟨htiny, hsigns, hmins, hmaxs, hsp, hsn, hmp, hmn, hlp, hln, hlast⟩ := henc
  rw [decodeInteger, opcode_enough h0 h1 h]
  rw [if_neg (by omega), if_neg (by omega), if_neg (by omega), if_neg (by omega),
    if_neg (by omega), if_neg (by omega), if_neg (by omega), if_neg (by omega), if_neg (by omega)]

variable {offset : Int}

theorem decodeInteger_small (henc : enc.Valid) (hv : enc.smallMin ≤ v ∧ v ≤ enc.smallMax)
    (hout : ¬ (enc.tinyMin ≤ v ∧ v ≤ enc.tinyMax))
    (hoffset : offset = computeOffset v enc.tinyMin enc.tinyMax) (rest : List UInt8)
    (h : Enough length 2) :
    decodeInteger ctx x ([(if v < 0 then enc.smallNegOpcode else enc.smallPosOpcode) + offset / 2 ^ 8, offset].map byte
      ++ rest) length enc = some (2, x.put .int (.int v), ctx) := by
  obtain ⟨htiny, hsigns, hmins, hmaxs, hsp, hsn, hmp, hmn, hlp, hln, hlast⟩ := henc
  unfold computeOffset at hoffset
  unfold decodeInteger
  by_cases hneg : v < 0
  · simp only [if_pos hneg] at hoffset ⊢
    have hbelow : v < enc.tinyMin := by omega
    rw [map_cons, cons_append, opcode_enough (by omega) (by omega) (h.mono (by omega)), if_neg (by omega), if_neg (by omega), if_pos (by omega)]
    refine decodeItem_enough ctx _ [byte _, byte _] rest rfl h ?_
    simp only [drop_succ_cons, drop_zero, beValue_one, byte_toNat]
    omega
  · simp only [if_neg hneg] at hoffset ⊢
    have habove : enc.tinyMax < v := by omega
    rw [map_cons, cons_append, opcode_enough (by omega) (by omega) (h.mono (by omega)), if_neg (by omega), if_pos (by omega)]
    refine decodeItem_enough ctx _ [byte _, byte _] rest rfl h ?_
    simp only [drop_succ_cons, drop_zero, beValue_one, byte_toNat]
    omega

theorem decodeInteger_medium (henc : enc.Valid) (hv : enc.mediumMin ≤ v ∧ v ≤ enc.mediumMax)
    (hout : ¬ (enc.smallMin ≤ v ∧ v ≤ enc.smallMax))
    (hoffset : offset = computeOffset v enc.smallMin enc.smallMax) (rest : List UInt8)
    (h : Enough length 3) :
    decodeInteger ctx x ([(if v < 0 then enc.mediumNegOpcode else enc.mediumPosOpcode) + offset / 2 ^ 16, offset / 2 ^ 8, offset].map byte
      ++ rest) length enc = some (3, x.put .int (.int v), ctx) := by
  obtain ⟨htiny, hsigns, hmins, hmaxs, hsp, hsn, hmp, hmn, hlp, hln, hlast⟩ := henc
  unfold computeOffset at hoffset
  unfold decodeInteger
  by_cases hneg : v < 0
  · simp only [if_pos hneg] at hoffset ⊢
    have hbelow : v < enc.smallMin := by omega
    rw [map_cons, cons_append, opcode_enough (by omega) (by omega) (h.mono (by omega)), if_neg (by omega), if_neg (by omega), if_neg (by omega), if_neg (by omega),
      if_pos (by omega)]
    refine decodeItem_enough ctx _ [byte _, byte _, byte _] rest rfl h ?_
    simp only [drop_succ_cons, drop_zero, beValue_two, byte_toNat]
    omega
  · simp only [if_neg hneg] at hoffset ⊢
    have habove : enc.smallMax < v := by omega
    rw [map_cons, cons_append, opcode_enough (by omega) (by omega) (h.mono (by omega)), if_neg (by omega), if_neg (by omega), if_neg (by omega), if_pos (by omega)]
    refine decodeItem_enough ctx _ [byte _, byte _, byte _] rest rfl h ?_
    simp only [drop_succ_cons, drop_zero, beValue_two, byte_toNat]
    omega

theorem decodeInteger_large (henc : enc.Valid) (hv : enc.largeMin ≤ v ∧ v ≤ enc.largeMax)
    (hout : ¬ (enc.mediumMin ≤ v ∧ v ≤ enc.mediumMax))
    (hoffset : offset = computeOffset v enc.mediumMin enc.mediumMax) (rest : List UInt8)
    (h : Enough length 4) :
    decodeInteger ctx x ([(if v < 0 then enc.largeNegOpcode else enc.largePosOpcode) + offset / 2 ^ 24, offset / 2 ^ 16, offset / 2 ^ 8, offset].map byte
      ++ rest) length enc = some (4, x.put .int (.int v), ctx) := by
  obtain ⟨htiny, hsigns, hmins, hmaxs, hsp, hsn, hmp, hmn, hlp, hln, hlast⟩ := henc
  unfold computeOffset at hoffset
  unfold decodeInteger
  by_cases hneg : v < 0
  · simp only [if_pos hneg] at hoffset ⊢
    have hbelow : v < enc.mediumMin := by omega
    rw [map_cons, cons_append, opcode_enough (by omega) (by omega) (h.mono (by omega)), if_neg (by omega), if_neg (by omega), if_neg (by omega), if_neg (by omega), if_neg (by omega), if_neg (by omega),
      if_pos (by omega)]
    refine decodeItem_enough ctx _ [byte _, byte _, byte _, byte _] rest rfl h ?_
    simp only [drop_succ_cons, drop_zero, beValue_three, byte_toNat]
    omega
  · simp only [if_neg hneg] at hoffset ⊢
    have habove : enc.mediumMax < v := by omega
    rw [map_cons, cons_append, opcode_enough (by omega) (by omega) (h.mono (by omega)), if_neg (by omega), if_neg (by omega), if_neg (by omega), if_neg (by omega), if_neg (by omega),
      if_pos (by omega)]
    refine decodeItem_enough ctx _ [byte _, byte _, byte _, byte _] rest rfl h ?_
    simp only [drop_succ_cons, drop_zero, beValue_three, byte_toNat]
    omega

theorem decodeInteger_int32 (henc : enc.Valid) (hv : -2 ^ 31 ≤ v ∧ v < 2 ^ 31)
    (rest : List UInt8) (h : Enough length 5) :
    decodeInteger ctx x (byte enc.int32Opcode :: beBytes 4 v ++ rest) length enc
      = some (5, x.put .int (.int v), ctx) := by
  obtain ⟨htiny, hsigns, hmins, hmaxs, hsp, hsn, hmp, hmn, hlp, hln, hlast⟩ := henc
  unfold decodeInteger
  rw [cons_append, opcode_enough (by omega) (by omega) (h.mono (by omega)), if_neg (by omega), if_neg (by omega),
    if_neg (by omega), if_neg (by omega), if_neg (by omega), if_neg (by omega), if_neg (by omega),
    if_pos rfl]
  refine decodeItem_enough ctx _ (byte _ :: beBytes 4 v) rest (by simp [beBytes_length]) h ?_
  rw [drop_succ_cons, drop_zero, beValue_beBytes]
  exact @toSigned_emod (2 ^ 31) v hv.1 hv.2

theorem decodeInteger_int64 (henc : enc.Valid) (hv : -2 ^ 63 ≤ v ∧ v < 2 ^ 63)
    (rest : List UInt8) (h : Enough length 9) :
    decodeInteger ctx x (byte enc.int64Opcode :: beBytes 8 v ++ rest) length enc
      = some (9, x.put .int (.int v), ctx) := by
  obtain ⟨htiny, hsigns, hmins, hmaxs, hsp, hsn, hmp, hmn, hlp, hln, hlast⟩ := henc
  unfold decodeInteger
  rw [cons_append, opcode_enough (by omega) (by omega) (h.mono (by omega)), if_neg (by omega), if_neg (by omega),
    if_neg (by omega), if_neg (by omega), if_neg (by omega), if_neg (by omega), if_neg (by omega),
    if_neg (by omega), if_pos rfl]
  refine decodeItem_enough ctx _ (byte _ :: beBytes 8 v) rest (by simp [beBytes_length]) h ?_
  rw [drop_succ_cons, drop_zero, beValue_beBytes]
  exact @toSigned_emod (2 ^ 63) v hv.1 hv.2

theorem decodeInteger_integerSegs (henc : enc.Valid) (v : Int) (hv : -2 ^ 63 ≤ v ∧ v < 2 ^ 63)
    (rest : List UInt8) (h : Enough length (integerSegs v enc).flatten.length) :
    decodeInteger ctx x ((integerSegs v enc).flatten ++ rest) length enc
      = some (((integerSegs v enc).flatten.length : Int), x.put .int (.int v), ctx) := by
  have hvalid := henc
  obtain ⟨htiny, hsigns, hmins, hmaxs, hsp, hsn, hmp, hmn, hlp, hln, hlast⟩ := henc
  unfold integerSegs at h ⊢
  by_cases h1 : enc.tinyMin ≤ v ∧ v ≤ enc.tinyMax
  · simp only [if_pos h1, flatten_cons, flatten_nil, append_nil] at h ⊢
    unfold decodeInteger
    rw [cons_append, opcode_enough (by omega) (by omega) (h.mono (by simp)), if_pos (by omega)]
    exact decodeItem_enough ctx _ [byte _] rest rfl h (by omega)
  by_cases h2 : enc.smallMin ≤ v ∧ v ≤ enc.smallMax
  · simp only [if_neg h1, if_pos h2, flatten_cons, flatten_nil, append_nil] at h ⊢
    exact decodeInteger_small ctx x hvalid h2 h1 rfl rest h
  by_cases h3 : enc.mediumMin ≤ v ∧ v ≤ enc.mediumMax
  · simp only [if_neg h1, if_neg h2, if_pos h3, flatten_cons, flatten_nil,
      append_nil] at h ⊢
    exact decodeInteger_medium ctx x hvalid h3 h2 rfl rest h
  by_cases h4 : enc.largeMin ≤ v ∧ v ≤ enc.largeMax
  · simp only [if_neg h1, if_neg h2, if_neg h3, if_pos h4, flatten_cons, flatten_nil,
      append_nil] at h ⊢
    exact decodeInteger_large ctx x hvalid h4 h3 rfl rest h
  by_cases h5 : toSigned (2 ^ 31) (v % 2 ^ 32) = v
  · have hrange : -2 ^ 31 ≤ v ∧ v < 2 ^ 31 := by
      unfold toSigned at h5
      split at h5 <;> omega
    simp only [if_neg h1, if_neg h2, if_neg h3, if_neg h4, if_pos h5, flatten_append,
      flatten_cons, flatten_nil, append_nil, flatten_singletons,
      length_append, beBytes_length] at h ⊢
    exact decodeInteger_int32 ctx x hvalid hrange rest h
  · simp only [if_neg h1, if_neg h2, if_neg h3, if_neg h4, if_neg h5, flatten_append,
      flatten_cons, flatten_nil, append_nil, flatten_singletons,
      length_append, beBytes_length] at h ⊢
    exact decodeInteger_int64 ctx x hvalid hv rest h

/-! ## Unsigned integers and strings -/

theorem bsdUis_byte {op : Int} (h : Enough length 1) (hop : op < 0x01 ∨ 0x3a < op) (h0 : 0 ≤ op)
    (h1 : op < 256) (bs : List UInt8) :
    bsdUis ctx x (byte op :: bs) length = decodeUnsigned op ctx x (byte op :: bs) length := by
  unfold bsdUis
  rw [checkLength_enough h, opcodeAt_byte h0 h1, bind_eq_bind, bind_some,
    decodeString_skip ctx x uisString_valid h hop h0 h1, checkDecode_skip (by simp)]
  rfl

theorem bsdUis_unsignedSegs (hv : 0 ≤ v ∧ v < 2 ^ 32) (rest : List UInt8)
    (h : Enough length (unsignedSegs v).flatten.length) :
    bsdUis ctx x ((unsignedSegs v).flatten ++ rest) length
      = some (((unsignedSegs v).flatten.length : Int), x.put .int (.int v), ctx) := by
  have hmod : v % 2 ^ 32 = v := Int.emod_eq_of_lt hv.1 hv.2
  unfold unsignedSegs at h ⊢
  simp only [hmod] at h ⊢
  by_cases h1 : v ≤ utiMax
  · simp only [if_pos h1, flatten_cons, flatten_nil, append_nil] at h ⊢
    unfold utiMax at h1
    rw [cons_append, bsdUis_byte ctx x (h.mono (by simp)) (by omega) (by omega) (by omega),
      decodeUnsigned, if_pos (by omega)]
    exact decodeItem_enough ctx _ [byte _] rest rfl h (by omega)
  by_cases h2 : v ≤ usiMax
  · simp only [if_neg h1, if_pos h2, flatten_cons, flatten_nil, append_nil,
      map_cons, map_nil] at h ⊢
    unfold utiMax at h1 h ⊢
    unfold usiMax at h2
    rw [cons_append, bsdUis_byte ctx x (h.mono (by simp)) (by omega) (by omega) (by omega),
      decodeUnsigned, if_neg (by omega), if_pos (by omega)]
    refine decodeItem_enough ctx _ [byte _, byte _] rest rfl h ?_
    simp only [drop_succ_cons, drop_zero, beValue_one, byte_toNat, utiMax]
    omega
  by_cases h3 : v ≤ umiMax
  · simp only [if_neg h1, if_neg h2, if_pos h3, flatten_cons, flatten_nil,
      append_nil, map_cons, map_nil] at h ⊢
    unfold usiMax at h2 h ⊢
    unfold umiMax at h3
    rw [cons_append, bsdUis_byte ctx x (h.mono (by simp)) (by omega) (by omega) (by omega),
      decodeUnsigned, if_neg (by omega), if_neg (by omega), if_pos (by omega)]
    refine decodeItem_enough ctx _ [byte _, byte _, byte _] rest rfl h ?_
    simp only [drop_succ_cons, drop_zero, beValue_two, byte_toNat, usiMax]
    omega
  by_cases h4 : v ≤ uliMax
  · simp only [if_neg h1, if_neg h2, if_neg h3, if_pos h4, flatten_cons, flatten_nil,
      append_nil, map_cons, map_nil] at h ⊢
    unfold umiMax at h3 h ⊢
    unfold uliMax at h4
    rw [cons_append, bsdUis_byte ctx x (h.mono (by simp)) (by omega) (by omega) (by omega),
      decodeUnsigned, if_neg (by omega), if_neg (by omega), if_neg (by omega), if_pos (by omega)]
    refine decodeItem_enough ctx _ [byte _, byte _, byte _, byte _] rest rfl h ?_
    simp only [drop_succ_cons, drop_zero, beValue_three, byte_toNat, umiMax]
    omega
  · simp only [if_neg h1, if_neg h2, if_neg h3, if_neg h4, flatten_append,
      flatten_cons, flatten_nil, append_nil, flatten_singletons,
      length_append, beBytes_length] at h ⊢
    rw [cons_append, nil_append, cons_append,
      bsdUis_byte ctx x (h.mono (by simp)) (by omega) (by omega) (by omega),
      decodeUnsigned, if_neg (by omega), if_neg (by omega), if_neg (by omega), if_neg (by omega), if_pos rfl]
    refine decodeItem_enough ctx _ (byte _ :: beBytes 4 v) rest (by simp [beBytes_length]) h ?_
    rw [drop_succ_cons, drop_zero, beValue_beBytes]
    exact Int.emod_eq_of_lt hv.1 hv.2

theorem stringSegs_length_pos (data : List UInt8) (enc : StringEncoding) :
    0 < (stringSegs data enc).flatten.length := by
  unfold stringSegs
  simp only
  split
  · simp
  · split
    · simp
    · split <;> simp

theorem bsdUis_stringSegs (data rest : List UInt8) (hlen : data.length ≤ uisString.largeLimit)
    (h : Enough length (stringSegs data uisString).flatten.length) :
    bsdUis ctx x ((stringSegs data uisString).flatten ++ rest) length
      = some (((stringSegs data uisString).flatten.length : Int), x.put .string (.bytes data),
          ctx) := by
  have hpos := stringSegs_length_pos data uisString
  unfold bsdUis
  rw [checkLength_enough (h.mono (by omega))]
  cases hbytes : (stringSegs data uisString).flatten ++ rest with
  | nil =>
    have := congrArg List.length hbytes
    rw [length_append, length_nil] at this
    omega
  | cons b bs =>
    rw [opcodeAt, List.head?_cons, map_some, bind_eq_bind, bind_some, ← hbytes, decodeString_stringSegs ctx x uisString_valid data rest hlen h,
      checkDecode_done (by omega)]

theorem unsignedSegs_length_pos (v : Int) : 0 < (unsignedSegs v).flatten.length := by
  unfold unsignedSegs
  simp only
  split
  · simp
  split
  · simp
  · split
    · simp
    · split <;> simp

theorem checkSubdecode_put {nread sub : Int} (hsub : 0 < sub) (type : DataType)
    (content : Content) (k : Int → Data → DCtx → Option DRes) :
    checkSubdecode nread (some (sub, x.put type content, ctx)) type k
      = k (nread + sub) (x.put type content) ctx := by
  have hpos : ¬ sub ≤ 0 := by omega
  have htype : (x.put type content).type = type := rfl
  simp [checkSubdecode, hpos, htype]

end

/-! ## Collections -/

namespace CollEncoding

structure Valid (e : CollEncoding) : Prop where
  limit : 1 ≤ e.smallLimit
  smallUntyped : e.smallUntypedOpcode = e.emptyOpcode + 1
  longUntyped : e.longUntypedOpcode = e.smallUntypedOpcode + e.smallLimit
  variableUntyped : e.variableUntypedOpcode = e.longUntypedOpcode + 1
  smallTyped : e.smallTypedOpcode = e.variableUntypedOpcode + 1
  longTyped : e.longTypedOpcode = e.smallTypedOpcode + e.smallLimit
  variableTyped : e.variableTypedOpcode = e.longTypedOpcode + 1
  byte : e.variableTypedOpcode < 256

end CollEncoding

theorem globalList_valid : globalList.Valid := by
  constructor <;> decide

theorem globalMap_valid : globalMap.Valid := by
  constructor <;> decide

theorem listmapList_valid : listmapList.Valid := by
  constructor <;> decide

theorem listmapMap_valid : listmapMap.Valid := by
  constructor <;> decide

section
variable {length : Int} {enc : CollEncoding} (ctx : DCtx) (x : Data)

theorem decodeCollection_skip {op : Int} (henc : enc.Valid) (h : Enough length 1)
    (hop : op < enc.emptyOpcode ∨ enc.variableTypedOpcode < op) (h0 : 0 ≤ op) (h1 : op < 256)
    (bs : List UInt8) :
    decodeCollection ctx x (byte op :: bs) length enc = some (0, x, ctx) := by
  obtain ⟨hlimit, hsu, hlu, hvu, hst, hlt, hvt, hbyte⟩ := henc
  unfold decodeCollection
  rw [opcode_enough h0 h1 h,
    if_neg (by omega), if_neg (by omega), if_neg (by omega), if_neg (by omega),
    if_neg (by omega), if_neg (by omega), if_neg (by omega)]

/-- What `decodeCollection` makes of an opening: the container it opens, with the
number of bytes read. -/
def opened (n : Int) (enc : CollEncoding) (len : Int) (ctxid : CtxId) : Option DRes :=
  if len < 0 then openVariable n ctx x enc ctxid
  else openFixed n ctx x enc (if len = 0 then .global else ctxid) len.toNat

variable {len : Int}

theorem decodeCollection_untyped (henc : enc.Valid) (hlen : len < 2 ^ 31)
    (hlength : length < -1) (rest : List UInt8) :
    decodeCollection ctx x ((collectionSegs len .global enc).flatten ++ rest) length enc
      = opened ctx x (collectionSegs len .global enc).flatten.length enc len .global := by
  obtain ⟨hlimit, hsu, hlu, hvu, hst, hlt, hvt, hbyte⟩ := henc
  have henough {n : Int} : Enough length n := .inl (by omega)
  unfold collectionSegs opened decodeCollection
  simp only [ne_eq, not_true_eq_false, decide_false, Bool.false_eq_true, if_false, and_false,
    append_nil]
  by_cases hneg : len < 0
  · simp only [if_pos hneg, flatten_cons, flatten_nil, append_nil,
      cons_append, nil_append, length_cons, length_nil]
    rw [opcode_enough (by omega) (by omega) henough, if_neg (by omega), if_neg (by omega), if_neg (by omega),
      if_pos rfl]
    rfl
  by_cases hzero : len = 0
  · subst hzero
    simp only [Int.lt_irrefl, if_false, if_true, flatten_cons, flatten_nil,
      append_nil, cons_append, nil_append, length_cons, length_nil]
    rw [opcode_enough (by omega) (by omega) henough, if_pos rfl]
    rfl
  by_cases hsmall : len ≤ enc.smallLimit
  · simp only [if_neg hneg, if_neg hzero, if_pos hsmall, flatten_cons, flatten_nil,
      append_nil, cons_append, nil_append, length_cons, length_nil]
    rw [opcode_enough (by omega) (by omega) henough, if_neg (by omega), if_pos (by omega)]
    have hcount : len + (enc.smallUntypedOpcode : Int) - 1 - enc.smallUntypedOpcode + 1 = len := by
      omega
    rw [hcount]
    rfl
  · simp only [if_neg hneg, if_neg hzero, if_neg hsmall, flatten_cons, cons_append,
      nil_append, length_cons]
    have hpos := unsignedSegs_length_pos (len - (enc.smallLimit + 1))
    rw [opcode_enough (by omega) (by omega) henough, if_neg (by omega), if_neg (by omega), if_pos rfl,
      drop_succ_cons, drop_zero,
      bsdUis_unsignedSegs ctx x (by omega) rest (.inl (by omega)),
      checkSubdecode_put ctx x (by omega)]
    have hcount : len - ((enc.smallLimit : Int) + 1) + enc.smallLimit + 1 = len := by omega
    show openFixed _ ctx _ enc .global (len - ((enc.smallLimit : Int) + 1) + enc.smallLimit + 1).toNat
      = _
    rw [hcount, Int.add_comm, Nat.cast_add]
    rfl

theorem decodeCollection_typed (henc : enc.Valid) {ctxid : CtxId}
    (hctxid : ctxid.regular = true) (htype : ctxid ≠ .global) (hlen : len < 2 ^ 31)
    (hlength : length < -1) (rest : List UInt8) :
    decodeCollection ctx x ((collectionSegs len ctxid enc).flatten ++ rest) length enc
      = opened ctx x (collectionSegs len ctxid enc).flatten.length enc len ctxid := by
  obtain ⟨hlimit, hsu, hlu, hvu, hst, hlt, hvt, hbyte⟩ := henc
  have henough {n : Int} : Enough length n := .inl (by omega)
  have hctx : CtxId.ofByte (byte ctxid.toNat) = ctxid := CtxId.ofByte_toNat hctxid
  unfold collectionSegs opened decodeCollection
  simp only [ne_eq, htype, not_false_eq_true, decide_true, if_true, and_true]
  by_cases hneg : len < 0
  · have hzero : ¬ len = 0 := by omega
    simp only [if_pos hneg, if_pos hzero, flatten_cons, flatten_nil, append_nil,
      cons_append, nil_append, length_cons, length_nil]
    rw [opcode_enough (by omega) (by omega) henough, if_neg (by omega), if_neg (by omega), if_neg (by omega),
      if_neg (by omega), if_neg (by omega), if_neg (by omega), if_pos rfl,
      checkLength_enough henough, List.getElem?_cons_succ, List.getElem?_cons_zero,
      bind_eq_bind, bind_some, hctx]
    rfl
  by_cases hzero : len = 0
  · subst hzero
    simp only [Int.lt_irrefl, if_false, if_true, not_true_eq_false, flatten_cons,
      flatten_nil, append_nil, cons_append, nil_append, length_cons,
      length_nil]
    rw [opcode_enough (by omega) (by omega) henough, if_pos rfl]
    rfl
  by_cases hsmall : len ≤ enc.smallLimit
  · simp only [if_neg hneg, if_neg hzero, if_pos hzero, if_pos hsmall, flatten_cons,
      flatten_nil, append_nil, cons_append, nil_append, length_cons,
      length_nil]
    rw [opcode_enough (by omega) (by omega) henough, if_neg (by omega), if_neg (by omega), if_neg (by omega),
      if_neg (by omega), if_pos (by omega), checkLength_enough henough,
      List.getElem?_cons_succ, List.getElem?_cons_zero, bind_eq_bind, bind_some,
      hctx]
    have hcount : len + (enc.smallTypedOpcode : Int) - 1 - enc.smallTypedOpcode + 1 = len := by
      omega
    rw [hcount]
    rfl
  · simp only [if_neg hneg, if_neg hzero, if_pos hzero, if_neg hsmall, flatten_append,
      flatten_cons, flatten_nil, append_nil, cons_append, nil_append,
      length_cons, append_assoc]
    have hpos := unsignedSegs_length_pos (len - (enc.smallLimit + 1))
    rw [opcode_enough (by omega) (by omega) henough, if_neg (by omega), if_neg (by omega), if_neg (by omega),
      if_neg (by omega), if_neg (by omega), if_pos rfl, drop_succ_cons, drop_zero,
      bsdUis_unsignedSegs ctx x (by omega) _ (.inl (by omega)),
      checkSubdecode_put ctx x (by omega), checkLength_enough henough]
    have hcount : len - ((enc.smallLimit : Int) + 1) + enc.smallLimit + 1 = len := by omega
    have hindex : (1 + ((unsignedSegs (len - (enc.smallLimit + 1))).flatten.length : Int)).toNat
        = (unsignedSegs (len - (enc.smallLimit + 1))).flatten.length + 1 := by omega
    rw [hindex, List.getElem?_cons_succ, List.getElem?_append_right (Nat.le_refl _), Nat.sub_self,
      List.getElem?_cons_zero]
    show openFixed _ ctx _ enc (CtxId.ofByte (byte ctxid.toNat))
      (len - ((enc.smallLimit : Int) + 1) + enc.smallLimit + 1).toNat = _
    have htotal (n : Nat) : (1 + (n : Int) + 1) = ((n + 1 + 1 : Nat) : Int) := by omega
    rw [hcount, hctx, length_append, length_singleton, htotal]
    rfl

theorem decodeCollection_collectionSegs (henc : enc.Valid) {ctxid : CtxId}
    (hctxid : ctxid.regular = true) (hlen : len < 2 ^ 31) (hlength : length < -1)
    (rest : List UInt8) :
    decodeCollection ctx x ((collectionSegs len ctxid enc).flatten ++ rest) length enc
      = opened ctx x (collectionSegs len ctxid enc).flatten.length enc len ctxid := by
  by_cases htype : ctxid = .global
  · subst htype
    exact decodeCollection_untyped ctx x henc hlen hlength rest
  · exact decodeCollection_typed ctx x henc hctxid htype hlen hlength rest

theorem collectionSegs_head (henc : enc.Valid) (len : Int) (ctxid : CtxId) :
    ∃ (op : Int) (bs : List UInt8), (collectionSegs len ctxid enc).flatten = byte op :: bs
      ∧ enc.emptyOpcode ≤ op ∧ op ≤ enc.variableTypedOpcode := by
  obtain ⟨hlimit, hsu, hlu, hvu, hst, hlt, hvt, hbyte⟩ := henc
  unfold collectionSegs
  simp only
  split
  · refine ⟨_, _, rfl, ?_, ?_⟩ <;> split <;> omega
  split
  · exact ⟨_, _, rfl, by omega, by omega⟩
  · split
    · refine ⟨_, _, rfl, ?_, ?_⟩ <;> split <;> omega
    · refine ⟨_, _, rfl, ?_, ?_⟩ <;> split <;> omega

theorem collectionSegs_length_pos (henc : enc.Valid) (len : Int) (ctxid : CtxId) :
    0 < (collectionSegs len ctxid enc).flatten.length := by
  obtain ⟨op, bs, hhead, -⟩ := collectionSegs_head henc len ctxid
  rw [hhead]
  exact Nat.succ_pos bs.length

end

end Mihini.Bysant
