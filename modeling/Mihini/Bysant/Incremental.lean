import Mihini.Bysant.Roundtrip
import Mihini.Bysant.Unchecked

/-!
# Decoding with too few bytes

What the decoding routines do with the beginning of an item.  Items in one piece
are waited for: the routine returns minus a number of bytes that are needed.
Items with an inner decoding are not, because of the sign that `CHECK_SUBDECODE`
gives to an inner result and the length that long collections pass on.
-/

namespace Mihini.Bysant

open Lib.Bytes List Option

/-- The routine asks for more than the `n` bytes it has, for at most `k`, and left
the context alone. -/
def Waits (n : Nat) (k : Int) (ctx : DCtx) (r : Option DRes) : Prop :=
  ∃ v x, r = some (-v, x, ctx) ∧ (n : Int) < v ∧ v ≤ k

/-- The routine does not ask for more than the `n` bytes it has. -/
def Stuck (n : Nat) (r : Option DRes) : Prop := ∀ v x ctx, r = some (v, x, ctx) → -(n : Int) ≤ v

theorem Stuck.not_waits {n : Nat} {k : Int} {ctx : DCtx} {r : Option DRes} (h : Stuck n r) :
    ¬ Waits n k ctx r := by
  rintro ⟨v, x, hr, hn, -⟩
  have := h _ _ _ hr
  omega

/-- `a` is the decoding of a buffer without a length, `a'` the decoding of its first
`n` bytes: unless it is an error, it is the same when they are enough, else they are
waited for. -/
def Cut (n : Nat) (ctx : DCtx) (a a' : Option DRes) : Prop :=
  ∀ r, a = some r → r.2.1.type ≠ .error → (r.1 = 0 → r.2.2 = ctx)
    ∧ (r.1 ≤ n ∧ a' = some r ∨ (n : Int) < r.1 ∧ Waits n r.1 ctx a')

theorem opcodeAt_take {n : Nat} (hn : 1 ≤ n) (buf : List UInt8) :
    opcodeAt (buf.take n) = opcodeAt buf := by
  cases buf with
  | nil => rw [take_nil]
  | cons c cs =>
    obtain ⟨m, rfl⟩ : ∃ m, n = m + 1 := ⟨n - 1, by omega⟩
    rfl

namespace Cut

variable {n : Nat} {ctx ctx' : DCtx} {x : Data} {a a' b b' : Option DRes} {u : Int}
  {buf : List UInt8}

variable {k : Int}

theorem pure (hk : k ≤ n) (h0 : k = 0 → ctx' = ctx) :
    Cut n ctx (some (k, x, ctx')) (some (k, x, ctx')) := by
  rintro r ⟨⟩ _
  exact ⟨h0, .inl ⟨hk, rfl⟩⟩

theorem error (cause : BsdStatus) : Cut n ctx (bsdError x ctx' cause) a' := by
  rintro r ⟨⟩ herr
  exact absurd rfl herr

theorem none : Cut n ctx Option.none a' := fun _ h _ => nomatch h

theorem ite (p : Prop) [Decidable p] (ha : p → Cut n ctx a a') (hb : ¬ p → Cut n ctx b b') :
    Cut n ctx (if p then a else b) (if p then a' else b') := by
  by_cases hp : p
  · rw [if_pos hp, if_pos hp]
    exact ha hp
  · rw [if_neg hp, if_neg hp]
    exact hb hp

theorem bind {α : Type} (o : Option α) {k k' : α → Option DRes} (h : ∀ v, Cut n ctx (k v) (k' v)) :
    Cut n ctx (o.bind k) (o.bind k') := by
  cases o with
  | none => exact none
  | some v => exact h v

theorem opcode (hn : 1 ≤ n) {k k' : Int → Option DRes}
    (h : ∀ op, opcodeAt buf = some op → Cut n ctx (k op) (k' op)) :
    Cut n ctx ((opcodeAt buf).bind k) ((opcodeAt (buf.take n)).bind k') := by
  rw [opcodeAt_take hn]
  cases hop : opcodeAt buf with
  | none => exact none
  | some op => exact h op hop

theorem checkLength_pass (hu : u < 0) (hk : k ≤ n) (h : Cut n ctx a a') :
    Cut n ctx (checkLength u k x ctx a) (checkLength n k x ctx a') := by
  have hneg : ¬ (0 ≤ u ∧ u < k) := by omega
  have hpass : ¬ (0 ≤ (n : Int) ∧ (n : Int) < k) := by omega
  simp only [checkLength, if_neg hneg, if_neg hpass]
  exact h

theorem checkLength (hu : u < 0) (hlo : ∀ r, a = some r → r.2.1.type ≠ .error → k ≤ r.1)
    (h : k ≤ n → Cut n ctx a a') :
    Cut n ctx (checkLength u k x ctx a) (checkLength n k x ctx a') := by
  by_cases hk : k ≤ n
  · exact checkLength_pass hu hk (h hk)
  have hneg : ¬ (0 ≤ u ∧ u < k) := by omega
  have hfail : 0 ≤ (n : Int) ∧ (n : Int) < k := by omega
  simp only [Bysant.checkLength, if_neg hneg, if_pos hfail]
  intro r hr herr
  have := hlo r hr herr
  refine ⟨fun h0 => by omega, .inr ⟨by omega, k, x, rfl, hfail.2, this⟩⟩

theorem bytesAt_take {m : Nat} (hm : m ≤ n) : bytesAt (buf.take n) m = bytesAt buf m := by
  unfold bytesAt
  rw [length_take, take_take, Nat.min_eq_left hm]
  by_cases h : m ≤ buf.length
  · rw [if_pos h, if_pos (by omega)]
  · rw [if_neg h, if_neg (by omega)]

theorem fixed (hu : u < 0) (m : Nat) (hm : m ≠ 0) (k : List UInt8 → Data) :
    Cut n ctx (decodeFixed ctx x buf u m k) (decodeFixed ctx x (buf.take n) n m k) := by
  unfold decodeFixed
  refine checkLength hu (fun r hr _ => ?_) fun hmn => ?_
  · obtain ⟨bytes, -, hr⟩ := bind_eq_some_iff.mp hr
    cases hr
    exact Int.le_refl _
  · rw [bytesAt_take (by omega)]
    exact bind _ fun bytes => pure hmn fun h0 => absurd h0 (by omega)

theorem checkDecode {k k' : Data → DCtx → Option DRes} (ha : Cut n ctx a a')
    (hk : ∀ x, Cut n ctx (k x ctx) (k' x ctx)) :
    Cut n ctx (checkDecode a k) (checkDecode a' k') := by
  intro r hr hok
  obtain ⟨⟨m, x, c⟩, ha', hr⟩ := bind_eq_some_iff.mp hr
  dsimp only at hr
  by_cases hm : m = 0
  · subst hm
    rw [if_neg (by simp)] at hr
    by_cases herr : x.type = .error
    · rw [if_pos herr] at hr
      cases hr
      exact absurd herr hok
    rw [if_neg herr] at hr
    obtain ⟨h0, hcases⟩ := ha _ ha' herr
    obtain rfl := h0 rfl
    obtain ⟨-, hsame⟩ | ⟨hlt, -⟩ := hcases
    · have := hk x r hr hok
      simpa [Bysant.checkDecode, hsame, herr] using this
    · exact absurd hlt (Int.not_lt.mpr (Int.natCast_nonneg n))
  · rw [if_pos hm] at hr
    cases hr
    obtain ⟨-, hcases⟩ := ha _ ha' hok
    refine ⟨fun h => absurd h hm, ?_⟩
    obtain ⟨hle, hsame⟩ | ⟨hlt, v, x', hwait, hv, hle⟩ := hcases
    · refine .inl ⟨hle, ?_⟩
      simp [Bysant.checkDecode, hsame, hm]
    · refine .inr ⟨hlt, v, x', ?_, hv, hle⟩
      have hne : -v ≠ 0 := by omega
      simp [Bysant.checkDecode, hwait, hne]

theorem checkOpen (o : Option (BsdStatus × DCtx)) (hk : k ≤ n) (hpos : k ≠ 0)
    (x' : Data) :
    Cut n ctx (checkOpen x o fun c => some (k, x', c)) (checkOpen x o fun c => some (k, x', c)) := by
  cases o with
  | none => exact none
  | some r => exact ite _ (fun _ => pure hk fun h0 => absurd h0 hpos) fun _ => error _

end Cut

/-! ## Items in one piece -/

section
variable {n : Nat} {u : Int} (buf : List UInt8) (ctx : DCtx) (x : Data)

theorem decodeItem_cut (hu : u < 0) (m : Nat) (hm : m ≠ 0) (k : Int → Int) :
    Cut n ctx (decodeItem ctx x buf u m k) (decodeItem ctx x (buf.take n) n m k) :=
  .fixed hu m hm _

theorem decodeText_cut (hu : u < 0) (header : Nat) (hpos : header ≠ 0)
    (len : List UInt8 → Nat) :
    Cut n ctx (decodeText ctx x buf u header len) (decodeText ctx x (buf.take n) n header len) := by
  unfold decodeText
  refine .checkLength hu (fun r hr _ => ?_) fun hheader => ?_
  · obtain ⟨bytes, -, hr⟩ := bind_eq_some_iff.mp hr
    have hneg : ¬ (0 ≤ u ∧ u < ((header + len bytes : Nat) : Int)) := by omega
    simp only [decodeFixed, checkLength, if_neg hneg] at hr
    obtain ⟨text, -, hr⟩ := bind_eq_some_iff.mp hr
    cases hr
    show (header : Int) ≤ ((header + len bytes : Nat) : Int)
    omega
  · rw [Cut.bytesAt_take (by omega)]
    exact .bind _ fun bytes => .fixed hu _ (by omega) _

theorem decodeInteger_cut (hu : u < 0) (hn : 1 ≤ n) (enc : IntegerEncoding) :
    Cut n ctx (decodeInteger ctx x buf u enc) (decodeInteger ctx x (buf.take n) n enc) := by
  unfold decodeInteger
  have item (m : Nat) (hm : m ≠ 0) (k : Int → Int) :=
    decodeItem_cut (n := n) buf ctx { x with type := .int } hu m hm k
  refine .opcode hn fun op _ => .checkLength_pass hu (by omega) ?_
  refine .ite _ (fun _ => item 1 (by omega) _) fun _ => ?_
  refine .ite _ (fun _ => item 2 (by omega) _) fun _ => ?_
  refine .ite _ (fun _ => item 2 (by omega) _) fun _ => ?_
  refine .ite _ (fun _ => item 3 (by omega) _) fun _ => ?_
  refine .ite _ (fun _ => item 3 (by omega) _) fun _ => ?_
  refine .ite _ (fun _ => item 4 (by omega) _) fun _ => ?_
  refine .ite _ (fun _ => item 4 (by omega) _) fun _ => ?_
  refine .ite _ (fun _ => item 5 (by omega) _) fun _ => ?_
  refine .ite _ (fun _ => item 9 (by omega) _) fun _ => ?_
  exact .pure (Int.natCast_nonneg n) fun _ => rfl

theorem decodeString_cut (hu : u < 0) (hn : 1 ≤ n) (enc : StringEncoding) :
    Cut n ctx (decodeString ctx x buf u enc) (decodeString ctx x (buf.take n) n enc) := by
  unfold decodeString
  refine .opcode hn fun op _ => .checkLength_pass hu (by omega) ?_
  refine .ite _ (fun _ => decodeText_cut _ _ _ hu 1 (by omega) _) fun _ => ?_
  refine .ite _ (fun _ => decodeText_cut _ _ _ hu 2 (by omega) _) fun _ => ?_
  refine .ite _ (fun _ => decodeText_cut _ _ _ hu 3 (by omega) _) fun _ => ?_
  refine .ite _ (fun _ => ?_) fun _ => .pure (Int.natCast_nonneg n) fun _ => rfl
  exact .checkOpen _ (by omega) (by omega) _

variable {k : Int}

theorem decodedNull_cut (hk : k ≤ n) (hpos : k ≠ 0) :
    Cut n ctx (decodedNull k ctx x) (decodedNull k ctx x) := by
  unfold decodedNull
  exact .bind _ fun _ => .pure hk fun h0 => absurd h0 hpos

theorem decodeUnsigned_cut (hu : u < 0) (hn : 1 ≤ n) (op : Int) :
    Cut n ctx (decodeUnsigned op ctx x buf u) (decodeUnsigned op ctx x (buf.take n) n) := by
  unfold decodeUnsigned
  have item (m : Nat) (hm : m ≠ 0) (k : Int → Int) :=
    decodeItem_cut (n := n) buf ctx { x with type := .int } hu m hm k
  refine .ite _ (fun _ => item 1 (by omega) _) fun _ => ?_
  refine .ite _ (fun _ => item 2 (by omega) _) fun _ => ?_
  refine .ite _ (fun _ => item 3 (by omega) _) fun _ => ?_
  refine .ite _ (fun _ => item 4 (by omega) _) fun _ => ?_
  refine .ite _ (fun _ => item 5 (by omega) _) fun _ => ?_
  exact .ite _ (fun _ => decodedNull_cut _ _ (by omega) (by omega)) fun _ => .error _

theorem bsdUis_cut (hu : u < 0) (hn : 1 ≤ n) :
    Cut n ctx (bsdUis ctx x buf u) (bsdUis ctx x (buf.take n) n) := by
  unfold bsdUis
  refine .checkLength_pass hu (by omega) (.opcode hn fun op _ => ?_)
  exact .checkDecode (decodeString_cut _ _ _ hu hn _) fun x => decodeUnsigned_cut _ _ _ hu hn op

variable {r : DRes} {enc : CollEncoding} {ctxid : CtxId}

theorem openFixed_consumed {len : Nat}
    (h : openFixed k ctx x enc ctxid len = some r) (hok : r.2.1.type ≠ .error) : r.1 = k := by
  unfold openFixed checkOpen at h
  obtain ⟨⟨st, c⟩, -, h⟩ := bind_eq_some_iff.mp h
  dsimp only at h
  split at h
  · cases h
    rfl
  · cases h
    exact absurd rfl hok

theorem openVariable_consumed
    (h : openVariable k ctx x enc ctxid = some r) (hok : r.2.1.type ≠ .error) : r.1 = k := by
  unfold openVariable checkOpen at h
  obtain ⟨⟨st, c⟩, -, h⟩ := bind_eq_some_iff.mp h
  dsimp only at h
  split at h
  · cases h
    rfl
  · cases h
    exact absurd rfl hok

theorem getElem?_take {i : Nat} (hi : i < n) : (buf.take n)[i]? = buf[i]? := by
  rw [List.getElem?_take, if_pos hi]

variable {op : Int}

theorem decodeCollection_cut (hu : u < 0) (hn : 1 ≤ n)
    (hop : opcodeAt buf = some op) (huntyped : op ≠ enc.longUntypedOpcode)
    (htyped : op ≠ enc.longTypedOpcode) :
    Cut n ctx (decodeCollection ctx x buf u enc) (decodeCollection ctx x (buf.take n) n enc) := by
  unfold decodeCollection
  refine .opcode hn fun op' hop' => .checkLength_pass hu (by omega) ?_
  obtain rfl : op' = op := Option.some.inj (hop'.symm.trans hop)
  have fixed {k : Int} (hk : k ≤ n) (hpos : k ≠ 0) (x : Data) (ctxid : CtxId) (len : Nat) :
      Cut n ctx (openFixed k ctx x enc ctxid len) (openFixed k ctx x enc ctxid len) :=
    .checkOpen _ hk hpos _
  refine .ite _ (fun _ => fixed (by omega) (by omega) _ _ _) fun _ => ?_
  refine .ite _ (fun _ => fixed (by omega) (by omega) _ _ _) fun _ => ?_
  refine .ite _ (fun h => absurd h huntyped) fun _ => ?_
  refine .ite _ (fun _ => .checkOpen _ (by omega) (by omega) _) fun _ => ?_
  refine .ite _ (fun _ => ?_) fun _ => .ite _ (fun h => absurd h htyped) fun _ => .ite _ (fun _ => ?_)
    fun _ => .pure (Int.natCast_nonneg n) fun _ => rfl
  · refine .checkLength hu (fun r hr hok => ?_) fun hk => ?_
    · obtain ⟨b, -, hr⟩ := bind_eq_some_iff.mp hr
      exact Int.le_of_eq (openFixed_consumed _ _ hr hok).symm
    · rw [getElem?_take _ (by omega)]
      exact .bind _ fun b => fixed hk (by omega) _ _ _
  · refine .checkLength hu (fun r hr hok => ?_) fun hk => ?_
    · obtain ⟨b, -, hr⟩ := bind_eq_some_iff.mp hr
      exact Int.le_of_eq (openVariable_consumed _ _ hr hok).symm
    · rw [getElem?_take _ (by omega)]
      exact .bind _ fun b => .checkOpen _ hk (by omega) _

theorem decodeFloats_cut [CFloat] (hu : u < 0) (op : Int) :
    Cut n ctx (decodeFloats op ctx x buf u) (decodeFloats op ctx x (buf.take n) n) := by
  unfold decodeFloats
  refine .ite _ (fun _ => .fixed hu 5 (by omega) _) fun _ => ?_
  exact .ite _ (fun _ => .fixed hu 9 (by omega) _) fun _ => .error _

theorem instantiate_cut (hk : k ≤ n) (hpos : k ≠ 0) (classid : UInt32) :
    Cut n ctx (instantiate k x ctx classid) (instantiate k x ctx classid) := by
  unfold instantiate
  exact .bind _ fun _ => .ite _ (fun _ => .pure hk fun h0 => absurd h0 hpos) fun _ => .error _

theorem decodeOther_cut [CFloat] (hu : u < 0) (hn : 1 ≤ n) (hop : op ≠ 0x70) :
    Cut n ctx (decodeOther op ctx x buf u) (decodeOther op ctx x (buf.take n) n) := by
  unfold decodeOther
  refine .ite _ (fun _ => instantiate_cut _ _ (by omega) (by omega) _) fun _ => ?_
  refine .ite _ (fun _ => decodedNull_cut _ _ (by omega) (by omega)) fun _ => ?_
  refine .ite _ (fun _ => .pure (by omega) fun h0 => absurd h0 (by omega)) fun _ => ?_
  refine .ite _ (fun _ => .pure (by omega) fun h0 => absurd h0 (by omega)) fun _ => ?_
  exact .ite _ (fun h => absurd h hop) fun _ => decodeFloats_cut _ _ _ hu op

theorem decodeClass_cut (hu : u < 0) (hn : 1 ≤ n) (hop : opcodeAt buf = some op)
    (h71 : op ≠ 0x71) (h72 : op ≠ 0x72) :
    Cut n ctx (decodeClass ctx x buf u) (decodeClass ctx x (buf.take n) n) := by
  unfold decodeClass
  refine .checkLength_pass hu (by omega) (.opcode hn fun op' hop' => ?_)
  obtain rfl : op' = op := Option.some.inj (hop'.symm.trans hop)
  exact .ite _ (fun _ => .pure (Int.natCast_nonneg n) fun _ => rfl) fun h => absurd ⟨h71, h72⟩ h

def nestedOpcode (ctxid : CtxId) (op : Int) : Prop :=
  match ctxid with
  | .global => op = globalList.longUntypedOpcode ∨ op = globalList.longTypedOpcode
    ∨ op = globalMap.longUntypedOpcode ∨ op = globalMap.longTypedOpcode
    ∨ op = 0x70 ∨ op = 0x71 ∨ op = 0x72
  | .listOrMap => op = listmapList.longUntypedOpcode ∨ op = listmapList.longTypedOpcode
    ∨ op = listmapMap.longUntypedOpcode ∨ op = listmapMap.longTypedOpcode
  | _ => False

theorem bsdGlobal_cut [CFloat] (hu : u < 0) (hn : 1 ≤ n) (hop : opcodeAt buf = some op)
    (hnested : ¬ nestedOpcode .global op) :
    Cut n ctx (bsdGlobal ctx x buf u) (bsdGlobal ctx x (buf.take n) n) := by
  simp only [nestedOpcode, not_or] at hnested
  obtain ⟨h1, h2, h3, h4, h5, h6, h7⟩ := hnested
  unfold bsdGlobal
  refine .checkLength_pass hu (by omega) (.opcode hn fun op' hop' => ?_)
  obtain rfl : op' = op := Option.some.inj (hop'.symm.trans hop)
  refine .checkDecode (decodeInteger_cut _ _ _ hu hn _) fun x => ?_
  refine .checkDecode (decodeString_cut _ _ _ hu hn _) fun x => ?_
  refine .checkDecode (decodeCollection_cut _ _ _ hu hn hop h1 h2) fun x => ?_
  refine .checkDecode (decodeCollection_cut _ _ _ hu hn hop h3 h4) fun x => ?_
  refine .checkDecode (decodeClass_cut _ _ _ hu hn hop h6 h7) fun x => ?_
  exact decodeOther_cut _ _ _ hu hn h5

theorem bsdListmap_cut (hu : u < 0) (hn : 1 ≤ n) (hop : opcodeAt buf = some op)
    (hnested : ¬ nestedOpcode .listOrMap op) :
    Cut n ctx (bsdListmap ctx x buf u) (bsdListmap ctx x (buf.take n) n) := by
  simp only [nestedOpcode, not_or] at hnested
  obtain ⟨h1, h2, h3, h4⟩ := hnested
  unfold bsdListmap
  refine .checkLength_pass hu (by omega) (.opcode hn fun op' hop' => ?_)
  refine .checkDecode (decodeCollection_cut _ _ _ hu hn hop h1 h2) fun x => ?_
  refine .checkDecode (decodeCollection_cut _ _ _ hu hn hop h3 h4) fun x => ?_
  exact .ite _ (fun _ => decodedNull_cut _ _ (by omega) (by omega)) fun _ => .error _

theorem bsdNumber_cut [CFloat] (hu : u < 0) (hn : 1 ≤ n) :
    Cut n ctx (bsdNumber ctx x buf u) (bsdNumber ctx x (buf.take n) n) := by
  unfold bsdNumber
  refine .checkLength_pass hu (by omega) (.opcode hn fun op _ => ?_)
  refine .checkDecode (decodeInteger_cut _ _ _ hu hn _) fun x => ?_
  exact .ite _ (fun _ => decodedNull_cut _ _ (by omega) (by omega))
    fun _ => decodeFloats_cut _ _ _ hu op

theorem bsdChunked_cut (hu : u < 0) :
    Cut n ctx (bsdChunked ctx x buf u) (bsdChunked ctx x (buf.take n) n) := by
  unfold bsdChunked
  refine .checkLength hu (fun r hr _ => ?_) fun hk => ?_
  · obtain ⟨header, -, hr⟩ := bind_eq_some_iff.mp hr
    dsimp only at hr
    split at hr
    · cases hr
      exact Int.le_refl _
    have hneg : ¬ (0 ≤ u ∧ u < (((beValue header).toNat + 2 : Nat) : Int)) := by omega
    simp only [decodeFixed, checkLength, if_neg hneg] at hr
    obtain ⟨bytes, -, hr⟩ := bind_eq_some_iff.mp hr
    cases hr
    show (2 : Int) ≤ (((beValue header).toNat + 2 : Nat) : Int)
    omega
  · rw [Cut.bytesAt_take (by omega)]
    refine .bind _ fun header => .ite _ (fun _ => .pure (by omega) fun h0 => absurd h0 (by omega)) ?_
    exact fun _ => .fixed hu _ (by omega) _

theorem decodeEscaped_cut (hu : u < 0) (m : Nat) (hm : m ≠ 0) (escape : Int) (k : Int → Data) :
    Cut n ctx (decodeEscaped ctx x buf u m escape k)
      (decodeEscaped ctx x (buf.take n) n m escape k) := by
  unfold decodeEscaped
  have hnext (x : Data) {r : DRes} (hr : (buf[m]?.bind fun b =>
      if b = 0 then decodedNull ((m : Int) + 1) ctx x
      else if b = 1 then some ((m : Int) + 1, x, ctx) else bsdError x ctx .einvalid) = some r)
      (hok : r.2.1.type ≠ .error) : (m : Int) + 1 ≤ r.1 := by
    obtain ⟨b, -, hr⟩ := bind_eq_some_iff.mp hr
    split at hr
    · obtain ⟨⟨x', c⟩, -, hr⟩ := bind_eq_some_iff.mp hr
      cases hr
      exact Int.le_refl _
    split at hr
    · cases hr
      exact Int.le_refl _
    · cases hr
      exact absurd rfl hok
  refine .checkLength hu (fun r hr hok => ?_) fun hk => ?_
  · obtain ⟨word, -, hr⟩ := bind_eq_some_iff.mp hr
    dsimp only at hr
    split at hr
    · have hneg : ¬ (0 ≤ u ∧ u < (m : Int) + 1) := by omega
      simp only [checkLength, if_neg hneg] at hr
      have := hnext _ hr hok
      omega
    · cases hr
      exact Int.le_refl _
  · rw [Cut.bytesAt_take (by omega)]
    refine .bind _ fun word => .ite _ (fun _ => ?_) fun _ => .pure hk fun h0 => absurd h0 (by omega)
    refine .checkLength hu (fun r hr hok => hnext _ hr hok) fun hk => ?_
    rw [getElem?_take _ (by omega)]
    refine .bind _ fun b => .ite _ (fun _ => decodedNull_cut _ _ (by omega) (by omega)) fun _ => ?_
    exact .ite _ (fun _ => .pure hk fun h0 => absurd h0 (by omega)) fun _ => .error _

theorem bsdContext_cut [CFloat] (hu : u < 0) (hn : 1 ≤ n) (hop : opcodeAt buf = some op)
    (hnested : ¬ nestedOpcode ctxid op) :
    Cut n ctx (bsdContext ctxid ctx x buf u) (bsdContext ctxid ctx x (buf.take n) n) := by
  cases ctxid with
  | global => exact bsdGlobal_cut _ _ _ hu hn hop hnested
  | unsignedOrString => exact bsdUis_cut _ _ _ hu hn
  | number => exact bsdNumber_cut _ _ _ hu hn
  | int32 =>
    unfold bsdContext bsdInt32
    exact decodeEscaped_cut _ _ _ hu 4 (by omega) _ _
  | float =>
    unfold bsdContext bsdFloat
    exact decodeEscaped_cut _ _ _ hu 4 (by omega) _ _
  | double =>
    unfold bsdContext bsdDouble
    exact decodeEscaped_cut _ _ _ hu 8 (by omega) _ _
  | listOrMap => exact bsdListmap_cut _ _ _ hu hn hop hnested
  | chunked => exact bsdChunked_cut _ _ _ hu
  | unknown _ => exact .error _
  | object => exact .error _

/-! ## Inner decodings -/

def uisLength (buf : List UInt8) : Nat :=
  match opcodeAt buf with
  | none => 0
  | some op =>
    if 0x01 ≤ op ∧ op < 0x31 then 1 + (op - 0x01).toNat
    else if 0x31 ≤ op ∧ op < 0x39 then
      2 + ((op - 0x31) * 2 ^ 8 + beValue ((buf.take 2).drop 1) + 47 + 1).toNat
    else if op = 0x39 then 3 + (beValue ((buf.take 3).drop 1) + 2095 + 1).toNat
    else if op < 0xc7 then 1
    else if op < 0xe7 then 2
    else if op < 0xf7 then 3
    else if op < 0xff then 4
    else 5

theorem opcodeAt_eq (hop : opcodeAt buf = some op) :
    ∃ bs, buf = byte op :: bs ∧ 0 ≤ op ∧ op < 256 := by
  cases buf with
  | nil => cases hop
  | cons b bs =>
    obtain rfl : (b.toNat : Int) = op := Option.some.inj hop
    have := b.toNat_lt
    exact ⟨bs, by rw [byte_natCast], by omega, by omega⟩

theorem decodeFixed_inv (hu : u < 0) {m : Nat} {k : List UInt8 → Data}
    (h : decodeFixed ctx x buf u m k = some r) :
    m ≤ buf.length ∧ r = ((m : Int), k (buf.take m), ctx) := by
  have hneg : ¬ (0 ≤ u ∧ u < (m : Int)) := by omega
  simp only [decodeFixed, checkLength, if_neg hneg] at h
  obtain ⟨bytes, hbytes, h⟩ := bind_eq_some_iff.mp h
  unfold bytesAt at hbytes
  split at hbytes
  · next hm =>
    cases hbytes
    cases h
    exact ⟨hm, rfl⟩
  · cases hbytes

theorem decodeText_inv (hu : u < 0) {header : Nat} {len : List UInt8 → Nat}
    (h : decodeText ctx x buf u header len = some r) :
    r.1 = ((header + len (buf.take header) : Nat) : Int) ∧ r.2.1.type = .string ∧ r.2.2 = ctx := by
  have hneg : ¬ (0 ≤ u ∧ u < (header : Int)) := by omega
  simp only [decodeText, checkLength, if_neg hneg] at h
  obtain ⟨bytes, hbytes, h⟩ := bind_eq_some_iff.mp h
  obtain ⟨-, rfl⟩ := decodeFixed_inv _ _ _ hu h
  unfold bytesAt at hbytes
  split at hbytes
  · cases hbytes
    exact ⟨rfl, rfl, rfl⟩
  · cases hbytes

variable {x' : Data}

theorem decodeNull_type {c : DCtx} (h : decodeNull ctx x = some (x', c)) :
    x'.type = .null ∨ x'.type = .close := by
  unfold decodeNull at h
  dsimp only at h
  split at h
  · cases h
    exact .inr rfl
  · obtain ⟨even, -, h⟩ := bind_eq_some_iff.mp h
    cases even with
    | true =>
      cases h
      exact .inr rfl
    | false =>
      cases h
      exact .inl rfl
  · cases h
    exact .inl rfl

/-- An opcode of unsigned integers selects the length of the item and what its bytes mean. -/
theorem decodeUnsigned_item (hop : 0x3b ≤ op) (h1 : op < 256) :
    ∃ (m : Nat) (g : Int → Int), m ≠ 0 ∧ (∀ buf, opcodeAt buf = some op → uisLength buf = m)
      ∧ ∀ ctx x buf length, decodeUnsigned op ctx x buf length
        = decodeItem ctx { x with type := .int } buf length m g := by
  have hlength {buf : List UInt8} (h : opcodeAt buf = some op) : uisLength buf
      = if op < 0xc7 then 1 else if op < 0xe7 then 2 else if op < 0xf7 then 3
        else if op < 0xff then 4 else 5 := by
    simp only [uisLength, h]
    rw [if_neg (by omega), if_neg (by omega), if_neg (by omega)]
  by_cases h2 : op < 0xc7
  · refine ⟨1, fun _ => op - 0x3b, by omega, fun buf h => ?_, fun _ _ _ _ => ?_⟩
    · rw [hlength h, if_pos h2]
    · rw [decodeUnsigned, if_pos (by omega)]
  by_cases h3 : op < 0xe7
  · refine ⟨2, fun v => (op - 0xc7) * 2 ^ 8 + v + utiMax + 1, by omega, fun buf h => ?_, fun _ _ _ _ => ?_⟩
    · rw [hlength h, if_neg h2, if_pos h3]
    · rw [decodeUnsigned, if_neg (by omega), if_pos (by omega)]
  by_cases h4 : op < 0xf7
  · refine ⟨3, fun v => (op - 0xe7) * 2 ^ 16 + v + usiMax + 1, by omega, fun buf h => ?_, fun _ _ _ _ => ?_⟩
    · rw [hlength h, if_neg h2, if_neg h3, if_pos h4]
    · rw [decodeUnsigned, if_neg (by omega), if_neg (by omega), if_pos (by omega)]
  by_cases h5 : op < 0xff
  · refine ⟨4, fun v => (op - 0xf7) * 2 ^ 24 + v + umiMax + 1, by omega, fun buf h => ?_, fun _ _ _ _ => ?_⟩
    · rw [hlength h, if_neg h2, if_neg h3, if_neg h4, if_pos h5]
    · rw [decodeUnsigned, if_neg (by omega), if_neg (by omega), if_neg (by omega), if_pos (by omega)]
  · refine ⟨5, fun v => v, by omega, fun buf h => ?_, fun _ _ _ _ => ?_⟩
    · rw [hlength h, if_neg h2, if_neg h3, if_neg h4, if_neg h5]
    · rw [decodeUnsigned, if_neg (by omega), if_neg (by omega), if_neg (by omega), if_neg (by omega),
        if_pos (by omega)]

/-- What `bsd_uis` finds, when it makes no check. -/
theorem bsdUis_inv (hu : u < 0) (h : bsdUis ctx x buf u = some r)
    (hok : r.2.1.type ≠ .error) :
    r.1 = uisLength buf ∧ 0 < r.1 ∧ (r.2.1.type = .string → r.2.2 = ctx)
      ∧ (r.2.1.type = .int → r.2.2 = ctx ∧ ∃ op, opcodeAt buf = some op ∧ 0x3b ≤ op) := by
  have hneg : ¬ (0 ≤ u ∧ u < 1) := by omega
  cases hop : opcodeAt buf with
  | none => simp [bsdUis, checkLength, hneg, hop] at h
  | some op =>
    obtain ⟨bs, hbuf, h0, h1⟩ := opcodeAt_eq _ hop
    by_cases hstring : op < 0x01 ∨ 0x3a < op
    · rw [hbuf, bsdUis_byte ctx x (.inl hu) hstring h0 h1, ← hbuf] at h
      by_cases h3b : 0x3b ≤ op
      · obtain ⟨m, g, hm, hlength, hitem⟩ := decodeUnsigned_item h3b h1
        rw [hitem] at h
        obtain ⟨-, rfl⟩ := decodeFixed_inv _ _ _ hu h
        refine ⟨congrArg Nat.cast (hlength buf hop).symm, ?_, fun _ => rfl, fun _ => ⟨rfl, op, rfl, h3b⟩⟩
        show (0 : Int) < m
        omega
      -- The null of the context, which is no integer and no string.
      obtain rfl : op = 0 := by omega
      obtain ⟨⟨x', c⟩, hnull, h⟩ := bind_eq_some_iff.mp h
      cases h
      have htype : x'.type = .null ∨ x'.type = .close := decodeNull_type _ _ hnull
      simp only [uisLength, hop]
      refine ⟨rfl, Int.one_pos, fun ht => ?_, fun ht => ?_⟩ <;>
      · rcases htype with htype | htype <;> simp [htype] at ht
    · have hrange : 0x01 ≤ op ∧ op ≤ 0x3a := by omega
      -- A text or the opening of a chunked string, which `bsd_uis` returns as it is.
      have hskip {a : Option DRes} {k : Data → DCtx → Option DRes}
          (ha : ∀ r, a = some r → r.2.1.type = .error ∨ r.1 = uisLength buf ∧ 0 < r.1
            ∧ (r.2.1.type = .string → r.2.2 = ctx) ∧ r.2.1.type ≠ .int)
          (h : checkDecode a k = some r) : r.1 = uisLength buf ∧ 0 < r.1
            ∧ (r.2.1.type = .string → r.2.2 = ctx) ∧ r.2.1.type ≠ .int := by
        obtain ⟨⟨m, x', c⟩, ha', h⟩ := bind_eq_some_iff.mp h
        dsimp only at h
        rcases ha _ ha' with herr | ⟨hlen, hpos, hctx, hint⟩
        · split at h
          · cases h
            exact absurd herr hok
          · cases h
            exact absurd herr hok
        · rw [if_pos (Int.ne_of_gt hpos)] at h
          cases h
          exact ⟨hlen, hpos, hctx, hint⟩
      unfold bsdUis at h
      simp only [checkLength, if_neg hneg, hop, bind_eq_bind, bind_some] at h
      have hfound := hskip (fun r hr => ?_) h
      · exact ⟨hfound.1, hfound.2.1, hfound.2.2.1, fun hint => absurd hint hfound.2.2.2⟩
      · simp only [decodeString, hop, bind_eq_bind, bind_some, checkLength,
          if_neg hneg] at hr
        simp only [uisLength, hop]
        have hopcodes : uisString.smallOpcode = 0x01 ∧ uisString.mediumOpcode = 0x31
          ∧ uisString.largeOpcode = 0x39 ∧ uisString.chunkedOpcode = 0x3a := ⟨rfl, rfl, rfl, rfl⟩
        have hlimits : uisString.smallLimit = 47 ∧ uisString.mediumLimit = 2095 := ⟨rfl, rfl⟩
        rcases (by omega : (1 ≤ op ∧ op < 0x31) ∨ (0x31 ≤ op ∧ op < 0x39) ∨ op = 0x39 ∨ op = 0x3a)
          with hcase | hcase | hcase | hcase
        · rw [if_pos (by omega)] at hr ⊢
          obtain ⟨hlen, htype, hctx⟩ := decodeText_inv _ _ _ hu hr
          exact .inr ⟨by omega, by omega, fun _ => hctx, by simp [htype]⟩
        · rw [if_neg (by omega), if_pos (by omega)] at hr ⊢
          obtain ⟨hlen, htype, hctx⟩ := decodeText_inv _ _ _ hu hr
          exact .inr ⟨by omega, by omega, fun _ => hctx, by simp [htype]⟩
        · rw [if_neg (by omega), if_neg (by omega), if_pos (by omega)] at hr ⊢
          obtain ⟨hlen, htype, hctx⟩ := decodeText_inv _ _ _ hu hr
          exact .inr ⟨by omega, by omega, fun _ => hctx, by simp [htype]⟩
        · rw [if_neg (by omega), if_neg (by omega), if_neg (by omega), if_pos (by omega)] at hr
          rw [if_neg (by omega), if_neg (by omega), if_neg (by omega), if_pos (by omega)]
          obtain ⟨⟨st, c⟩, -, hr⟩ := bind_eq_some_iff.mp hr
          dsimp only at hr
          split at hr
          · cases hr
            exact .inr ⟨rfl, Int.one_pos, by simp, by simp⟩
          · cases hr
            exact .inl rfl

/-- An unsigned integer, in a window of the memory that is not as long as the length
that is passed on for it. -/
theorem bsdUis_window (hu : u < 0) {c : DCtx}
    (h : bsdUis ctx x buf u = some (k, x', c)) (hint : x'.type = .int) {m : Nat} (hm : 1 ≤ m)
    {length : Int} (hlength : 1 ≤ length) :
    (length < k → ∃ x'', bsdUis ctx x (buf.take m) length = some (-k, x'', ctx))
      ∧ (k ≤ length → (m : Int) < k → bsdUis ctx x (buf.take m) length = none)
      ∧ (k ≤ length → k ≤ m → bsdUis ctx x (buf.take m) length = some (k, x', ctx)) := by
  obtain ⟨-, -, -, hnum⟩ := bsdUis_inv _ _ _ hu h (by simp [hint])
  obtain ⟨-, op, hop, h3b⟩ := hnum hint
  obtain ⟨bs, hbuf, h0, h1⟩ := opcodeAt_eq _ hop
  have htake : buf.take m = byte op :: bs.take (m - 1) := by
    obtain ⟨m, rfl⟩ : ∃ i, m = i + 1 := ⟨m - 1, by omega⟩
    rw [hbuf, take_succ_cons]
    rfl
  rw [hbuf, bsdUis_byte ctx x (.inl hu) (by omega) h0 h1, ← hbuf] at h
  rw [htake, bsdUis_byte ctx x (.inr hlength) (by omega) h0 h1, ← htake]
  obtain ⟨i, g, -, -, hitem⟩ := decodeUnsigned_item h3b h1
  rw [hitem] at h ⊢
  obtain ⟨hi, hr⟩ := decodeFixed_inv _ _ _ hu h
  cases hr
  unfold decodeItem decodeFixed
  refine ⟨fun hlt => ⟨_, if_pos ⟨by omega, hlt⟩⟩, fun hle hmi => ?_, fun hle hmi => ?_⟩
  · rw [checkLength, if_neg (by omega), bytesAt, if_neg (by rw [length_take]; omega)]
    rfl
  · rw [checkLength, if_neg (by omega), bytesAt, length_take, if_pos (by omega),
      take_take, Nat.min_eq_left (by omega)]
    rfl

/-- The routine waits exactly when `wait` holds. -/
def Outcome (n : Nat) (k : Int) (ctx : DCtx) (r : Option DRes) (wait : Prop) : Prop :=
  wait ∧ Waits n k ctx r ∨ ¬ wait ∧ Stuck n r

theorem Stuck.none : Stuck n none := fun _ _ _ h => nomatch h

theorem Stuck.of_le {v : Int} (hv : -(n : Int) ≤ v) (x : Data) (ctx : DCtx) :
    Stuck n (some (v, x, ctx)) := by
  rintro _ _ _ ⟨⟩
  exact hv

variable {wait : Prop}

theorem Outcome.iff {r : Option DRes} (h : Outcome n k ctx r wait) :
    Waits n k ctx r ↔ wait := by
  rcases h with ⟨hwait, hr⟩ | ⟨hwait, hr⟩
  · exact ⟨fun _ => hwait, fun _ => hr⟩
  · exact ⟨fun hw => absurd hw hr.not_waits, fun hw => absurd hw hwait⟩

theorem checkSubdecode_inv (hu : u < 0) {nread : Int} {expected : DataType}
    {k : Int → Data → DCtx → Option DRes}
    (h : checkSubdecode nread (bsdUis ctx x buf u) expected k = some r)
    (hok : r.2.1.type ≠ .error) (hexpected : expected = .int ∨ expected = .string) :
    ∃ x', bsdUis ctx x buf u = some ((uisLength buf : Int), x', ctx) ∧ x'.type = expected
      ∧ 0 < uisLength buf ∧ k (nread + uisLength buf) x' ctx = some r := by
  obtain ⟨⟨sub, x', c⟩, hsub, hk⟩ := bind_eq_some_iff.mp h
  dsimp only at hk
  by_cases herr : x'.type = .error
  · refine absurd ?_ hok
    split at hk
    · cases hk
      exact herr
    split at hk
    · cases hk
      rfl
    · next hne =>
      rw [not_not.mp hne] at herr
      rcases hexpected with h' | h' <;> rw [h'] at herr <;> cases herr
  · obtain ⟨hlen, hpos, hstring, hint⟩ := bsdUis_inv _ _ _ hu hsub herr
    simp only at hlen hpos hstring hint
    subst hlen
    rw [if_neg (by omega)] at hk
    split at hk
    · cases hk
      exact absurd rfl hok
    · next htype =>
      have htype' : x'.type = expected := not_not.mp htype
      have hctx : c = ctx := by
        rcases hexpected with h' | h'
        · exact (hint (htype'.trans h')).1
        · exact hstring (htype'.trans h')
      rw [hctx] at hsub hk
      exact ⟨x', hsub, htype', by omega, hk⟩

/-- The length of a long collection is decoded with two bytes more than there are:
when its own bytes are not all there, memory behind them is read or their number
comes back with the wrong sign. -/
theorem longLength_stuck
    (hsub : bsdUis ctx x (buf.drop 1) (-1) = some ((uisLength (buf.drop 1) : Int), x', ctx))
    (hint : x'.type = .int) (hn : 1 ≤ n) (hcut : n ≤ uisLength (buf.drop 1))
    (k : Int → Data → DCtx → Option DRes) :
    Stuck n (checkSubdecode 1 (bsdUis ctx x ((buf.drop 1).take (n - 1)) ((n : Int) + 1)) .int k) := by
  rcases Nat.eq_or_lt_of_le hn with rfl | hn
  · have hpass : ¬ (0 ≤ ((1 : Nat) : Int) + 1 ∧ ((1 : Nat) : Int) + 1 < 1) := by omega
    have hnone : bsdUis ctx x ((buf.drop 1).take (1 - 1)) (((1 : Nat) : Int) + 1) = none := by
      rw [Nat.sub_self, take_zero, bsdUis, checkLength, if_neg hpass]
      rfl
    rw [hnone]
    exact .none
  · obtain ⟨hshort, hover, -⟩ := bsdUis_window _ _ _ (by omega : (-1 : Int) < 0) hsub hint
      (by omega : 1 ≤ n - 1) (by omega : (1 : Int) ≤ (n : Int) + 1)
    by_cases hlen : (n : Int) + 1 < uisLength (buf.drop 1)
    · obtain ⟨x'', hshort⟩ := hshort hlen
      rw [hshort]
      have hle : -(uisLength (buf.drop 1) : Int) ≤ 0 := by omega
      simp only [checkSubdecode, bind_eq_bind, bind_some, if_pos hle]
      exact .of_le (by omega) _ _
    · rw [hover (by omega) (by omega)]
      exact .none

theorem decodeCollection_nested (henc : enc.Valid)
    (hop : opcodeAt buf = some op)
    (hlong : op = enc.longUntypedOpcode ∨ op = enc.longTypedOpcode)
    (h : decodeCollection ctx x buf (-2) enc = some r) (hok : r.2.1.type ≠ .error)
    (hr : r.1 = buf.length) (hn : 1 ≤ n) (hlt : n < buf.length) :
    Outcome n buf.length ctx (decodeCollection ctx x (buf.take n) n enc)
      (op = enc.longTypedOpcode ∧ n + 1 = buf.length) := by
  obtain ⟨hlimit, hsu, hlu, hvu, hst, hlt', hvt, hbyte⟩ := henc
  have hneg (k : Int) : ¬ (0 ≤ (-2 : Int) ∧ (-2 : Int) < k) := by omega
  have hpass : ¬ (0 ≤ (n : Int) ∧ (n : Int) < 1) := by omega
  have hdrop : (buf.take n).drop 1 = (buf.drop 1).take (n - 1) := drop_take
  unfold decodeCollection at h ⊢
  rw [hop, bind_eq_bind, bind_some, checkLength, if_neg (hneg 1)] at h
  rw [opcodeAt_take hn, hop, bind_eq_bind, bind_some, checkLength, if_neg hpass,
    hdrop]
  rcases hlong with hop' | hop'
  · -- The elements have no context of their own: the length ends the item.
    rw [if_neg (by omega), if_neg (by omega), if_pos hop'] at h ⊢
    obtain ⟨x', hsub, htype, hpos, h⟩ :=
      checkSubdecode_inv _ _ _ (by omega : (-2 : Int) + 1 < 0) h hok (.inl rfl)
    obtain ⟨i, -, h⟩ := bind_eq_some_iff.mp h
    have hlen := openFixed_consumed _ _ h hok
    exact .inr ⟨by omega, longLength_stuck _ _ _ hsub htype hn (by omega) _⟩
  · rw [if_neg (by omega), if_neg (by omega), if_neg (by omega), if_neg (by omega),
      if_neg (by omega), if_pos hop'] at h ⊢
    obtain ⟨x', hsub, htype, hpos, h⟩ :=
      checkSubdecode_inv _ _ _ (by omega : (-2 : Int) + 1 < 0) h hok (.inl rfl)
    rw [checkLength, if_neg (hneg _)] at h
    obtain ⟨i, -, h⟩ := bind_eq_some_iff.mp h
    obtain ⟨b, -, h⟩ := bind_eq_some_iff.mp h
    have hlen := openFixed_consumed _ _ h hok
    by_cases hcut : n + 1 = buf.length
    · -- Only the context is missing, and that is asked for.
      obtain ⟨-, -, hsame⟩ := bsdUis_window _ _ _ (by omega : (-1 : Int) < 0) hsub htype
        (by omega : 1 ≤ n - 1) (by omega : (1 : Int) ≤ (n : Int) + 1)
      have hnonpos : ¬ (uisLength (buf.drop 1) : Int) ≤ 0 := by omega
      have hfail : 0 ≤ (n : Int) ∧ (n : Int) < 1 + uisLength (buf.drop 1) + 1 := by omega
      refine .inl ⟨⟨hop', hcut⟩, 1 + uisLength (buf.drop 1) + 1, x', ?_, hfail.2, by omega⟩
      rw [hsame (by omega) (by omega)]
      simp only [checkSubdecode, bind_eq_bind, bind_some, if_neg hnonpos, htype,
        ne_eq, not_true_eq_false, if_false, checkLength, if_pos hfail]
    · exact .inr ⟨fun hw => hcut hw.2, longLength_stuck _ _ _ hsub htype hn (by omega) _⟩

/-! ## Class definitions -/

/-- An inner decoding of a class definition: what is missing is asked for with the
wrong sign. -/
theorem subdecode_cut (nread : Nat) (hu : u < 0)
    (hsub : bsdUis ctx x (buf.drop nread) u = some ((uisLength (buf.drop nread) : Int), x', ctx))
    (hpos : 0 < uisLength (buf.drop nread)) (hexpected : x'.type ≠ .error) (hle : nread ≤ n)
    (k : Int → Data → DCtx → Option DRes) :
    (n < nread + uisLength (buf.drop nread) → Stuck n (checkSubdecode nread
        (bsdUis ctx x ((buf.take n).drop nread) ((n : Int) - nread)) x'.type k))
      ∧ (nread + uisLength (buf.drop nread) ≤ n → checkSubdecode nread
        (bsdUis ctx x ((buf.take n).drop nread) ((n : Int) - nread)) x'.type k
          = k ((nread : Int) + uisLength (buf.drop nread)) x' ctx) := by
  have hdrop : (buf.take n).drop nread = (buf.drop nread).take (n - nread) := drop_take
  have hlen : (n : Int) - nread = ((n - nread : Nat) : Int) := by omega
  rw [hdrop, hlen]
  rcases Nat.eq_zero_or_pos (n - nread) with h0 | hm
  · refine ⟨fun _ => ?_, fun _ => by omega⟩
    have hfail : 0 ≤ ((0 : Nat) : Int) ∧ ((0 : Nat) : Int) < 1 := by omega
    rw [h0, take_zero, bsdUis, checkLength, if_pos hfail]
    exact .of_le (by omega) _ _
  · obtain ⟨-, hcases⟩ := bsdUis_cut (n := n - nread) _ _ _ hu hm _ hsub hexpected
    refine ⟨fun hcut => ?_, fun henough => ?_⟩
    · rcases hcases with ⟨hle', -⟩ | ⟨-, v, x'', hwait, hv, -⟩
      · simp only at hle'
        omega
      · have hneg : -v ≤ 0 := by omega
        rw [hwait]
        simp only [checkSubdecode, bind_eq_bind, bind_some, if_pos hneg]
        exact .of_le (by omega) _ _
    · rcases hcases with ⟨-, hsame⟩ | ⟨hlt, -⟩
      · have hnonpos : ¬ (uisLength (buf.drop nread) : Int) ≤ 0 := by omega
        rw [hsame]
        simp only [checkSubdecode, bind_eq_bind, bind_some, if_neg hnonpos, ne_eq,
          not_true_eq_false, if_false]
      · simp only at hlt
        omega

/-- What follows an inner decoding decides whether a cut behind it is waited for. -/
theorem Outcome.subdecode (nread : Nat) (hu : u < 0) {expected : DataType}
    {next next' : Int → Data → DCtx → Option DRes}
    (h : checkSubdecode nread (bsdUis ctx x (buf.drop nread) u) expected next = some r)
    (hok : r.2.1.type ≠ .error) (hexpected : expected = .int ∨ expected = .string)
    (hle : nread ≤ n) (hwait : wait → nread + uisLength (buf.drop nread) ≤ n)
    (hnext : ∀ x', nread + uisLength (buf.drop nread) ≤ n →
      next ((nread + uisLength (buf.drop nread) : Nat) : Int) x' ctx = some r →
      Outcome n k ctx (next' ((nread + uisLength (buf.drop nread) : Nat) : Int) x' ctx) wait) :
    Outcome n k ctx (checkSubdecode nread
      (bsdUis ctx x ((buf.take n).drop nread) ((n : Int) - nread)) expected next') wait := by
  obtain ⟨x', hsub, htype, hpos, h⟩ := checkSubdecode_inv _ _ _ hu h hok hexpected
  have herr : x'.type ≠ .error := by
    rw [htype]
    rcases hexpected with rfl | rfl <;> nofun
  obtain ⟨hstuck, hsame⟩ := subdecode_cut (n := n) _ _ _ nread hu hsub hpos herr hle next'
  rw [htype] at hstuck hsame
  by_cases hcut : n < nread + uisLength (buf.drop nread)
  · exact .inr ⟨fun hw => absurd (hwait hw) (by omega), hstuck hcut⟩
  rw [hsame (by omega), ← Nat.cast_add]
  exact hnext x' (by omega) (by rwa [Nat.cast_add])

theorem Outcome.bind {α : Type} {o : Option α} {next next' : α → Option DRes}
    (h : o.bind next = some r)
    (hnext : ∀ v, next v = some r → Outcome n k ctx (next' v) wait) :
    Outcome n k ctx (o.bind next') wait := by
  obtain ⟨v, rfl, h⟩ := bind_eq_some_iff.mp h
  exact hnext v h

/-- Where the contexts of the fields stand, from the field at `pos` on. -/
def fieldMarks (named : Bool) (e : List UInt8) : Nat → Nat → List Nat
  | 0, _ => []
  | fuel + 1, pos =>
    if pos < e.length then
      let mark := pos + if named then uisLength (e.drop pos) else 0
      mark :: fieldMarks named e fuel (mark + 1)
    else []

def contextMarks (e : List UInt8) : List Nat :=
  let named : Bool := opcodeAt e = some 0x71
  let afterId := 1 + uisLength (e.drop 1)
  let afterName := afterId + if named then uisLength (e.drop afterId) else 0
  fieldMarks named e e.length (afterName + uisLength (e.drop afterName))

variable {named : Bool}

theorem le_of_mem_fieldMarks {e : List UInt8} {fuel pos mark : Nat}
    (h : mark ∈ fieldMarks named e fuel pos) : pos ≤ mark := by
  induction fuel generalizing pos with
  | zero => cases h
  | succ fuel ih =>
    unfold fieldMarks at h
    split at h
    · rcases mem_cons.mp h with rfl | h
      · omega
      · have := ih h
        omega
    · cases h

theorem finishClass_consumed {classid : Int} {name : Option (List UInt8)} {nread : Int}
    {fields : List BsField} (h : finishClass classid name nread x ctx fields = some r) :
    r.1 = nread := by
  obtain ⟨c, -, h⟩ := bind_eq_some_iff.mp h
  cases h
  rfl

theorem decodeFields_nested {k : Int → Data → DCtx → List BsField → Option DRes}
    (hk : ∀ nread x ctx fields r, k nread x ctx fields = some r → r.1 = nread)
    {count : Nat} {nread fuel : Nat} {fields : List BsField}
    (h : decodeFields named buf (-2) k count nread x ctx fields = some r)
    (hok : r.2.1.type ≠ .error) (hr : r.1 = buf.length) (hle : nread ≤ n) (hlt : n < buf.length)
    (hfuel : buf.length - nread ≤ fuel) :
    Outcome n buf.length ctx (decodeFields named (buf.take n) n k count nread x ctx fields)
      (n ∈ fieldMarks named buf fuel nread) := by
  induction count generalizing nread fuel x fields with
  | zero =>
    have := hk _ _ _ _ _ h
    omega
  | succ count ih =>
    obtain ⟨fuel, rfl⟩ : ∃ i, fuel = i + 1 := ⟨fuel - 1, by omega⟩
    have hneg (k : Int) : ¬ (0 ≤ (-2 : Int) ∧ (-2 : Int) < k) := by omega
    -- From the context of the field on, when its name ends at `mark`.
    have hmark (mark : Nat) (x : Data) (name : Option (List UInt8)) (hge : nread ≤ mark)
        (hle : mark ≤ n) (h : (checkLength (-2) ((mark : Int) + 1) x ctx do
          let ctxid ← buf[(mark : Int).toNat]?
          decodeFields named buf (-2) k count ((mark : Int) + 1) x ctx
            (fields ++ [{ name := name, ctxid := .ofByte ctxid }])) = some r) :
        Outcome n buf.length ctx (checkLength n ((mark : Int) + 1) x ctx do
          let ctxid ← (buf.take n)[(mark : Int).toNat]?
          decodeFields named (buf.take n) n k count ((mark : Int) + 1) x ctx
            (fields ++ [{ name := name, ctxid := .ofByte ctxid }]))
          (n ∈ mark :: fieldMarks named buf fuel (mark + 1)) := by
      rw [checkLength, if_neg (hneg _)] at h
      obtain ⟨b, hb, h⟩ := bind_eq_some_iff.mp h
      rw [Int.toNat_natCast] at hb
      have hin : mark < buf.length := (List.getElem?_eq_some_iff.mp hb).1
      rcases Nat.eq_or_lt_of_le hle with rfl | hgt
      · have hfail : 0 ≤ (mark : Int) ∧ (mark : Int) < (mark : Int) + 1 := by omega
        refine .inl ⟨mem_cons_self .., (mark : Int) + 1, x, ?_, by omega, by omega⟩
        rw [checkLength, if_pos hfail]
      have hpass : ¬ (0 ≤ (n : Int) ∧ (n : Int) < (mark : Int) + 1) := by omega
      have hne : n ≠ mark := by omega
      rw [checkLength, if_neg hpass, Int.toNat_natCast, getElem?_take buf hgt, hb,
        bind_eq_bind, bind_some, mem_cons]
      simp only [hne, false_or]
      have hcast : ((mark + 1 : Nat) : Int) = (mark : Int) + 1 := by omega
      rw [← hcast] at h ⊢
      exact ih _ h (by omega) (by omega)
    have hpos : nread < buf.length := by omega
    cases named with
    | false =>
      simp only [fieldMarks, if_pos hpos, Bool.false_eq_true, if_false, Nat.add_zero]
      simp only [decodeFields, Bool.false_eq_true, if_false] at h ⊢
      exact hmark nread x none (Nat.le_refl _) hle h
    | true =>
      simp only [fieldMarks, if_pos hpos, if_true]
      simp only [decodeFields, if_true, Int.toNat_natCast] at h ⊢
      refine .subdecode _ _ _ _ (by omega : (-2 : Int) - nread < 0) h hok (.inr rfl) hle (fun hmem => ?_)
        fun x' henough h => .bind _ h fun name h => hmark _ x' _ (Nat.le_add_right ..) henough h
      rcases mem_cons.mp hmem with heq | hmem
      · omega
      · have := le_of_mem_fieldMarks hmem
        omega

theorem decodeClassFields_nested {classid : Int} {nread : Nat}
    {name : Option (List UInt8)}
    (h : decodeClassFields named buf (-2) classid nread x ctx name = some r)
    (hok : r.2.1.type ≠ .error) (hr : r.1 = buf.length) (hle : nread ≤ n) (hlt : n < buf.length) :
    Outcome n buf.length ctx (decodeClassFields named (buf.take n) n classid nread x ctx name)
      (n ∈ fieldMarks named buf buf.length (nread + uisLength (buf.drop nread))) := by
  unfold decodeClassFields at h ⊢
  rw [Int.toNat_natCast] at h ⊢
  exact .subdecode _ _ _ _ (by omega : (-2 : Int) - nread < 0) h hok (.inl rfl) hle le_of_mem_fieldMarks
    fun x' henough h => .bind _ h fun nfields h =>
      decodeFields_nested _ _ _ (fun _ _ _ _ _ h => finishClass_consumed _ _ h) h hok hr henough hlt
        (by omega)

theorem decodeClass_nested (hop : opcodeAt buf = some op)
    (hclass : op = 0x71 ∨ op = 0x72) (h : decodeClass ctx x buf (-2) = some r)
    (hok : r.2.1.type ≠ .error) (hr : r.1 = buf.length) (hn : 1 ≤ n) (hlt : n < buf.length) :
    Outcome n buf.length ctx (decodeClass ctx x (buf.take n) n) (n ∈ contextMarks buf) := by
  have hneg (k : Int) : ¬ (0 ≤ (-2 : Int) ∧ (-2 : Int) < k) := by omega
  have hpass : ¬ (0 ≤ (n : Int) ∧ (n : Int) < 1) := by omega
  have hnot : ¬ (op ≠ 0x71 ∧ op ≠ 0x72) := by omega
  unfold decodeClass at h ⊢
  rw [checkLength, if_neg (hneg 1), hop, bind_eq_bind, bind_some, if_neg hnot] at h
  rw [checkLength, if_neg hpass, opcodeAt_take hn, hop, bind_eq_bind, bind_some,
    if_neg hnot]
  unfold contextMarks
  simp only [hop, Option.some.injEq]
  refine .subdecode _ _ _ 1 (by omega : (-2 : Int) - 1 < 0) h hok (.inl rfl) hn (fun hmem => ?_)
    fun x₁ henough₁ h => .bind _ h fun classid h => ?_
  · have := le_of_mem_fieldMarks hmem
    omega
  rcases hclass with rfl | rfl
  · simp only [decide_true, if_true, Int.toNat_natCast] at h ⊢
    refine .subdecode _ _ _ _ (by omega) h hok (.inr rfl) henough₁ (fun hmem => ?_)
      fun x₂ henough₂ h => .bind _ h fun name h => decodeClassFields_nested _ _ _ h hok hr henough₂ hlt
    have := le_of_mem_fieldMarks hmem
    omega
  · have h72 : ¬ (0x72 : Int) = 0x71 := by omega
    simp only [h72, decide_false, Bool.false_eq_true, if_false, Nat.add_zero] at h ⊢
    exact decodeClassFields_nested _ _ _ h hok hr (by omega) hlt

/-! ## Routines with inner decodings -/

def Fails (r : Option DRes) : Prop := ∃ x c, r = some (0, x, c) ∧ x.type = .error

theorem Fails.stuck {r : Option DRes} (h : Fails r) : Stuck n r := by
  rcases h with ⟨x, c, rfl, -⟩
  exact .of_le (by omega) _ _

theorem Fails.checkDecode_skip {k : Data → DCtx → Option DRes} (hk : ∀ x c, Fails (k x c)) :
    Fails (checkDecode (some (0, x, ctx)) k) := by
  by_cases herr : x.type = .error
  · exact ⟨x, ctx, by simp [checkDecode, herr], herr⟩
  · rw [Mihini.Bysant.checkDecode_skip herr]
    exact hk x ctx

theorem checkDecode_inv {a : Option DRes} {k : Data → DCtx → Option DRes}
    (hk : ∀ x c, Fails (k x c)) (h : checkDecode a k = some r)
    (hok : r.2.1.type ≠ .error) : a = some r := by
  obtain ⟨⟨m, x', c⟩, ha, h⟩ := bind_eq_some_iff.mp h
  dsimp only at h
  split at h
  · rw [ha, h]
  split at h
  · next herr =>
    cases h
    exact absurd herr hok
  · rcases hk x' c with ⟨x'', c', hfail, herr⟩
    rw [hfail] at h
    cases h
    exact absurd herr hok

theorem Outcome.checkDecode {a : Option DRes} {next : Data → DCtx → Option DRes}
    (hk : ∀ x c, Fails (next x c)) (h : Outcome n k ctx a wait) :
    Outcome n k ctx (checkDecode a next) wait := by
  rcases h with ⟨hwait, v, x', rfl, hn, hv⟩ | ⟨hwait, hstuck⟩
  · have hne : -v ≠ 0 := by omega
    exact .inl ⟨hwait, v, x', by simp [Bysant.checkDecode, hne], hn, hv⟩
  refine .inr ⟨hwait, ?_⟩
  intro v x' c hr
  obtain ⟨⟨m, x'', c'⟩, ha, hr⟩ := bind_eq_some_iff.mp hr
  dsimp only at hr
  split at hr
  · cases hr
    exact hstuck _ _ _ ha
  · split at hr
    · cases hr
      omega
    · exact (hk x'' c').stuck _ _ _ hr

theorem decodeOther_fails [CFloat] (hlo : 0x02 < op) (hhi : op < 0x60 ∨ 0x70 < op)
    (hfloat : op < 0xfe) (length : Int) : Fails (decodeOther op ctx x buf length) := by
  unfold decodeOther decodeFloats
  rw [if_neg (by omega), if_neg (by omega), if_neg (by omega), if_neg (by omega),
    if_neg (by omega), if_neg (by omega), if_neg (by omega)]
  exact ⟨_, _, rfl, rfl⟩

theorem decodeClass_skip {length : Int} (h : Enough length 1) (h71 : op ≠ 0x71)
    (h72 : op ≠ 0x72) (h0 : 0 ≤ op) (h1 : op < 256) (bs : List UInt8) :
    decodeClass ctx x (byte op :: bs) length = some (0, x, ctx) := by
  unfold decodeClass
  rw [checkLength_enough h, opcodeAt_byte h0 h1, bind_eq_bind, bind_some,
    if_pos ⟨h71, h72⟩]

/-- An instance of a class with a long identifier is never waited for. -/
theorem decodeOther_object [CFloat] (h : decodeOther 0x70 ctx x buf (-2) = some r)
    (hok : r.2.1.type ≠ .error) (hr : r.1 = buf.length) (hn : 1 ≤ n) (hlt : n < buf.length) :
    Stuck n (decodeOther 0x70 ctx x (buf.take n) n) := by
  unfold decodeOther at h ⊢
  rw [if_neg (by omega), if_neg (by omega), if_neg (by omega), if_neg (by omega),
    if_pos rfl] at h ⊢
  obtain ⟨x', hsub, htype, hpos, h⟩ :=
    checkSubdecode_inv _ _ _ (by omega : (-2 : Int) - 1 < 0) h hok (.inl rfl)
  obtain ⟨hstuck, -⟩ := subdecode_cut (n := n) _ _ _ 1 (by omega) hsub hpos (by simp [htype]) hn
    fun nread x ctx => x.intContent.bind fun i =>
      instantiate nread x ctx (UInt32.ofNat (i + 0x10).toNat)
  rw [htype] at hstuck
  refine hstuck ?_
  obtain ⟨i, -, h⟩ := bind_eq_some_iff.mp h
  obtain ⟨⟨status, x'', c⟩, -, h⟩ := bind_eq_some_iff.mp h
  dsimp only at h
  split at h
  · cases h
    simp only at hr
    omega
  · cases h
    exact absurd rfl hok

theorem Outcome.congr {r : Option DRes} {wait wait' : Prop} (h : Outcome n k ctx r wait)
    (hwait : wait ↔ wait') : Outcome n k ctx r wait' := by
  rwa [← propext hwait]

/-- The opcodes of the containers with a long length and a context of their own. -/
def longTyped (ctxid : CtxId) (op : Int) : Prop :=
  match ctxid with
  | .global => op = globalList.longTypedOpcode ∨ op = globalMap.longTypedOpcode
  | .listOrMap => op = listmapList.longTypedOpcode ∨ op = listmapMap.longTypedOpcode
  | _ => False

/-- The cuts of an item with an inner decoding at which it is waited for: right
before the context of a container, or of a field of a class. -/
def ContextCut (ctxid : CtxId) (op : Int) (e : List UInt8) (n : Nat) : Prop :=
  longTyped ctxid op ∧ n + 1 = e.length
    ∨ ctxid = .global ∧ (op = 0x71 ∨ op = 0x72) ∧ n ∈ contextMarks e

theorem take_eq_byte {bs : List UInt8} (hbuf : buf = byte op :: bs) (hn : 1 ≤ n) :
    buf.take n = byte op :: bs.take (n - 1) := by
  obtain ⟨m, rfl⟩ : ∃ i, n = i + 1 := ⟨n - 1, by omega⟩
  rw [hbuf, take_succ_cons]
  rfl

theorem collection_nested (henc : enc.Valid)
    (hop : opcodeAt buf = some op)
    (hlong : op = enc.longUntypedOpcode ∨ op = enc.longTypedOpcode)
    {k k' : Data → DCtx → Option DRes} (hk : ∀ x c, Fails (k x c)) (hk' : ∀ x c, Fails (k' x c))
    (h : checkDecode (decodeCollection ctx x buf (-2) enc) k = some r)
    (hok : r.2.1.type ≠ .error) (hr : r.1 = buf.length) (hn : 1 ≤ n) (hlt : n < buf.length) :
    Outcome n buf.length ctx (checkDecode (decodeCollection ctx x (buf.take n) n enc) k')
      (op = enc.longTypedOpcode ∧ n + 1 = buf.length) :=
  .checkDecode _ hk' <|
    decodeCollection_nested _ _ _ henc hop hlong (checkDecode_inv hk h hok) hok hr hn hlt

theorem bsdListmap_nested (hx : x.type ≠ .error)
    (hop : opcodeAt buf = some op) (hnested : nestedOpcode .listOrMap op)
    (h : bsdListmap ctx x buf (-2) = some r)
    (hok : r.2.1.type ≠ .error) (hr : r.1 = buf.length) (hn : 1 ≤ n) (hlt : n < buf.length) :
    Outcome n buf.length ctx (bsdListmap ctx x (buf.take n) n)
      (ContextCut .listOrMap op buf n) := by
  obtain ⟨bs, hbuf, h0, h1⟩ := opcodeAt_eq _ hop
  have htake := take_eq_byte buf hbuf hn
  have hunchecked : Enough (-2) 1 := .inl (by omega)
  have hchecked : Enough (n : Int) 1 := .inr (by omega)
  have hlists : listmapList.emptyOpcode = 0x01 ∧ listmapList.longUntypedOpcode = 0x3e
    ∧ listmapList.longTypedOpcode = 0x7c ∧ listmapList.variableTypedOpcode = 0x7d := by decide
  have hmaps : listmapMap.emptyOpcode = 0x83 ∧ listmapMap.longUntypedOpcode = 0xc0
    ∧ listmapMap.longTypedOpcode = 0xfe ∧ listmapMap.variableTypedOpcode = 0xff := by decide
  have hop' : opcodeAt (buf.take n) = some op := by rw [opcodeAt_take hn, hop]
  simp only [nestedOpcode] at hnested
  have hend (x : Data) (c : DCtx) :
      Fails (if op = 0x00 then decodedNull 1 c x else bsdError x c .einvalid) := by
    rw [if_neg (by omega)]
    exact ⟨_, _, rfl, rfl⟩
  unfold bsdListmap at h ⊢
  rw [checkLength_enough hunchecked, hop, bind_eq_bind, bind_some] at h
  rw [checkLength_enough hchecked, hop', bind_eq_bind, bind_some]
  rcases (by omega : (op = 0x3e ∨ op = 0x7c) ∨ op = 0xc0 ∨ op = 0xfe) with hlist | hmap
  · have hmap {length : Int} (henough : Enough length 1) (bs : List UInt8) (x : Data) (c : DCtx) :
        Fails (checkDecode (decodeCollection c x (byte op :: bs) length listmapMap) fun x ctx =>
          if op = 0x00 then decodedNull 1 ctx x else bsdError x ctx .einvalid) := by
      rw [decodeCollection_skip c x listmapMap_valid henough (by omega) h0 h1]
      exact Fails.checkDecode_skip c x hend
    refine (collection_nested _ _ _ listmapList_valid hop (by omega) ?_ ?_ h hok hr hn hlt).congr _ ?_
    · rw [hbuf]
      exact hmap hunchecked bs
    · rw [htake]
      exact hmap hchecked _
    · simp only [ContextCut, longTyped]
      grind
  · have hlist {length : Int} (henough : Enough length 1) (bs : List UInt8) :=
      decodeCollection_skip ctx x listmapList_valid henough (by omega) h0 h1 bs
    rw [hbuf, hlist hunchecked, checkDecode_skip hx, ← hbuf] at h
    rw [htake, hlist hchecked, checkDecode_skip hx, ← htake]
    refine (collection_nested _ _ _ listmapMap_valid hop (by omega) hend hend h hok hr hn hlt).congr _ ?_
    simp only [ContextCut, longTyped]
    grind

theorem bsdGlobal_nested [CFloat] (hop : opcodeAt buf = some op)
    (hnested : nestedOpcode .global op) (h : bsdGlobal ctx x buf (-2) = some r)
    (hok : r.2.1.type ≠ .error) (hr : r.1 = buf.length) (hn : 1 ≤ n) (hlt : n < buf.length) :
    Outcome n buf.length ctx (bsdGlobal ctx x (buf.take n) n) (ContextCut .global op buf n) := by
  obtain ⟨bs, hbuf, h0, h1⟩ := opcodeAt_eq _ hop
  have htake := take_eq_byte buf hbuf hn
  have hunchecked : Enough (-2) 1 := .inl (by omega)
  have hchecked : Enough (n : Int) 1 := .inr (by omega)
  have hlists : globalList.emptyOpcode = 0x2a ∧ globalList.longUntypedOpcode = 0x34
    ∧ globalList.longTypedOpcode = 0x3f ∧ globalList.variableTypedOpcode = 0x40 := by decide
  have hmaps : globalMap.emptyOpcode = 0x41 ∧ globalMap.longUntypedOpcode = 0x4b
    ∧ globalMap.longTypedOpcode = 0x56 ∧ globalMap.variableTypedOpcode = 0x57 := by decide
  have hstrings : globalString.smallOpcode = 0x03 ∧ globalString.chunkedOpcode = 0x29 := by decide
  simp only [nestedOpcode] at hnested
  by_cases hobject : op = 0x70
  · subst hobject
    rw [hbuf, bsdGlobal_other ctx x hunchecked (by omega) h0 h1, ← hbuf] at h
    rw [htake, bsdGlobal_other ctx x hchecked (by omega) h0 h1, ← htake]
    refine .inr ⟨?_, decodeOther_object _ _ _ h hok hr hn hlt⟩
    simp only [ContextCut, longTyped]
    omega
  -- What stands behind the routine that knows the opcode fails.
  have hother (length : Int) (bs : List UInt8) (x : Data) (c : DCtx) :
      Fails (decodeOther op c x (byte op :: bs) length) :=
    decodeOther_fails _ _ _ (by omega) (by omega) (by omega) _
  have hclass {length : Int} (henough : Enough length 1) (h71 : op ≠ 0x71) (h72 : op ≠ 0x72)
      (bs : List UInt8) (x : Data) (c : DCtx) :
      Fails (checkDecode (decodeClass c x (byte op :: bs) length) fun x ctx =>
        decodeOther op ctx x (byte op :: bs) length) := by
    rw [decodeClass_skip c x henough h71 h72 h0 h1]
    exact .checkDecode_skip _ _ (hother length bs)
  have hstring {length : Int} (henough : Enough length 1) (bs : List UInt8) :
      bsdGlobal ctx x (byte op :: bs) length
        = checkDecode (decodeCollection ctx { x with type := .string } (byte op :: bs) length
            globalList) fun x ctx =>
          checkDecode (decodeCollection ctx x (byte op :: bs) length globalMap) fun x ctx =>
          checkDecode (decodeClass ctx x (byte op :: bs) length) fun x ctx =>
            decodeOther op ctx x (byte op :: bs) length := by
    rw [bsdGlobal_noninteger ctx x henough (by omega) h0 h1,
      decodeString_skip ctx _ globalString_valid henough (by omega) h0 h1,
      checkDecode_skip (by simp)]
  rw [hbuf, hstring hunchecked, ← hbuf] at h
  rw [htake, hstring hchecked, ← htake]
  rcases (by omega : (op = 0x34 ∨ op = 0x3f) ∨ (op = 0x4b ∨ op = 0x56) ∨ op = 0x71 ∨ op = 0x72)
    with hlist | hmap | hdef
  · have hmap {length : Int} (henough : Enough length 1) (bs : List UInt8) (x : Data) (c : DCtx) :
        Fails (checkDecode (decodeCollection c x (byte op :: bs) length globalMap) fun x ctx =>
          checkDecode (decodeClass ctx x (byte op :: bs) length) fun x ctx =>
            decodeOther op ctx x (byte op :: bs) length) := by
      rw [decodeCollection_skip c x globalMap_valid henough (by omega) h0 h1]
      exact .checkDecode_skip _ _ (hclass henough (by omega) (by omega) bs)
    refine (collection_nested _ _ _ globalList_valid hop (by omega) ?_ ?_ h hok hr hn hlt).congr _ ?_
    · rw [hbuf]
      exact hmap hunchecked bs
    · rw [htake]
      exact hmap hchecked _
    · simp only [ContextCut, longTyped]
      grind
  all_goals
    have hlist {length : Int} (henough : Enough length 1) (bs : List UInt8) :=
      decodeCollection_skip ctx { x with type := .string } globalList_valid henough
        (by omega) h0 h1 bs
    rw [hbuf, hlist hunchecked, checkDecode_skip (by simp), ← hbuf] at h
    rw [htake, hlist hchecked, checkDecode_skip (by simp), ← htake]
  · refine (collection_nested _ _ _ globalMap_valid hop (by omega) ?_ ?_ h hok hr hn hlt).congr _ ?_
    · rw [hbuf]
      exact hclass hunchecked (by omega) (by omega) bs
    · rw [htake]
      exact hclass hchecked (by omega) (by omega) _
    · simp only [ContextCut, longTyped]
      grind
  · have hmap {length : Int} (henough : Enough length 1) (bs : List UInt8) :=
      decodeCollection_skip ctx { x with type := .string } globalMap_valid henough
        (by omega) h0 h1 bs
    rw [hbuf, hmap hunchecked, checkDecode_skip (by simp), ← hbuf] at h
    rw [htake, hmap hchecked, checkDecode_skip (by simp), ← htake]
    have hfound := checkDecode_inv (by rw [hbuf]; exact hother _ bs) h hok
    have hout := decodeClass_nested _ _ _ hop hdef hfound hok hr hn hlt
    refine (Outcome.checkDecode _ (by rw [htake]; exact hother _ _) hout).congr _ ?_
    simp only [ContextCut, longTyped]
    grind

theorem bsdContext_nested [CFloat] (hx : x.type ≠ .error)
    (hop : opcodeAt buf = some op) (hnested : nestedOpcode ctxid op)
    (h : bsdContext ctxid ctx x buf (-2) = some r) (hok : r.2.1.type ≠ .error)
    (hr : r.1 = buf.length) (hn : 1 ≤ n) (hlt : n < buf.length) :
    Outcome n buf.length ctx (bsdContext ctxid ctx x (buf.take n) n)
      (ContextCut ctxid op buf n) := by
  cases ctxid with
  | global => exact bsdGlobal_nested _ _ _ hop hnested h hok hr hn hlt
  | listOrMap => exact bsdListmap_nested _ _ _ hx hop hnested h hok hr hn hlt
  | _ => cases hnested

end

/-! ## `bsd_read` -/

section
variable {n : Nat} {ctx ctx' : DCtx} {x x' : Data} {e : List UInt8}

theorem bsdReadDone_value {top : Nat} {nread : Int} {r : DRes}
    (h : bsdReadDone top nread x ctx = some r) :
    r.1 = nread ∧ (x.type = .error → r.2.1.type = .error)
      ∧ (nread < 0 → r = (nread, x, ctx)) := by
  unfold bsdReadDone at h
  split at h
  · cases h
    exact ⟨rfl, id, fun _ => rfl⟩
  · next hgo =>
    have hval : r.1 = nread := by
      by_cases hclass : x.type = .classdef <;> by_cases hnew : top < ctx.stacksize
      · simp only [if_pos hclass, if_pos hnew, bind_eq_bind, bind_some] at h
        cases h
        rfl
      · simp only [if_pos hclass, if_neg hnew, bind_eq_bind, bind_some] at h
        obtain ⟨x'', -, h⟩ := bind_eq_some_iff.mp h
        cases h
        rfl
      · simp only [if_neg hclass, if_pos hnew, bind_eq_bind, bind_some] at h
        obtain ⟨f, -, h⟩ := bind_eq_some_iff.mp h
        cases h
        rfl
      · simp only [if_neg hclass, if_neg hnew, bind_eq_bind] at h
        obtain ⟨f, -, h⟩ := bind_eq_some_iff.mp h
        obtain ⟨x'', -, h⟩ := bind_eq_some_iff.mp h
        cases h
        rfl
    exact ⟨hval, fun herr => absurd (.inr herr) hgo, fun hneg => absurd (.inl hneg) hgo⟩

theorem waits_bsdReadDone (top : Nat) (k : Int) (o : Option DRes) :
    Waits n k ctx (o.bind fun r => bsdReadDone top r.1 r.2.1 r.2.2) ↔ Waits n k ctx o := by
  constructor
  · rintro ⟨v, x', hr, hn, hv⟩
    obtain ⟨⟨nread, x'', c⟩, ho, hr⟩ := bind_eq_some_iff.mp hr
    obtain ⟨hval, -, hneg⟩ := bsdReadDone_value hr
    simp only at hval
    have hsame : (-v, x', ctx) = (nread, x'', c) := hneg (by omega)
    rw [← hsame] at ho
    exact ⟨v, x', ho, hn, hv⟩
  · rintro ⟨v, x', rfl, hn, hv⟩
    refine ⟨v, x', ?_, hn, hv⟩
    rw [bind_some, bsdReadDone, if_pos (.inl (by omega))]

/-- The beginnings of the item `e` that are waited for. -/
def Resumable (ctx : DCtx) (e : List UInt8) (n : Nat) : Prop :=
  match ctx.topframe.getctxid ctx.classcoll, opcodeAt e with
  | some ctxid, some op => ¬ nestedOpcode ctxid op ∨ ContextCut ctxid op e n
  | _, _ => True

theorem opcodeAt_of_pos (h : 0 < e.length) : ∃ op, opcodeAt e = some op := by
  cases e with
  | nil => cases h
  | cons b bs => exact ⟨_, rfl⟩

/-- What reading an item of at least one byte comes down to. -/
theorem bsdRead_inv [CFloat] (h : bsdRead ctx x e (-2) = some ((e.length : Int), x', ctx'))
    (hok : x'.type ≠ .error) (hpos : 0 < e.length) :
    ∃ ctxid x'' c, ctx.topframe.getctxid ctx.classcoll = some ctxid
      ∧ ctx.topframe.missing ≠ 0 ∧ x''.type ≠ .error
      ∧ bsdContext ctxid ctx { x with type := .null } e (-2) = some ((e.length : Int), x'', c) := by
  unfold bsdRead at h
  by_cases hmissing : ctx.topframe.missing = 0
  · simp only [if_pos hmissing] at h
    obtain ⟨x'', -, h⟩ := bind_eq_some_iff.mp h
    have := congrArg Prod.fst (Option.some.inj h)
    simp only at this
    omega
  · simp only [if_neg hmissing] at h
    obtain ⟨ctxid, hctxid, h⟩ := bind_eq_some_iff.mp h
    obtain ⟨⟨nread, x'', c⟩, hread, h⟩ := bind_eq_some_iff.mp h
    obtain ⟨hval, herr, -⟩ := bsdReadDone_value h
    simp only at hval
    rw [← hval] at hread
    exact ⟨ctxid, x'', c, hctxid, hmissing, fun ht => hok (herr ht), hread⟩

theorem bsdRead_take [CFloat] (h : bsdRead ctx x e (-2) = some ((e.length : Int), x', ctx'))
    (hok : x'.type ≠ .error) (hn : 1 ≤ n) (hlt : n < e.length) :
    Waits n e.length ctx (bsdRead ctx x (e.take n) n) ↔ Resumable ctx e n := by
  obtain ⟨ctxid, x'', c, hctxid, hmissing, herr, hread⟩ := bsdRead_inv h hok (by omega)
  obtain ⟨op, hop⟩ := opcodeAt_of_pos (e := e) (by omega)
  have hgoal : bsdRead ctx x (e.take n) n
      = (bsdContext ctxid ctx { x with type := .null } (e.take n) n).bind
          fun r => bsdReadDone ctx.stacksize r.1 r.2.1 r.2.2 := by
    simp only [bsdRead, if_neg hmissing, hctxid, bind_eq_bind, bind_some]
  rw [hgoal, waits_bsdReadDone]
  simp only [Resumable, hctxid, hop]
  by_cases hnested : nestedOpcode ctxid op
  · simp only [hnested, not_true_eq_false, false_or]
    exact (bsdContext_nested _ _ _ (by simp) hop hnested hread herr rfl hn hlt).iff
  simp only [hnested, not_false_eq_true, true_or, iff_true]
  obtain ⟨-, hcases⟩ := bsdContext_cut (n := n) _ _ _ (by omega) hn hop hnested _ hread herr
  rcases hcases with ⟨hle, -⟩ | ⟨-, hwait⟩
  · simp only at hle
    omega
  · exact hwait

/-- Without any byte, `bsd_read` waits for the item. -/
theorem bsdRead_nothing [CFloat] (h : bsdRead ctx x e (-2) = some ((e.length : Int), x', ctx'))
    (hok : x'.type ≠ .error) (hpos : 0 < e.length) :
    ∃ v x'', bsdRead ctx x [] 0 = some (-v, x'', ctx) ∧ 0 < v := by
  obtain ⟨ctxid, x'', c, hctxid, hmissing, herr, hread⟩ := bsdRead_inv h hok hpos
  have hwaits : Waits 0 9 ctx (bsdContext ctxid ctx { x with type := .null } [] 0) := by
    cases ctxid with
    | unknown _ | object =>
      have hzero : (0 : Int) = e.length := congrArg Prod.fst (Option.some.inj hread)
      omega
    | global | unsignedOrString | number | listOrMap =>
      exact ⟨1, _, rfl, by omega, by omega⟩
    | int32 | float => exact ⟨4, _, rfl, by omega, by omega⟩
    | double => exact ⟨8, _, rfl, by omega, by omega⟩
    | chunked => exact ⟨2, _, rfl, by omega, by omega⟩
  have hgoal : bsdRead ctx x [] 0
      = (bsdContext ctxid ctx { x with type := .null } [] 0).bind
          fun r => bsdReadDone ctx.stacksize r.1 r.2.1 r.2.2 := by
    simp only [bsdRead, if_neg hmissing, hctxid, bind_eq_bind, bind_some]
  obtain ⟨v, x₀, hr, hv, -⟩ := (waits_bsdReadDone ctx.stacksize 9 _).mpr hwaits
  exact ⟨v, x₀, hgoal.trans hr, by omega⟩

end

/-! ## Streams in fragments -/

def streamBytes (es : List (DCtx × List UInt8)) : List UInt8 := (es.map (·.2)).flatten

/-- A position in a stream where it may be cut: between two items, or where the item
it falls in is waited for. -/
def SafeCut : List (DCtx × List UInt8) → Nat → Prop
  | [], _ => True
  | (d, e) :: es, n =>
    if n < e.length then n = 0 ∨ Resumable d e n else SafeCut es (n - e.length)

theorem safeCut_of_ge {es : List (DCtx × List UInt8)} {n : Nat} (hn : (streamBytes es).length ≤ n) :
    SafeCut es n := by
  induction es generalizing n with
  | nil => trivial
  | cons e es ih =>
    have hlen : (streamBytes (e :: es)).length = e.2.length + (streamBytes es).length := by
      simp [streamBytes]
    rw [SafeCut, if_neg (by omega)]
    exact ih (by omega)

section
variable [CFloat]

/-- In the context `d`, `e` is a valid encoding of `item`: it is read up to its last
byte when the length is not limited. -/
def Encodes (d : DCtx) (e : List UInt8) (item : Item) (d' : DCtx) : Prop :=
  ∀ x, ∃ x', bsdRead d x e (-2) = some ((e.length : Int), x', d') ∧ x'.item = some item

inductive Stream : DCtx → List (DCtx × List UInt8) → List Item → DCtx → Prop
  | nil (d : DCtx) : Stream d [] [] d
  | cons {d d' d'' : DCtx} {e : List UInt8} {item : Item} {es : List (DCtx × List UInt8)}
      {items : List Item} (hmore : e ≠ [] ∨ d.stacksize ≠ 0) (hitem : Encodes d e item d')
      (hrest : Stream d' es items d'') : Stream d ((d, e) :: es) (item :: items) d''

/-- The caller that keeps what was not consumed, and waits for the next fragment
whenever the decoder asks for more. -/
def feed : Nat → DCtx → Data → List UInt8 → List (List UInt8) → Option (List Item × DCtx)
  | 0, _, _, _, _ => none
  | fuel + 1, ctx, x, buf, frags =>
    if buf = [] ∧ frags = [] ∧ ctx.stacksize = 0 then some ([], ctx)
    else do
      let (nread, x, ctx) ← bsdRead ctx x buf buf.length
      if nread < 0 then
        match frags with
        | [] => none
        | frag :: frags => feed fuel ctx x (buf ++ frag) frags
      else do
        let item ← x.item
        let (items, ctx) ← feed fuel ctx x (buf.drop nread.toNat) frags
        some (item :: items, ctx)

theorem feed_stream {d d' : DCtx} {es : List (DCtx × List UInt8)} {items : List Item}
    (h : Stream d es items d') (hend : d'.stacksize = 0) {buf : List UInt8}
    {frags : List (List UInt8)} (hbytes : buf ++ frags.flatten = streamBytes es)
    (hfrags : ∀ frag ∈ frags, frag ≠ [])
    (hsafe : ∀ i, SafeCut es (buf ++ (frags.take i).flatten).length) {fuel : Nat}
    (hfuel : es.length + frags.length < fuel) (x : Data) :
    feed fuel d x buf frags = some (items, d') := by
  induction fuel generalizing d es items buf frags x with
  | zero => omega
  | succ fuel ih =>
    cases h with
    | nil d =>
      obtain ⟨rfl, hnone⟩ := append_eq_nil_iff.mp hbytes
      have hfrags : frags = [] := by
        cases frags with
        | nil => rfl
        | cons frag frags =>
          exact absurd (append_eq_nil_iff.mp hnone).1 (hfrags frag (mem_cons_self ..))
      rw [feed, if_pos ⟨rfl, hfrags, hend⟩]
    | @cons d d₁ d' e item es items hmore hitem hrest =>
      obtain ⟨x₁, hread, hx₁⟩ := hitem x
      have hbytes' : buf ++ frags.flatten = e ++ streamBytes es := hbytes
      have hgo : ¬ (buf = [] ∧ frags = [] ∧ d.stacksize = 0) := by
        rintro ⟨rfl, rfl, hsize⟩
        rcases hmore with hne | hne
        · exact hne (append_eq_nil_iff.mp hbytes'.symm).1
        · exact hne hsize
      unfold feed
      rw [if_neg hgo]
      by_cases hall : e.length ≤ buf.length
      · -- The item is complete.
        obtain ⟨buf', rfl, hrest'⟩ : ∃ buf', buf = e ++ buf'
            ∧ buf' ++ frags.flatten = streamBytes es := by
          rcases append_eq_append_iff.mp hbytes' with ⟨l, rfl, hl⟩ | ⟨l, rfl, hl⟩
          · have hnil : l = [] := eq_nil_of_length_eq_zero (by
              simp only [length_append] at hall
              omega)
            subst hnil
            exact ⟨[], by simp, by simpa using hl⟩
          · exact ⟨l, rfl, hl.symm⟩
        have hchecked : bsdRead d x (e ++ buf') ((e ++ buf').length : Int)
            = some ((e.length : Int), x₁, d₁) :=
          bsdRead_unchecked (by omega) hread buf' (by simp)
        have hpos : ¬ (e.length : Int) < 0 := by omega
        have hsafe' (i : Nat) : SafeCut es (buf' ++ (frags.take i).flatten).length := by
          have := hsafe i
          simp only [SafeCut, append_assoc, length_append] at this ⊢
          rw [if_neg (by omega)] at this
          rwa [Nat.add_sub_cancel_left] at this
        have hnext := ih hrest hrest' hfrags hsafe'
          (by simp only [length_cons] at hfuel; omega) x₁
        simp only [hchecked, bind_eq_bind, bind_some, if_neg hpos, hx₁,
          Int.toNat_natCast, drop_left, hnext]
      · -- The end of the item is in a later fragment.
        have hbuf : buf = e.take buf.length := by
          have := congrArg (List.take buf.length) hbytes'
          rw [take_left, take_append_of_le_length (by omega)] at this
          exact this
        obtain ⟨v, x₂, hwait, hv⟩ : ∃ v x₂, bsdRead d x buf buf.length = some (-v, x₂, d)
            ∧ 0 < v := by
          rcases Nat.eq_zero_or_pos buf.length with hzero | hpos
          · obtain rfl := eq_nil_of_length_eq_zero hzero
            exact bsdRead_nothing hread (Data.type_ne_error hx₁)
              (length_pos_iff.mpr (by simpa using hall))
          have hcut := hsafe 0
          simp only [take_zero, flatten_nil, append_nil, SafeCut] at hcut
          rw [if_pos (by omega)] at hcut
          have hresumable : Resumable d e buf.length := by
            rcases hcut with hcut | hcut
            · omega
            · exact hcut
          have hiff := bsdRead_take hread (Data.type_ne_error hx₁) hpos (by omega)
          rw [← hbuf] at hiff
          obtain ⟨v, x₂, hwait, hv, -⟩ := hiff.mpr hresumable
          exact ⟨v, x₂, hwait, by omega⟩
        have hneg : -v < 0 := by omega
        cases frags with
        | nil =>
          have hlen := congrArg List.length hbytes'
          simp only [flatten_nil, append_nil, length_append] at hlen
          omega
        | cons frag frags =>
          simp only [hwait, bind_eq_bind, bind_some, if_pos hneg]
          refine ih (.cons hmore hitem hrest) ?_ (fun f hf => hfrags f (mem_cons_of_mem _ hf))
            (fun i => ?_) ?_ x₂
          · rw [← hbytes, flatten_cons, append_assoc]
          · have := hsafe (i + 1)
            rwa [take_succ_cons, flatten_cons, ← append_assoc] at this
          · simp only [length_cons] at hfuel ⊢
            omega

/-- An item is read in full whatever follows it; its beginnings are waited for, with
the context as it was, exactly at the resumable cuts.  A stream that is only cut at
these yields the items it yields in one piece. -/
theorem bsdRead_fragments :
    (∀ (d : DCtx) (e : List UInt8) (item : Item) (d' : DCtx), Encodes d e item d' → ∀ x : Data,
      (∀ rest : List UInt8, ∃ x', bsdRead d x (e ++ rest) (e ++ rest).length
          = some ((e.length : Int), x', d') ∧ x'.item = some item)
        ∧ ∀ n : Nat, 1 ≤ n → n < e.length →
          (Waits n e.length d (bsdRead d x (e.take n) n) ↔ Resumable d e n))
      ∧ ∀ (d : DCtx) (es : List (DCtx × List UInt8)) (items : List Item) (d' : DCtx),
        Stream d es items d' → d'.stacksize = 0 →
        ∀ (x : Data) (frags : List (List UInt8)), frags.flatten = streamBytes es →
          (∀ frag ∈ frags, frag ≠ []) → (∀ i, SafeCut es (frags.take i).flatten.length) →
          ∀ fuel : Nat, es.length + frags.length < fuel →
            feed fuel d x [] frags = some (items, d')
              ∧ feed fuel d x (streamBytes es) [] = some (items, d') := by
  constructor
  · intro d e item d' hitem x
    obtain ⟨x', hread, hx'⟩ := hitem x
    constructor
    · intro rest
      exact ⟨x', bsdRead_unchecked (by omega) hread rest (by simp), hx'⟩
    · intro n hn hlt
      exact bsdRead_take hread (Data.type_ne_error hx') hn hlt
  · intro d es items d' h hend x frags hbytes hfrags hsafe fuel hfuel
    constructor
    · exact feed_stream h hend hbytes hfrags hsafe hfuel x
    · refine feed_stream h hend (append_nil _) (by simp) (fun i => ?_) ?_ x
      · exact safeCut_of_ge (by simp)
      · simp only [length_nil]
        omega

end

theorem bsdRead_fragments_string :
    ∃ d, @feed oneAndAHalf 9 (bsdInit blankStack) blankData [] [[0x05], [0x61], [0x62]]
        = some ([.string [0x61, 0x62]], d) := by
  let _ := oneAndAHalf
  let d : DCtx := bsdInit blankStack
  obtain ⟨d', hitem, hsize⟩ : ∃ d', Encodes d [0x05, 0x61, 0x62] (.string [0x61, 0x62]) d'
      ∧ d'.stacksize = 0 := ⟨_, fun x => ⟨_, rfl, rfl⟩, rfl⟩
  have hstream : Stream d [(d, [0x05, 0x61, 0x62])] [.string [0x61, 0x62]] d' :=
    .cons (.inl (by decide)) hitem (.nil d')
  have hstring : ¬ nestedOpcode .global 0x05 := by
    unfold nestedOpcode
    decide
  have hresumable (n : Nat) : Resumable d [0x05, 0x61, 0x62] n := .inl hstring
  have hsafe (i : Nat) : SafeCut [(d, [0x05, 0x61, 0x62])] i := by
    unfold SafeCut
    split
    · exact .inr (hresumable i)
    · trivial
  exact ⟨d', (bsdRead_fragments.2 d _ _ d' hstream hsize blankData [[0x05], [0x61], [0x62]] rfl
    (by decide) (fun i => hsafe _) 9 (by decide)).1⟩

/-- The first byte of a list of ten elements makes the decoder read the second one,
which is not there yet; the first byte of a class definition is an error. -/
theorem bsdRead_long_list_overread :
    let _ := oneAndAHalf
    (∃ d', Encodes (bsdInit blankStack) [0x34, 0x3b] (.list 10) d')
      ∧ (∀ x, bsdRead (bsdInit blankStack) x [0x34] 1 = none)
      ∧ (∃ d', Encodes (bsdInit blankStack) [0x72, 0x3b, 0x3b]
          (.classdef { classid := 0, classname := none, mode := .managed, fields := [] }) d')
      ∧ ∀ x, ∃ x', bsdRead (bsdInit blankStack) x [0x72] 1 = some (0, x', bsdInit blankStack)
        ∧ x'.type = .error := by
  intro _
  refine ⟨⟨_, fun x => ⟨_, rfl, rfl⟩⟩, fun x => rfl, ⟨_, fun x => ⟨_, rfl, rfl⟩⟩, fun x => ?_⟩
  exact ⟨_, rfl, rfl⟩

end Mihini.Bysant
