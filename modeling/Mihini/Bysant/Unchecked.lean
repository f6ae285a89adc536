import Mihini.Bysant.Deserializer

/-!
# Decoding with enough bytes

With a negative length the decoding routines make no length check, so what they
return only depends on the bytes they read.  Everything they decode in this mode
they decode in the same way with a length, as long as the bytes are there, and
whatever stands behind them: `bsdRead_unchecked`.
-/

namespace Mihini.Bysant

open Lib.Bytes Option

/-- `a` is a decoding of `buf` without a length; `a'` is the same decoding of
`buf` followed by `rest`, with a length.  What is returned is at least `lo`. -/
def LiftTo (lo : Int) (buf : List UInt8) (a : Option DRes)
    (a' : List UInt8 → Int → Option DRes) : Prop :=
  ∀ r, a = some r →
    (lo ≤ r.1 ∧ r.1 ≤ buf.length)
      ∧ ∀ rest (len : Int), buf.length ≤ len → a' rest len = some r

namespace LiftTo

variable {buf : List UInt8} {a b : Option DRes} {a' b' : List UInt8 → Int → Option DRes}
  {x : Data} {ctx : DCtx} {u lo : Int}

theorem pure {n : Int} (hlo : lo ≤ n) (hn : n ≤ buf.length) :
    LiftTo lo buf (some (n, x, ctx)) fun _ _ => some (n, x, ctx) := by
  rintro r ⟨⟩
  exact ⟨⟨hlo, hn⟩, fun _ _ _ => rfl⟩

theorem error (hlo : lo ≤ 0) (cause : BsdStatus) :
    LiftTo lo buf (bsdError x ctx cause) fun _ _ => bsdError x ctx cause :=
  pure hlo (Int.natCast_nonneg _)

theorem none : LiftTo lo buf Option.none a' := fun _ h => nomatch h

theorem ite (p : Prop) [Decidable p] (ha : LiftTo lo buf a a') (hb : LiftTo lo buf b b') :
    LiftTo lo buf (if p then a else b) fun rest len => if p then a' rest len else b' rest len := by
  intro r h
  split at h
  · next hp =>
    obtain ⟨hn, hlift⟩ := ha r h
    refine ⟨hn, fun rest len hlen => ?_⟩
    simp only [if_pos hp]
    exact hlift rest len hlen
  · next hp =>
    obtain ⟨hn, hlift⟩ := hb r h
    refine ⟨hn, fun rest len hlen => ?_⟩
    simp only [if_neg hp]
    exact hlift rest len hlen

theorem bind {α : Type} (o : Option α) {k : α → Option DRes}
    {k' : α → List UInt8 → Int → Option DRes} (h : ∀ v, o = some v → LiftTo lo buf (k v) (k' v)) :
    LiftTo lo buf (o.bind k) fun rest len => o.bind fun v => k' v rest len := by
  cases o with
  | none => exact none
  | some v => exact h v rfl

/-- A value read from the buffer, which is still there when more bytes follow. -/
theorem read {α : Type} (get : List UInt8 → Option α) {k : α → Option DRes}
    {k' : α → List UInt8 → Int → Option DRes}
    (hget : ∀ v rest, get buf = some v → get (buf ++ rest) = some v)
    (h : ∀ v, get buf = some v → LiftTo lo buf (k v) (k' v)) :
    LiftTo lo buf ((get buf).bind k) fun rest len => (get (buf ++ rest)).bind fun v => k' v rest len := by
  intro r hr
  obtain ⟨v, hv, hr⟩ := bind_eq_some_iff.mp hr
  obtain ⟨hn, hlift⟩ := h v hv r hr
  refine ⟨hn, fun rest len hlen => ?_⟩
  simp only [hget v rest hv, bind_some]
  exact hlift rest len hlen

theorem checkLength {n : Int} (hu : u < 0) (hn : ∀ r, a = some r → n ≤ buf.length)
    (h : LiftTo lo buf a a') :
    LiftTo lo buf (checkLength u n x ctx a) fun rest len => checkLength len n x ctx (a' rest len) := by
  intro r hr
  have hneg : ¬ (0 ≤ u ∧ u < n) := by omega
  simp only [Bysant.checkLength, if_neg hneg] at hr
  obtain ⟨hle, hlift⟩ := h r hr
  refine ⟨hle, fun rest len hlen => ?_⟩
  have hn := hn r hr
  have henough : ¬ (0 ≤ len ∧ len < n) := by omega
  simp only [Bysant.checkLength, if_neg henough]
  exact hlift rest len hlen

theorem checkDecode (hlo : lo ≤ 0) {k : Data → DCtx → Option DRes}
    {k' : Data → DCtx → List UInt8 → Int → Option DRes} (ha : LiftTo lo buf a a')
    (hk : ∀ x ctx, LiftTo lo buf (k x ctx) (k' x ctx)) :
    LiftTo lo buf (checkDecode a k)
      fun rest len => checkDecode (a' rest len) fun x ctx => k' x ctx rest len := by
  intro r hr
  obtain ⟨⟨n, x, ctx⟩, hn, hr⟩ := bind_eq_some_iff.mp hr
  obtain ⟨hle, hlift⟩ := ha _ hn
  dsimp only at hr
  by_cases h0 : n ≠ 0
  · rw [if_pos h0] at hr
    cases hr
    refine ⟨hle, fun rest len hlen => ?_⟩
    simp [Bysant.checkDecode, hlift rest len hlen, h0]
  · rw [if_neg h0] at hr
    by_cases herr : x.type = .error
    · rw [if_pos herr] at hr
      cases hr
      refine ⟨⟨hlo, Int.natCast_nonneg _⟩, fun rest len hlen => ?_⟩
      simp [Bysant.checkDecode, hlift rest len hlen, h0, herr]
    · rw [if_neg herr] at hr
      obtain ⟨hle', hlift'⟩ := hk x ctx r hr
      refine ⟨hle', fun rest len hlen => ?_⟩
      simp only [Bysant.checkDecode, hlift rest len hlen, bind_eq_bind, bind_some,
        if_neg h0, if_neg herr]
      exact hlift' rest len hlen

theorem checkOpen (hlo : lo ≤ 0) (o : Option (BsdStatus × DCtx)) {k : DCtx → Option DRes}
    {k' : DCtx → List UInt8 → Int → Option DRes} (hk : ∀ ctx, LiftTo lo buf (k ctx) (k' ctx)) :
    LiftTo lo buf (checkOpen x o k) fun rest len => checkOpen x o fun ctx => k' ctx rest len :=
  bind o fun (_, ctx) _ => ite _ (hk ctx) (error hlo _)

/-- An inner decoding of the bytes from `k` on. -/
theorem checkSubdecode (k : Nat) {nread : Int} (g : List UInt8 → Int → Option DRes)
    {expected : DataType} (adj : Int → Int) {c : Int → Data → DCtx → Option DRes}
    {c' : Int → Data → DCtx → List UInt8 → Int → Option DRes}
    (hk : k ≤ buf.length) (hnread : nread = k) (hlo : lo ≤ -nread)
    (hg : LiftTo 0 (buf.drop k) (g (buf.drop k) (adj u)) fun rest len => g (buf.drop k ++ rest) len)
    (hadj : ∀ len : Int, buf.length ≤ len → (buf.length : Int) - k ≤ adj len)
    (hc : ∀ n x ctx, nread < n → n ≤ buf.length → LiftTo lo buf (c n x ctx) (c' n x ctx)) :
    LiftTo lo buf (checkSubdecode nread (g (buf.drop k) (adj u)) expected c) fun rest len =>
      checkSubdecode nread (g ((buf ++ rest).drop k) (adj len)) expected
        fun n x ctx => c' n x ctx rest len := by
  intro r hr
  obtain ⟨⟨sub, x, ctx⟩, hsub, hr⟩ := bind_eq_some_iff.mp hr
  obtain ⟨⟨hnonneg, hle⟩, hlift⟩ := hg _ hsub
  dsimp only at hr hnonneg hle
  have hdrop (rest : List UInt8) : (buf ++ rest).drop k = buf.drop k ++ rest :=
    List.drop_append_of_le_length hk
  have hsub' (rest : List UInt8) (len : Int) (hlen : buf.length ≤ len) :
      g ((buf ++ rest).drop k) (adj len) = some (sub, x, ctx) := by
    rw [hdrop]
    refine hlift rest (adj len) ?_
    have := hadj len hlen
    rw [List.length_drop]
    omega
  have hle' : sub ≤ buf.length - k := by
    rw [List.length_drop] at hle
    omega
  by_cases hpos : sub ≤ 0
  · rw [if_pos hpos] at hr
    cases hr
    refine ⟨⟨?_, ?_⟩, fun rest len hlen => ?_⟩
    · show lo ≤ -nread - sub
      omega
    · show -nread - sub ≤ buf.length
      omega
    simp [Bysant.checkSubdecode, hsub' rest len hlen, hpos]
  · rw [if_neg hpos] at hr
    by_cases htype : x.type ≠ expected
    · rw [if_pos htype] at hr
      cases hr
      refine ⟨⟨by show lo ≤ 0; omega, Int.natCast_nonneg _⟩, fun rest len hlen => ?_⟩
      simp [Bysant.checkSubdecode, hsub' rest len hlen, hpos, htype, bsdError]
    · rw [if_neg htype] at hr
      obtain ⟨hle'', hlift''⟩ := hc _ _ _ (by omega) (by omega) r hr
      refine ⟨hle'', fun rest len hlen => ?_⟩
      simp only [Bysant.checkSubdecode, hsub' rest len hlen, bind_eq_bind, bind_some,
        if_neg hpos, if_neg htype]
      exact hlift'' rest len hlen

theorem mono {lo' : Int} (hlo : lo' ≤ lo) (h : LiftTo lo buf a a') : LiftTo lo' buf a a' := by
  intro r hr
  obtain ⟨⟨hge, hle⟩, hlift⟩ := h r hr
  exact ⟨⟨Int.le_trans hlo hge, hle⟩, hlift⟩

/-! Reading from the buffer -/

theorem opcode {k : Int → Option DRes} {k' : Int → List UInt8 → Int → Option DRes}
    (h : ∀ op, 1 ≤ buf.length → LiftTo lo buf (k op) (k' op)) :
    LiftTo lo buf ((opcodeAt buf).bind k)
      fun rest len => (opcodeAt (buf ++ rest)).bind fun op => k' op rest len := by
  refine read opcodeAt (fun v rest hv => ?_) (fun v hv => h v ?_)
  · cases buf with
    | nil => cases hv
    | cons b bs => exact hv
  · cases buf with
    | nil => cases hv
    | cons b bs => simp

theorem bytesAt {n : Nat} {k : List UInt8 → Option DRes}
    {k' : List UInt8 → List UInt8 → Int → Option DRes}
    (h : n ≤ buf.length → LiftTo lo buf (k (buf.take n)) (k' (buf.take n))) :
    LiftTo lo buf ((bytesAt buf n).bind k)
      fun rest len => (bytesAt (buf ++ rest) n).bind fun v => k' v rest len := by
  intro r hr
  by_cases hn : n ≤ buf.length
  · have hn' (rest : List UInt8) : n ≤ (buf ++ rest).length := by
      rw [List.length_append]
      omega
    simp only [Bysant.bytesAt, if_pos hn, bind_some] at hr
    obtain ⟨hbounds, hlift⟩ := h hn r hr
    refine ⟨hbounds, fun rest len hlen => ?_⟩
    simp only [Bysant.bytesAt, if_pos (hn' rest), bind_some,
      List.take_append_of_le_length hn]
    exact hlift rest len hlen
  · simp only [Bysant.bytesAt, if_neg hn] at hr
    cases hr

theorem byteAt {i : Nat} {k : UInt8 → Option DRes} {k' : UInt8 → List UInt8 → Int → Option DRes}
    (h : ∀ b, i < buf.length → LiftTo lo buf (k b) (k' b)) :
    LiftTo lo buf ((buf[i]?).bind k)
      fun rest len => ((buf ++ rest)[i]?).bind fun v => k' v rest len := by
  refine read (fun buf => buf[i]?) (fun v rest hv => ?_) (fun v hv => h v ?_)
  · obtain ⟨hi, -⟩ := List.getElem?_eq_some_iff.mp hv
    show (buf ++ rest)[i]? = some v
    rw [List.getElem?_append_left hi]
    exact hv
  · exact (List.getElem?_eq_some_iff.mp hv).1

theorem fixed {n : Nat} {k : List UInt8 → Data} (hu : u < 0) (hlo : lo ≤ 0) :
    LiftTo lo buf (decodeFixed ctx x buf u n k)
      fun rest len => decodeFixed ctx x (buf ++ rest) len n k := by
  refine checkLength hu (fun r hr => ?_) (bytesAt fun hn => pure (by omega) (by omega))
  simp only [Bysant.bytesAt] at hr
  split at hr
  · next hn => omega
  · cases hr

end LiftTo

/-! ## The decoding routines -/

section
variable {buf : List UInt8} {u : Int}

theorem decodeItem_lift (hu : u < 0) (ctx : DCtx) (x : Data) (n : Nat) (k : Int → Int) :
    LiftTo 0 buf (decodeItem ctx x buf u n k)
      fun rest len => decodeItem ctx x (buf ++ rest) len n k :=
  .fixed hu (Int.le_refl 0)

theorem decodeText_lift (hu : u < 0) (ctx : DCtx) (x : Data) (header : Nat)
    (len : List UInt8 → Nat) :
    LiftTo 0 buf (decodeText ctx x buf u header len)
      fun rest length => decodeText ctx x (buf ++ rest) length header len := by
  unfold decodeText
  refine .checkLength hu (fun r hr => ?_) (.bytesAt fun _ => .fixed hu (Int.le_refl 0))
  simp only [bytesAt] at hr
  split at hr
  · next hn => omega
  · cases hr

theorem decodeInteger_lift (hu : u < 0) (ctx : DCtx) (x : Data) (enc : IntegerEncoding) :
    LiftTo 0 buf (decodeInteger ctx x buf u enc)
      fun rest len => decodeInteger ctx x (buf ++ rest) len enc := by
  unfold decodeInteger
  refine .opcode fun op hlen => .checkLength hu (fun _ _ => by omega) ?_
  refine .ite _ (decodeItem_lift hu ctx _ _ _) <| .ite _ (decodeItem_lift hu ctx _ _ _) <|
    .ite _ (decodeItem_lift hu ctx _ _ _) <| .ite _ (decodeItem_lift hu ctx _ _ _) <|
    .ite _ (decodeItem_lift hu ctx _ _ _) <| .ite _ (decodeItem_lift hu ctx _ _ _) <|
    .ite _ (decodeItem_lift hu ctx _ _ _) <| .ite _ (decodeItem_lift hu ctx _ _ _) <|
    .ite _ (decodeItem_lift hu ctx _ _ _) ?_
  exact .pure (Int.le_refl 0) (Int.natCast_nonneg _)

theorem decodeString_lift (hu : u < 0) (ctx : DCtx) (x : Data) (enc : StringEncoding) :
    LiftTo 0 buf (decodeString ctx x buf u enc)
      fun rest len => decodeString ctx x (buf ++ rest) len enc := by
  unfold decodeString
  refine .opcode fun op hlen => .checkLength hu (fun _ _ => by omega) ?_
  exact .ite _ (decodeText_lift hu ctx _ _ _) <| .ite _ (decodeText_lift hu ctx _ _ _) <|
    .ite _ (decodeText_lift hu ctx _ _ _) <|
    .ite _ (.checkOpen (Int.le_refl 0) _ fun _ => .pure (by omega) (by omega)) <|
    .pure (Int.le_refl 0) (Int.natCast_nonneg _)

variable {lo n : Int}

theorem decodedNull_lift (hlo : lo ≤ n) (hn : n ≤ buf.length) (ctx : DCtx) (x : Data) :
    LiftTo lo buf (decodedNull n ctx x) fun _ _ => decodedNull n ctx x :=
  .bind _ fun _ _ => .pure hlo hn

theorem decodeUnsigned_lift (hu : u < 0) (hlen : 1 ≤ buf.length) (op : Int) (ctx : DCtx)
    (x : Data) :
    LiftTo 0 buf (decodeUnsigned op ctx x buf u)
      fun rest len => decodeUnsigned op ctx x (buf ++ rest) len := by
  unfold decodeUnsigned
  exact .ite _ (decodeItem_lift hu ctx _ _ _) <| .ite _ (decodeItem_lift hu ctx _ _ _) <|
    .ite _ (decodeItem_lift hu ctx _ _ _) <| .ite _ (decodeItem_lift hu ctx _ _ _) <|
    .ite _ (decodeItem_lift hu ctx _ _ _) <|
    .ite _ (decodedNull_lift (by omega) (by omega) ctx _) (.error (Int.le_refl 0) _)

theorem bsdUis_lift (hu : u < 0) (ctx : DCtx) (x : Data) :
    LiftTo 0 buf (bsdUis ctx x buf u) fun rest len => bsdUis ctx x (buf ++ rest) len := by
  unfold bsdUis
  refine .checkLength hu (fun r hr => ?_) (.opcode fun op hlen => ?_)
  · obtain ⟨op, hop, -⟩ := bind_eq_some_iff.mp hr
    cases buf with
    | nil => cases hop
    | cons b bs => simp
  · exact .checkDecode (Int.le_refl 0) (decodeString_lift hu ctx x uisString) fun x ctx =>
      decodeUnsigned_lift hu hlen op ctx x

theorem openFixed_lift (hlo : lo ≤ 0) (hpos : 0 ≤ n) (hn : n ≤ buf.length)
    (ctx : DCtx) (x : Data) (enc : CollEncoding) (ctxid : CtxId) (len : Nat) :
    LiftTo lo buf (openFixed n ctx x enc ctxid len) fun _ _ => openFixed n ctx x enc ctxid len := by
  unfold openFixed
  exact .checkOpen hlo _ fun _ => .pure (by omega) hn

theorem openVariable_lift (hlo : lo ≤ 0) (hpos : 0 ≤ n) (hn : n ≤ buf.length)
    (ctx : DCtx) (x : Data) (enc : CollEncoding) (ctxid : CtxId) :
    LiftTo lo buf (openVariable n ctx x enc ctxid) fun _ _ => openVariable n ctx x enc ctxid := by
  unfold openVariable
  exact .checkOpen hlo _ fun _ => .pure (by omega) hn

/-- A check for one byte more than those read, and that byte. -/
theorem byteAt_lift {lo : Int} (nread : Int) {ctx : DCtx} {x : Data} {k : UInt8 → Option DRes}
    {k' : UInt8 → List UInt8 → Int → Option DRes} (hu : u < 0) (hnread : 0 ≤ nread)
    (h : ∀ b, nread < buf.length → LiftTo lo buf (k b) (k' b)) :
    LiftTo lo buf (checkLength u (nread + 1) x ctx ((buf[nread.toNat]?).bind k)) fun rest len =>
      checkLength len (nread + 1) x ctx
        (((buf ++ rest)[nread.toNat]?).bind fun b => k' b rest len) := by
  refine .checkLength hu (fun r hr => ?_) (.byteAt fun b hb => h b (by omega))
  obtain ⟨b, hb, -⟩ := bind_eq_some_iff.mp hr
  have := (List.getElem?_eq_some_iff.mp hb).1
  omega

theorem decodeCollection_lift (hu : u < -1) (ctx : DCtx) (x : Data) (enc : CollEncoding) :
    LiftTo (-1) buf (decodeCollection ctx x buf u enc)
      fun rest len => decodeCollection ctx x (buf ++ rest) len enc := by
  have hu0 : u < 0 := by omega
  have hlo : (-1 : Int) ≤ 0 := by omega
  unfold decodeCollection
  refine .opcode fun op hlen => .checkLength hu0 (fun _ _ => by omega) ?_
  have hlen1 : (1 : Int) ≤ buf.length := by omega
  have huis : LiftTo 0 (buf.drop 1) (bsdUis ctx x (buf.drop 1) (u + 1))
      fun rest len => bsdUis ctx x (buf.drop 1 ++ rest) len := bsdUis_lift (by omega) ctx x
  have hadj (len : Int) (h : (buf.length : Int) ≤ len) : (buf.length : Int) - (1 : Nat) ≤ len + 1 := by
    omega
  refine .ite _ (openFixed_lift hlo (by omega) hlen1 ctx x enc _ _) ?_
  refine .ite _ (openFixed_lift hlo (by omega) hlen1 ctx x enc _ _) ?_
  refine .ite _ ?_ ?_
  · exact .checkSubdecode 1 (bsdUis ctx x) (· + 1) hlen rfl (by omega) huis hadj
      fun n x ctx hpos hn => .bind _ fun i _ => openFixed_lift hlo (by omega) hn ctx x enc _ _
  refine .ite _ (openVariable_lift hlo (by omega) hlen1 ctx x enc _) ?_
  refine .ite _ ?_ ?_
  · exact byteAt_lift 1 hu0 (by omega) fun b hb =>
      openFixed_lift hlo (by omega) (by omega) ctx x enc _ _
  refine .ite _ ?_ ?_
  · refine .checkSubdecode 1 (bsdUis ctx x) (· + 1) hlen rfl (by omega) huis hadj
      fun n x ctx hpos hn => .checkLength hu0 (fun r hr => ?_) (.bind _ fun i _ =>
        .byteAt fun b hb => openFixed_lift hlo (by omega) (by omega) ctx x enc _ _)
    obtain ⟨i, -, hr⟩ := bind_eq_some_iff.mp hr
    obtain ⟨b, hb, -⟩ := bind_eq_some_iff.mp hr
    have := (List.getElem?_eq_some_iff.mp hb).1
    omega
  refine .ite _ ?_ (.pure (by omega) (by omega))
  exact byteAt_lift 1 hu0 (by omega) fun b hb =>
    openVariable_lift hlo (by omega) (by omega) ctx x enc _

/-- An inner decoding at `nread` in the code that takes `length - nread`. -/
theorem subdecode_lift {lo nread : Int} {ctx : DCtx} {x : Data} {expected : DataType}
    {c : Int → Data → DCtx → Option DRes}
    {c' : Int → Data → DCtx → List UInt8 → Int → Option DRes} (hu : u < 0) (hnread : 0 ≤ nread)
    (hle : nread ≤ buf.length) (hlo : lo ≤ -nread)
    (hc : ∀ n x ctx, nread < n → n ≤ buf.length → LiftTo lo buf (c n x ctx) (c' n x ctx)) :
    LiftTo lo buf
      (checkSubdecode nread (bsdUis ctx x (buf.drop nread.toNat) (u - nread)) expected c)
      fun rest len => checkSubdecode nread
        (bsdUis ctx x ((buf ++ rest).drop nread.toNat) (len - nread)) expected
          fun n x ctx => c' n x ctx rest len :=
  .checkSubdecode nread.toNat (bsdUis ctx x) (· - nread) (by omega) (by omega) hlo
    (bsdUis_lift (by omega) ctx x) (fun len h => by omega) hc

theorem decodeFields_lift (hu : u < 0) (named : Bool)
    {k : Int → Data → DCtx → List BsField → Option DRes}
    (hk : ∀ (nread : Int) x ctx fields, 0 ≤ nread → nread ≤ buf.length →
      LiftTo (-buf.length) buf (k nread x ctx fields) fun _ _ => k nread x ctx fields)
    (n : Nat) (nread : Int) (x : Data) (ctx : DCtx) (fields : List BsField)
    (hnread : 0 ≤ nread) (hle : nread ≤ buf.length) :
    LiftTo (-buf.length) buf (decodeFields named buf u k n nread x ctx fields)
      fun rest len => decodeFields named (buf ++ rest) len k n nread x ctx fields := by
  induction n generalizing nread x ctx fields with
  | zero => exact hk nread x ctx fields hnread hle
  | succ n ih =>
    have hbyte (nread : Int) (x : Data) (ctx : DCtx) (name : Option (List UInt8))
        (hnread : 0 ≤ nread) :
        LiftTo (-buf.length) buf
          (checkLength u (nread + 1) x ctx ((buf[nread.toNat]?).bind fun b =>
            decodeFields named buf u k n (nread + 1) x ctx
              (fields ++ [{ name := name, ctxid := .ofByte b }])))
          fun rest len => checkLength len (nread + 1) x ctx
            (((buf ++ rest)[nread.toNat]?).bind fun b =>
              decodeFields named (buf ++ rest) len k n (nread + 1) x ctx
                (fields ++ [{ name := name, ctxid := .ofByte b }])) :=
      byteAt_lift nread hu hnread fun b hb => ih _ x ctx _ (by omega) (by omega)
    unfold decodeFields
    refine .ite _ ?_ (hbyte nread x ctx _ hnread)
    exact subdecode_lift hu hnread hle (by omega) fun n x ctx hpos hn =>
      .bind _ fun name _ => hbyte n x ctx _ (by omega)

theorem decodeClassFields_lift (hu : u < 0) (named : Bool) (classid nread : Int) (x : Data)
    (ctx : DCtx) (name : Option (List UInt8)) (hnread : 0 ≤ nread) (hle : nread ≤ buf.length) :
    LiftTo (-buf.length) buf (decodeClassFields named buf u classid nread x ctx name)
      fun rest len => decodeClassFields named (buf ++ rest) len classid nread x ctx name := by
  unfold decodeClassFields
  refine subdecode_lift hu hnread hle (by omega) fun n x ctx hpos hn => .bind _ fun nfields _ => ?_
  refine decodeFields_lift hu named (fun nread x ctx fields h0 hn => ?_) _ n x ctx [] (by omega) hn
  exact .bind _ fun ctx _ => .pure (by omega) hn

theorem decodeClass_lift (hu : u < 0) (ctx : DCtx) (x : Data) :
    LiftTo (-buf.length) buf (decodeClass ctx x buf u)
      fun rest len => decodeClass ctx x (buf ++ rest) len := by
  unfold decodeClass
  refine .checkLength hu (fun r hr => ?_) (.opcode fun op hlen => ?_)
  · obtain ⟨op, hop, -⟩ := bind_eq_some_iff.mp hr
    cases buf with
    | nil => cases hop
    | cons b bs => simp
  · refine .ite _ (.pure (by omega) (by omega)) ?_
    refine subdecode_lift hu (by omega) (by omega) (by omega) fun n x ctx hpos hn => ?_
    refine .bind _ fun classid _ => .ite _ ?_ ?_
    · exact subdecode_lift hu (by omega) hn (by omega) fun n x ctx hpos hn =>
        .bind _ fun name _ => decodeClassFields_lift hu _ _ n x ctx _ (by omega) hn
    · exact decodeClassFields_lift hu _ _ n x ctx _ (by omega) hn

theorem decodeFloats_lift [CFloat] {lo : Int} (hu : u < 0) (hlo : lo ≤ 0) (op : Int) (ctx : DCtx)
    (x : Data) :
    LiftTo lo buf (decodeFloats op ctx x buf u)
      fun rest len => decodeFloats op ctx x (buf ++ rest) len := by
  unfold decodeFloats
  exact .ite _ (.fixed hu hlo) (.ite _ (.fixed hu hlo) (.error hlo _))

theorem instantiate_lift (hlo : lo ≤ 0) (hpos : 0 ≤ n) (hn : n ≤ buf.length)
    (x : Data) (ctx : DCtx) (classid : UInt32) :
    LiftTo lo buf (instantiate n x ctx classid) fun _ _ => instantiate n x ctx classid :=
  .bind _ fun (_, _, _) _ => .ite _ (.pure (by omega) hn) (.error hlo _)

theorem decodeOther_lift [CFloat] (hu : u < 0) (hlen : 1 ≤ buf.length) (op : Int) (ctx : DCtx)
    (x : Data) :
    LiftTo (-buf.length) buf (decodeOther op ctx x buf u)
      fun rest len => decodeOther op ctx x (buf ++ rest) len := by
  have hlo : -(buf.length : Int) ≤ 0 := by omega
  unfold decodeOther
  refine .ite _ (instantiate_lift hlo (by omega) (by omega) x ctx _) ?_
  refine .ite _ (decodedNull_lift (by omega) (by omega) ctx x) ?_
  refine .ite _ (.pure (by omega) (by omega)) ?_
  refine .ite _ (.pure (by omega) (by omega)) ?_
  refine .ite _ ?_ (decodeFloats_lift hu hlo op ctx x)
  exact subdecode_lift hu (by omega) (by omega) (by omega) fun n x ctx hpos hn =>
    .bind _ fun i _ => instantiate_lift hlo (by omega) hn x ctx _

theorem bsdGlobal_lift [CFloat] (hu : u < -1) (ctx : DCtx) (x : Data) :
    LiftTo (-buf.length) buf (bsdGlobal ctx x buf u)
      fun rest len => bsdGlobal ctx x (buf ++ rest) len := by
  have hu0 : u < 0 := by omega
  have hlo : -(buf.length : Int) ≤ 0 := by omega
  unfold bsdGlobal
  refine .checkLength hu0 (fun r hr => ?_) (.opcode fun op hlen => ?_)
  · obtain ⟨op, hop, -⟩ := bind_eq_some_iff.mp hr
    cases buf with
    | nil => cases hop
    | cons b bs => simp
  · refine .checkDecode hlo (.mono hlo (decodeInteger_lift hu0 ctx x _)) fun x ctx => ?_
    refine .checkDecode hlo (.mono hlo (decodeString_lift hu0 ctx x _)) fun x ctx => ?_
    refine .checkDecode hlo (.mono (by omega) (decodeCollection_lift hu ctx x _)) fun x ctx => ?_
    refine .checkDecode hlo (.mono (by omega) (decodeCollection_lift hu ctx x _)) fun x ctx => ?_
    refine .checkDecode hlo (decodeClass_lift hu0 ctx x) fun x ctx => ?_
    exact decodeOther_lift hu0 hlen op ctx x

theorem bsdChunked_lift (hu : u < 0) (ctx : DCtx) (x : Data) :
    LiftTo 0 buf (bsdChunked ctx x buf u) fun rest len => bsdChunked ctx x (buf ++ rest) len := by
  unfold bsdChunked
  refine .checkLength hu (fun r hr => ?_) (.bytesAt fun hn => ?_)
  · simp only [bytesAt] at hr
    split at hr
    · next hn => omega
    · cases hr
  · exact .ite _ (.pure (by omega) (by omega)) (.fixed hu (Int.le_refl 0))

theorem bsdNumber_lift [CFloat] (hu : u < 0) (ctx : DCtx) (x : Data) :
    LiftTo 0 buf (bsdNumber ctx x buf u) fun rest len => bsdNumber ctx x (buf ++ rest) len := by
  unfold bsdNumber
  refine .checkLength hu (fun r hr => ?_) (.opcode fun op hlen => ?_)
  · obtain ⟨op, hop, -⟩ := bind_eq_some_iff.mp hr
    cases buf with
    | nil => cases hop
    | cons b bs => simp
  · refine .checkDecode (Int.le_refl 0) (decodeInteger_lift hu ctx x _) fun x ctx => ?_
    exact .ite _ (decodedNull_lift (by omega) (by omega) ctx x)
      (decodeFloats_lift hu (Int.le_refl 0) op ctx x)

theorem decodeEscaped_lift (hu : u < 0) (ctx : DCtx) (x : Data) (n : Nat) (escape : Int)
    (k : Int → Data) :
    LiftTo 0 buf (decodeEscaped ctx x buf u n escape k)
      fun rest len => decodeEscaped ctx x (buf ++ rest) len n escape k := by
  unfold decodeEscaped
  refine .checkLength hu (fun r hr => ?_) (.bytesAt fun hn => ?_)
  · simp only [bytesAt] at hr
    split at hr
    · next hn => omega
    · cases hr
  · refine .ite _ ?_ (.pure (by omega) (by omega))
    refine .checkLength hu (fun r hr => ?_) (.byteAt fun b hb => ?_)
    · obtain ⟨b, hb, -⟩ := bind_eq_some_iff.mp hr
      have := (List.getElem?_eq_some_iff.mp hb).1
      omega
    · exact .ite _ (decodedNull_lift (by omega) (by omega) ctx _) <|
        .ite _ (.pure (by omega) (by omega)) (.error (Int.le_refl 0) _)

theorem bsdListmap_lift (hu : u < -1) (ctx : DCtx) (x : Data) :
    LiftTo (-1) buf (bsdListmap ctx x buf u)
      fun rest len => bsdListmap ctx x (buf ++ rest) len := by
  have hu0 : u < 0 := by omega
  have hlo : (-1 : Int) ≤ 0 := by omega
  unfold bsdListmap
  refine .checkLength hu0 (fun r hr => ?_) (.opcode fun op hlen => ?_)
  · obtain ⟨op, hop, -⟩ := bind_eq_some_iff.mp hr
    cases buf with
    | nil => cases hop
    | cons b bs => simp
  · refine .checkDecode hlo (decodeCollection_lift hu ctx x _) fun x ctx => ?_
    refine .checkDecode hlo (decodeCollection_lift hu ctx x _) fun x ctx => ?_
    exact .ite _ (decodedNull_lift (by omega) (by omega) ctx x) (.error hlo _)

theorem bsdContext_lift [CFloat] (hu : u < -1) (ctxid : CtxId) (ctx : DCtx) (x : Data) :
    LiftTo (-buf.length) buf (bsdContext ctxid ctx x buf u)
      fun rest len => bsdContext ctxid ctx x (buf ++ rest) len := by
  have hu0 : u < 0 := by omega
  have hlo : -(buf.length : Int) ≤ 0 := by omega
  cases ctxid with
  | global => exact bsdGlobal_lift hu ctx x
  | unsignedOrString => exact .mono hlo (bsdUis_lift hu0 ctx x)
  | number => exact .mono hlo (bsdNumber_lift hu0 ctx x)
  | int32 =>
    unfold bsdContext bsdInt32
    exact .mono hlo (decodeEscaped_lift hu0 ctx x _ _ _)
  | float =>
    unfold bsdContext bsdFloat
    exact .mono hlo (decodeEscaped_lift hu0 ctx x _ _ _)
  | double =>
    unfold bsdContext bsdDouble
    exact .mono hlo (decodeEscaped_lift hu0 ctx x _ _ _)
  | listOrMap =>
    cases buf with
    | nil =>
      intro r hr
      simp only [bsdContext, bsdListmap, checkLength, opcodeAt] at hr
      rw [if_neg (by omega)] at hr
      cases hr
    | cons b bs =>
      refine .mono ?_ (bsdListmap_lift hu ctx x)
      simp only [List.length_cons]
      omega
  | chunked => exact .mono hlo (bsdChunked_lift hu0 ctx x)
  | unknown n => exact .error hlo _
  | object => exact .error hlo _

end

theorem bsdRead_unchecked [CFloat] {ctx : DCtx} {x : Data} {buf : List UInt8} {u : Int} {r : DRes}
    (hu : u < -1) (h : bsdRead ctx x buf u = some r) (rest : List UInt8) {len : Int}
    (hlen : buf.length ≤ len) : bsdRead ctx x (buf ++ rest) len = some r := by
  unfold bsdRead at h ⊢
  by_cases hmissing : ctx.topframe.missing = 0
  · simp only [if_pos hmissing] at h ⊢
    exact h
  simp only [if_neg hmissing] at h ⊢
  obtain ⟨ctxid, hctxid, h⟩ := bind_eq_some_iff.mp h
  obtain ⟨⟨nread, x', ctx'⟩, hread, h⟩ := bind_eq_some_iff.mp h
  have hlift : bsdContext ctxid ctx { x with type := .null } (buf ++ rest) len
      = some (nread, x', ctx') := (bsdContext_lift hu ctxid ctx _ _ hread).2 rest len hlen
  rw [hctxid, bind_eq_bind, bind_some, hlift]
  exact h

end Mihini.Bysant
