import Mihini.Bysant.Lockstep
import Mihini.Bysant.Unchecked

/-!
# What is serialized is read back

Every operation that succeeds corresponds to a sequence of items, and reading the
bytes it wrote yields these items.
-/

namespace Mihini.Bysant

open Lib.Bytes List Option

/-! ## Items -/

inductive Item
  | null
  | bool (b : Bool)
  | int (i : Int)
  | double (d : UInt64)
  | string (data : List UInt8)
  | chunkedString
  | chunk (data : List UInt8)
  | list (len : Nat)
  | zlist
  | map (len : Nat)
  | zmap
  | object (cls : BsClass)
  | classdef (cls : BsClass)
  | close (container : DataType)
  deriving Repr, DecidableEq

/-- The item of a decoded element; `none` for an error. -/
def Data.item (x : Data) : Option Item :=
  match x.type, x.content with
  | .null, _ => some .null
  | .bool, .bool b => some (.bool b)
  | .int, .int i => some (.int i)
  | .double, .double d => some (.double d)
  | .string, .bytes data => some (.string data)
  | .chunkedString, _ => some .chunkedString
  | .chunk, .bytes data => some (.chunk data)
  | .list, .length n => some (.list n)
  | .zlist, _ => some .zlist
  | .map, .length n => some (.map n)
  | .zmap, _ => some .zmap
  | .object, .classdef p => some (.object p.cls)
  | .classdef, .classdef p => some (.classdef p.cls)
  | .close, .contType t => some (.close t)
  | _, _ => none

theorem Data.type_ne_error {x : Data} {it : Item} (h : x.item = some it) : x.type ≠ .error := by
  intro herr
  simp [Data.item, herr] at h

def chunkItems (data : List UInt8) : List Item :=
  if 0xffff < data.length then .chunk (data.take 0xffff) :: chunkItems (data.drop 0xffff)
  else if 0 < data.length then [.chunk data]
  else []
termination_by data.length
decreasing_by simp only [length_drop]; omega

def stringItems (enc : StringEncoding) (data : List UInt8) : List Item :=
  if data.length ≤ enc.largeLimit then [.string data]
  else .chunkedString :: (chunkItems data ++ [.close .chunkedString])

/-- Numbers without a fractional part are sent as integers where a context has
both. -/
def doubleItem [CFloat] (context : Option CtxId) (x : UInt64) : Item :=
  match context with
  | some .float => .double (CFloat.ofFloat (CFloat.toFloat x))
  | some .double => .double x
  | _ =>
    if CFloat.eq (CFloat.ofInt64 (CFloat.toInt64 x)) x then .int (CFloat.toInt64 x).toInt
    else .double x

def Op.items [CFloat] (top : Frame) (coll : ClassColl) : Op → List Item
  | .close => [.close (bsdTypeFromFrameKind top.kind)]
  | .object classid =>
    match coll.bsClasscollGet classid with
    | some (some p) => [.object (sentClass p.cls)]
    | _ => []
  | .classdef p _ => [.classdef (sentClass p.cls)]
  | .map len _ => [if len < 0 then .zmap else .map len.toNat]
  | .list len _ => [if len < 0 then .zlist else .list len.toNat]
  | .chunked => [.chunkedString]
  | .chunk data => chunkItems data
  | .int x => [.int x.toInt]
  | .bool x => [.bool x]
  | .double x => [doubleItem (top.getctxid coll) x]
  | .lstring data =>
    match (top.getctxid coll).bind stringEncoding with
    | some enc => stringItems enc data
    | none => []
  | .null => [.null]
  | .raw _ => []

/-! ## Reading -/

def readAll [CFloat] : Nat → DCtx → Data → List UInt8 → Option (List Item × DCtx)
  | 0, _, _, _ => none
  | fuel + 1, ctx, x, buf =>
    if buf = [] ∧ ctx.stacksize = 0 then some ([], ctx)
    else do
      let (nread, x, ctx) ← bsdRead ctx x buf buf.length
      if nread < 0 then none
      else do
        let item ← x.item
        let (items, ctx) ← readAll fuel ctx x (buf.drop nread.toNat)
        some (item :: items, ctx)

inductive Reads [CFloat] : DCtx → Data → List UInt8 → List Item → DCtx → Data → Prop
  | done (d : DCtx) (x : Data) : Reads d x [] [] d x
  | step {d d' d'' : DCtx} {x x' x'' : Data} {bytes rest : List UInt8} {item : Item}
      {items : List Item} (hmore : bytes ≠ [] ∨ d.stacksize ≠ 0)
      (hread : bsdRead d x bytes (-2) = some ((bytes.length : Int), x', d')) (hitem : x'.item = some item)
      (hrest : Reads d' x' rest items d'' x'') : Reads d x (bytes ++ rest) (item :: items) d'' x''

section
variable [CFloat] {d d' d'' : DCtx} {x x' x'' : Data}

variable {bytes : List UInt8} {item : Item}

theorem Reads.one (hmore : bytes ≠ [] ∨ d.stacksize ≠ 0)
    (hread : bsdRead d x bytes (-2) = some ((bytes.length : Int), x', d')) (hitem : x'.item = some item) :
    Reads d x bytes [item] d' x' := by
  have h := Reads.step hmore hread hitem (.done d' x')
  rwa [append_nil] at h

theorem Reads.trans {bytes bytes' : List UInt8} {items items' : List Item}
    (h : Reads d x bytes items d' x') (h' : Reads d' x' bytes' items' d'' x'') :
    Reads d x (bytes ++ bytes') (items ++ items') d'' x'' := by
  induction h with
  | done => exact h'
  | step hmore hread hitem hrest ih =>
    rw [append_assoc, cons_append]
    exact .step hmore hread hitem (ih h')

theorem Reads.readAll {items : List Item} (h : Reads d x bytes items d' x')
    (hend : d'.stacksize = 0) {fuel : Nat} (hfuel : items.length < fuel) :
    readAll fuel d x bytes = some (items, d') := by
  induction h generalizing fuel with
  | done d x =>
    obtain ⟨fuel, rfl⟩ : ∃ n, fuel = n + 1 := ⟨fuel - 1, by omega⟩
    simp [Mihini.Bysant.readAll, hend]
  | @step d d' d'' x x' x'' bytes rest item items hmore hread hitem hrest ih =>
    obtain ⟨fuel, rfl⟩ : ∃ n, fuel = n + 1 := ⟨fuel - 1, by omega⟩
    have hchecked : bsdRead d x (bytes ++ rest) ((bytes ++ rest).length : Int)
        = some ((bytes.length : Int), x', d') :=
      bsdRead_unchecked (by omega) hread rest (by simp)
    have hgo : ¬ (bytes ++ rest = [] ∧ d.stacksize = 0) := by
      rintro ⟨hnil, hsize⟩
      rcases hmore with hmore | hmore
      · exact hmore (append_eq_nil_iff.mp hnil).1
      · exact hmore hsize
    have hrec := @ih hend fuel (by simp only [length_cons] at hfuel; omega)
    unfold Mihini.Bysant.readAll
    have hlen : ¬ (bytes.length : Int) < 0 := by omega
    simp only [if_neg hgo, hchecked, bind_eq_bind, bind_some, if_neg hlen, hitem,
      Int.toNat_natCast, drop_left, hrec]

/-! ## Chunks -/

theorem bsdRead_chunk (hk : d.topframe.kind = .chunked) (hid : d.topframe.ctxid = .chunked)
    (hneg : d.topframe.missing < 0) (data : List UInt8) (hpos : 0 < data.length)
    (hle : data.length ≤ 0xffff) (x : Data) :
    bsdRead d x ([(data.length : Int) / 2 ^ 8, (data.length : Int)].map byte ++ data) (-2)
      = some ((data.length : Int) + 2, { x.put .chunk (.bytes data) with kind := .chunk },
          { d with read := d.read + ((data.length : Int) + 2) }) := by
  have hcount : countElement (d.stack d.stacksize) = some d.topframe := by
    show countElement d.topframe = _
    simp [countElement, hk, FrameKind.isMap, Int.not_lt.mpr (Int.le_of_lt hneg)]
  have hcounted (n : Int) : d.counted d.stacksize d.topframe n = { d with read := d.read + n } := by
    unfold DCtx.counted DCtx.topframe
    rw [Stack.modify_self]
  have hread := bsdChunked_chunk d { x with type := .null } hpos hle (by omega : (-2 : Int) < -1) []
  have hctx : d.topframe.getctxid d.classcoll = some .chunked := by
    simp [Frame.getctxid, hk, hid]
  rw [append_nil] at hread
  unfold bsdRead
  rw [if_neg (by omega), hctx, bind_eq_bind, bind_some, bsdContext, hread,
    bind_eq_bind, bind_some]
  show bsdReadDone d.stacksize ((data.length : Int) + 2) _ d = _
  rw [bsdReadDone_counted (by omega) (by simp [Data.put]) (by simp [Data.put]) hcount,
    if_neg (Nat.lt_irrefl _), hcounted]
  simp only [describe, bsdGetFrameDataKind, DCtx.topframe] at *
  simp [hk, Data.put]

theorem reads_chunks (hk : d.topframe.kind = .chunked) (hid : d.topframe.ctxid = .chunked)
    (hneg : d.topframe.missing < 0) (data : List UInt8) (x : Data) :
    ∃ x', Reads d x (chunkSegs data).flatten (chunkItems data)
      { d with read := d.read + (chunkSegs data).flatten.length } x' := by
  induction data using chunkSegs.induct generalizing d x with
  | case1 data h ih =>
    have hlen : (data.take 0xffff).length = 0xffff := by
      rw [length_take]
      omega
    have hread := bsdRead_chunk hk hid hneg (data.take 0xffff) (by omega) (by omega) x
    have hhead : [((data.take 0xffff).length : Int) / 2 ^ 8, ((data.take 0xffff).length : Int)].map
        byte = [0xff, 0xff] := by
      rw [hlen]
      decide
    rw [hhead] at hread
    obtain ⟨x', hrest⟩ := ih (d := { d with read := d.read + ((data.take 0xffff).length + 2) })
      hk hid hneg { x.put .chunk (.bytes (data.take 0xffff)) with kind := .chunk }
    have hflat : (chunkSegs data).flatten
        = ([0xff, 0xff] ++ data.take 0xffff) ++ (chunkSegs (data.drop 0xffff)).flatten := by
      rw [chunkSegs, if_pos h]
      simp
    have hsum : d.read + (chunkSegs data).flatten.length
        = d.read + ((data.take 0xffff).length + 2) + (chunkSegs (data.drop 0xffff)).flatten.length := by
      rw [hflat]
      simp only [length_append, length_cons, length_nil, Nat.cast_add]
      omega
    refine ⟨x', ?_⟩
    rw [hsum, hflat, chunkItems, if_pos h]
    refine .step (.inl (by simp)) ?_ rfl hrest
    rw [hread]
    simp only [length_append, length_cons, length_nil, Nat.cast_add]
    congr 2
    simp only [Nat.cast_one, Nat.cast_zero]
    omega
  | case2 data h h' =>
    have hread := bsdRead_chunk hk hid hneg data h' (by omega) x
    have hflat : (chunkSegs data).flatten
        = [(data.length : Int) / 2 ^ 8, (data.length : Int)].map byte ++ data := by
      rw [chunkSegs, if_neg h, if_pos h']
      simp
    have hlen : ((chunkSegs data).flatten.length : Int) = (data.length : Int) + 2 := by
      rw [hflat]
      simp only [length_append, length_map, length_cons, length_nil]
      omega
    refine ⟨{ x.put .chunk (.bytes data) with kind := .chunk }, ?_⟩
    rw [chunkItems, if_neg h, if_pos h']
    refine .one (.inl ?_) ?_ rfl
    · rw [hflat]
      simp
    · rw [hlen, hflat]
      exact hread
  | case3 data h h' =>
    refine ⟨x, ?_⟩
    rw [chunkSegs, if_neg h, if_neg h', chunkItems, if_neg h, if_neg h', flatten_nil,
      length_nil, Nat.cast_zero, Int.add_zero]
    exact .done d x

/-! ## One operation -/

variable {s s' : SCtx (List UInt8)}

/-- What an operation wrote is read as `items`, and both sides agree again. -/
def Delivered (s s' : SCtx (List UInt8)) (d : DCtx) (items : List Item) : Prop :=
  ∃ bytes d', s'.writerctx = s.writerctx ++ bytes ∧ Sync s' d'
    ∧ ∀ x, ∃ x', Reads d x bytes items d' x'

def FindsValue (ctxid : CtxId) (d : DCtx) (bytes : List UInt8) (item : Item) : Prop :=
  ∀ x : Data, x.type ≠ .error → ∃ x' : Data,
    bsdContext ctxid d x bytes (-2) = some ((bytes.length : Int), x', d)
      ∧ x'.item = some item ∧ x'.type ≠ .classdef

variable {ctxid : CtxId}

theorem Sync.deliver_value (h : Sync s d) {segs : List (List UInt8)}
    (hexec : Plan.exec acceptAll s (.write none segs .commit) = some (.eok, s'))
    (hs' : Settled s') (hctx : s.getctxid = some ctxid)
    (hbytes : segs.flatten ≠ []) (hfind : FindsValue ctxid d segs.flatten item) :
    Delivered s s' d [item] := by
  obtain ⟨hmore, -, hrun⟩ := h.exec_write hexec
  obtain ⟨g, hcount, hopened⟩ := h.count hmore
  refine ⟨segs.flatten, d.counted d.stacksize g segs.flatten.length, ?_,
    h.value hcount hopened hrun hs' _, fun x => ?_⟩
  · obtain ⟨f, -, rfl⟩ := commitTransaction_inv hrun
    rfl
  · obtain ⟨x', hread, hitem, hdef⟩ := hfind { x with type := .null } (by simp)
    obtain ⟨kind, name, hread⟩ := h.read_value hmore hctx hcount hopened hread (by omega)
      (Data.type_ne_error hitem) hdef
    exact ⟨_, .one (.inl hbytes) hread hitem⟩

theorem Sync.deliver_put (h : Sync s d) {segs : List (List UInt8)}
    (hexec : Plan.exec acceptAll s (.write none segs .commit) = some (.eok, s'))
    (hs' : Settled s') (hctx : s.getctxid = some ctxid) (hbytes : segs.flatten ≠ [])
    {t : DataType} {c : Content}
    (hread : ∀ x, bsdContext ctxid d x (segs.flatten ++ []) (-2)
      = some ((segs.flatten.length : Int), x.put t c, d))
    (hitem : ∀ x : Data, (x.put t c).item = some item) (hdef : t ≠ .classdef) :
    Delivered s s' d [item] := by
  refine h.deliver_value hexec hs' hctx hbytes fun x _ => ⟨_, ?_, hitem x, hdef⟩
  rw [← hread x, append_nil]

omit [CFloat] in
/-- A word with an escape behind it. -/
theorem flatten_escaped (n : Nat) (v : Int) (escape : Prop) [Decidable escape] :
    (((beBytes (n + 1) v).map fun b => [b]) ++ if escape then [[0x01]] else []).flatten
      = beBytes (n + 1) v ++ if escape then [0x01] else [] := by
  rw [flatten_append, flatten_singletons]
  split <;> rfl

theorem Sync.deliver_null (h : Sync s d) {plan : Plan} (hk : s.topframe.kind ≠ .chunked)
    (hplan : nullPlan s.topframe s.classcoll = some plan)
    (hexec : Plan.exec acceptAll s plan = some (.eok, s')) (hs' : Settled s') :
    Delivered s s' d [.null] := by
  unfold nullPlan at hplan
  split at hplan
  · cases hplan
    cases hexec
  · next hlist =>
    obtain ⟨isKey, hkey, hplan⟩ := bind_eq_some_iff.mp hplan
    cases isKey with
    | true =>
      cases hplan
      cases hexec
    | false =>
      obtain ⟨ctxid, hctx, hplan⟩ := bind_eq_some_iff.mp hplan
      cases hplan
      have hmore := (h.exec_write hexec).1
      have hreg := h.regular hmore hctx hk
      have hnonzero : 0 < (getNullToken ctxid).length := by
        cases ctxid <;> simp [getNullToken]
      refine h.deliver_value hexec hs' hctx ?_ fun x hx => ?_
      · simpa using ne_nil_of_length_pos hnonzero
      · obtain ⟨x', hread⟩ := bsdContext_null d x hreg hx (by omega : (-2 : Int) < -1) []
        rw [decodedNull_value] at hread
        · exact ⟨{ x' with type := .null }, by simpa using hread, rfl, by simp⟩
        · rw [h.top.kind]
          exact hlist
        · intro hzmap
          have hk' : s.topframe.kind = .zmap := h.top.kind.symm.trans hzmap
          obtain ⟨even, hf, hg⟩ := h.top.even (by rw [hk']; rfl)
          simp only [Frame.onKey, hk', FrameKind.isMap, if_true, hf] at hkey
          rw [hg, hkey]

theorem Sync.deliver_int (h : Sync s d) {v : Int} (hv : -2 ^ 63 ≤ v ∧ v < 2 ^ 63)
    (hctx : s.getctxid = some ctxid) (huis : ctxid = .unsignedOrString → v < 2 ^ 32)
    (hexec : Plan.exec acceptAll s (intPlan v ctxid) = some (.eok, s')) (hs' : Settled s') :
    Delivered s s' d [.int v] := by
  have hlength : (-2 : Int) < -1 := by omega
  cases ctxid with
  | global =>
    obtain ⟨b, bs, hhead⟩ := integerSegs_head v globalInteger
    exact h.deliver_put hexec hs' hctx (flatten_ne_nil hhead) (fun x =>
      bsdGlobal_integer d x hv [] (.inl (by omega : (-2 : Int) < 0))) (fun _ => rfl) nofun
  | number =>
    obtain ⟨b, bs, hhead⟩ := integerSegs_head v numberInteger
    exact h.deliver_put hexec hs' hctx (flatten_ne_nil hhead) (fun x =>
      bsdNumber_integer d x hv [] (.inl (by omega : (-2 : Int) < 0))) (fun _ => rfl) nofun
  | unsignedOrString =>
    unfold intPlan at hexec
    simp only at hexec
    split at hexec
    · cases hexec
    · next hneg =>
      exact h.deliver_put hexec hs' hctx (ne_nil_of_length_pos (unsignedSegs_length_pos v))
        (fun x => bsdUis_unsignedSegs d x ⟨by omega, huis rfl⟩ [] (.inl (by omega : (-2 : Int) < 0)))
        (fun _ => rfl) nofun
  | int32 =>
    unfold intPlan at hexec
    simp only at hexec
    split at hexec
    · cases hexec
    · next hout =>
      have hout' : v = toSigned (2 ^ 31) (v % 2 ^ 32) := not_not.mp hout
      rw [← hout'] at hexec
      have hrange : -2 ^ 31 ≤ v ∧ v < 2 ^ 31 := by
        unfold toSigned at hout'
        split at hout' <;> omega
      have hflat := flatten_escaped 3 v (v = -2 ^ 31)
      refine h.deliver_put (t := .int) (c := .int v) hexec hs' hctx (by rw [hflat]; nofun)
        (fun x => ?_) (fun _ => rfl) nofun
      rw [hflat]
      exact bsdInt32_value d x hrange hlength []
  | float | double | listOrMap | unknown | chunked | object => cases hexec

theorem Sync.deliver_bool (h : Sync s d) (b : Bool) (hctx : s.getctxid = some .global)
    (hexec : Plan.exec acceptAll s (.write none [[byte (if b then 0x01 else 0x02)]] .commit)
      = some (.eok, s')) (hs' : Settled s') : Delivered s s' d [.bool b] := by
  refine h.deliver_value hexec hs' hctx (by simp) fun x _ => ?_
  exact ⟨_, bsdGlobal_bool d x b (by omega : (-2 : Int) < -1) [], rfl, by simp [Data.put]⟩

/-- The choice between the two formats of a floating point number loses nothing. -/
def FloatChoicePreserves : Prop :=
  ∀ x : UInt64, CFloat.eq (CFloat.ofFloat (CFloat.toFloat x)) x = true →
    CFloat.ofFloat (CFloat.toFloat x) = x

theorem sentDouble_eq (hfloat : FloatChoicePreserves) (x : UInt64) : sentDouble x = x := by
  unfold sentDouble
  split
  · next heq => exact hfloat x heq
  · rfl

theorem floatSegs_head (x : UInt64) (enc : FloatEncoding) :
    ∃ b bs, (floatSegs x enc).flatten = b :: bs := by
  unfold floatSegs
  split <;> exact ⟨_, _, rfl⟩

theorem Sync.deliver_double (h : Sync s d) (hfloat : FloatChoicePreserves) {v : UInt64}
    (hctx : s.getctxid = some ctxid)
    (huis : ctxid = .unsignedOrString → CFloat.eq (CFloat.ofInt64 (CFloat.toInt64 v)) v = true →
      (CFloat.toInt64 v).toInt < 2 ^ 32)
    (hexec : Plan.exec acceptAll s (doublePlan v ctxid) = some (.eok, s')) (hs' : Settled s') :
    Delivered s s' d [doubleItem (some ctxid) v] := by
  have hlength : (-2 : Int) < -1 := by omega
  -- Outside the two contexts of floating point words an integer goes first.
  have hint (heq : CFloat.eq (CFloat.ofInt64 (CFloat.toInt64 v)) v = true)
      (hexec : Plan.exec acceptAll s (intPlan (CFloat.toInt64 v).toInt ctxid) = some (.eok, s')) :
      Delivered s s' d [.int (CFloat.toInt64 v).toInt] :=
    h.deliver_int ⟨Int64.le_toInt _, Int64.toInt_lt _⟩ hctx (fun huis' => huis huis' heq) hexec hs'
  cases ctxid with
  | float =>
    have hflat := flatten_escaped 3 (CFloat.toFloat v).toNat (CFloat.toFloat v = 0xffffffff)
    refine h.deliver_put (t := .double) (c := .double (CFloat.ofFloat (CFloat.toFloat v))) hexec hs'
      hctx (by rw [hflat]; nofun) (fun x => ?_) (fun _ => rfl) nofun
    rw [hflat]
    exact bsdFloat_value d x (CFloat.toFloat v) hlength []
  | double =>
    have hflat := flatten_escaped 7 v.toNat (v = 0xffffffffffffffff)
    refine h.deliver_put (t := .double) (c := .double v) hexec hs' hctx (by rw [hflat]; nofun)
      (fun x => ?_) (fun _ => rfl) nofun
    rw [hflat]
    exact bsdDouble_value d x v hlength []
  | global =>
    simp only [doublePlan] at hexec
    simp only [doubleItem]
    split at hexec
    · next heq =>
      rw [if_pos heq]
      exact hint heq hexec
    · next hne =>
      rw [if_neg hne]
      obtain ⟨b, bs, hhead⟩ := floatSegs_head v globalFloatOpcodes
      have hread := fun x => bsdGlobal_float d x v hlength []
      rw [sentDouble_eq hfloat] at hread
      exact h.deliver_put hexec hs' hctx (flatten_ne_nil hhead) hread (fun _ => rfl) nofun
  | number =>
    simp only [doublePlan] at hexec
    simp only [doubleItem]
    split at hexec
    · next heq =>
      rw [if_pos heq]
      exact hint heq hexec
    · next hne =>
      rw [if_neg hne]
      obtain ⟨b, bs, hhead⟩ := floatSegs_head v numberFloatOpcodes
      have hread := fun x => bsdNumber_float d x v hlength []
      rw [sentDouble_eq hfloat] at hread
      exact h.deliver_put hexec hs' hctx (flatten_ne_nil hhead) hread (fun _ => rfl) nofun
  | unsignedOrString | int32 | listOrMap | unknown | chunked | object =>
    simp only [doublePlan] at hexec
    simp only [doubleItem]
    split at hexec
    · next heq =>
      rw [if_pos heq]
      exact hint heq hexec
    · cases hexec

/-! ## Strings -/

variable {enc : StringEncoding} {data : List UInt8}

theorem Sync.deliver_string (h : Sync s d) (hctx : s.getctxid = some ctxid)
    (henc : stringEncoding ctxid = some enc)
    (hdata : data.length ≤ enc.largeLimit)
    (hexec : Plan.exec acceptAll s (.write none (stringSegs data enc) .commit) = some (.eok, s'))
    (hs' : Settled s') : Delivered s s' d [.string data] := by
  refine h.deliver_put (t := .string) (c := .bytes data) hexec hs' hctx
    (ne_nil_of_length_pos (stringSegs_length_pos data enc)) (fun x => ?_) (fun _ => rfl) nofun
  cases ctxid with
  | global =>
    cases henc
    exact bsdGlobal_string d x data [] hdata (by omega : (-2 : Int) < -1)
  | unsignedOrString =>
    cases henc
    exact bsdUis_stringSegs d x data [] hdata (.inl (by omega : (-2 : Int) < 0))
  | _ => cases henc

theorem bsdContext_chunked
    (henc : stringEncoding ctxid = some enc) (hroom : d.stacksize ≠ bsdStackSize - 1)
    (bs : List UInt8) (x : Data) :
    bsdContext ctxid d x (byte enc.chunkedOpcode :: bs) (-2)
      = some (1, { x with type := .chunkedString }, d.push .chunked .chunked (-1)) := by
  cases ctxid with
  | global =>
    cases henc
    exact bsdGlobal_chunked d x hroom (by omega) bs
  | unsignedOrString =>
    cases henc
    exact bsdUis_chunked d x hroom (by omega) bs
  | _ => cases henc

theorem bsdRead_chunkedEnd (hk : d.topframe.kind = .chunked) (hid : d.topframe.ctxid = .chunked)
    (hneg : d.topframe.missing < 0) (hpos : 0 < d.stacksize)
    (hbelow : Described (d.stack (d.stacksize - 1))) (hheap : Heap d) (x : Data) :
    ∃ kind name, bsdRead d x [0x00, 0x00] (-2)
      = some (2, { x.put .close (.contType .chunkedString) with kind := kind, fieldname := name },
          { d.pop with read := d.read + 2 }) := by
  have hcount : countElement (d.pop.stack d.stacksize) = some d.topframe := by
    show countElement d.topframe = _
    simp [countElement, hk, FrameKind.isMap, Int.not_lt.mpr (Int.le_of_lt hneg)]
  have hcounted : d.pop.counted d.stacksize d.topframe 2 = { d.pop with read := d.read + 2 } := by
    unfold DCtx.counted DCtx.topframe
    show { d.pop with stack := d.stack.modify d.stacksize fun _ => d.stack d.stacksize,
                      read := d.read + 2 } = _
    rw [Stack.modify_self]
    rfl
  have hctx : d.topframe.getctxid d.classcoll = some .chunked := by
    simp [Frame.getctxid, hk, hid]
  have hpop : Heap { d.pop with read := d.read + 2 } :=
    hheap.pop (Nat.sub_one_lt (by omega)) (fun _ _ => rfl) rfl rfl
  obtain ⟨kind, name, hdesc⟩ := @Described.describe _ hbelow { d.pop with read := d.read + 2 } rfl
    hpop ({ x with type := .null }.put .close (.contType .chunkedString))
  refine ⟨kind, name, ?_⟩
  unfold bsdRead
  rw [if_neg (by omega), hctx, bind_eq_bind, bind_some, bsdContext,
    bsdChunked_close d _ (by omega : (-2 : Int) < -1) [], bind_eq_bind, bind_some]
  show bsdReadDone d.stacksize 2 _ d.pop = _
  rw [bsdReadDone_counted (by omega) (by simp [Data.put]) (by simp [Data.put]) hcount, hcounted,
    if_neg (Nat.not_lt.mpr (by exact Nat.sub_le ..)), hdesc]
  rfl

theorem Sync.deliver_longString (h : Sync s d) (hctx : s.getctxid = some ctxid)
    (henc : stringEncoding ctxid = some enc)
    (hlong : ¬ data.length ≤ enc.largeLimit) (hvalid : enc.Valid)
    (hroom : s.stacksize ≠ bssStackSize - 1)
    (hexec : Plan.exec acceptAll s (.write none (stringSegs data enc) .commit) = some (.eok, s'))
    (hs' : Settled s') :
    Delivered s s' d (.chunkedString :: (chunkItems data ++ [.close .chunkedString])) := by
  obtain ⟨hmore, -, hrun⟩ := h.exec_write hexec
  obtain ⟨g, hcount, hopened⟩ := h.count hmore
  have hroom' : d.stacksize ≠ bsdStackSize - 1 := by
    rw [h.size]
    exact hroom
  have hlimits := hvalid.limits
  have hsegs : (stringSegs data enc).flatten
      = [byte enc.chunkedOpcode] ++ ((chunkSegs data).flatten ++ [0x00, 0x00]) := by
    unfold stringSegs
    simp only
    rw [if_neg (by omega), if_neg (by omega), if_neg hlong]
    simp
  let d₁ := (d.push .chunked .chunked (-1)).counted d.stacksize g 1
  have hstack₁ (i : Nat) (hi : i ≤ d.stacksize) :
      d₁.stack i = (d.stack.modify d.stacksize fun _ => g) i := by
    by_cases hi' : i = d.stacksize
    · subst hi'
      simp [d₁, DCtx.counted]
    · show (d.push .chunked .chunked (-1)).stack.modify d.stacksize (fun _ => g) i = _
      rw [Stack.modify_of_ne _ hi', Stack.modify_of_ne _ hi', d.push_stack_of_le _ _ _ hi]
  have htop₁ : d₁.topframe = (d.push .chunked .chunked (-1)).topframe := by
    have hne : d.stacksize + 1 ≠ d.stacksize := by omega
    show (d.push .chunked .chunked (-1)).stack.modify d.stacksize (fun _ => g) (d.stacksize + 1) = _
    rw [Stack.modify_of_ne _ hne]
    rfl
  rw [d.push_topframe] at htop₁
  have hheap₁ : Heap d₁ := by
    have hcount' : countElement ((d.push .chunked .chunked (-1)).stack d.stacksize) = some g := by
      rw [d.push_stack_of_le _ _ _ (Nat.le_refl _)]
      exact hcount
    refine Heap.counted ?_ hcount' 1
    refine h.heap.mono rfl rfl fun q hq => ?_
    rcases hq with hq | ⟨i, hi, hk, hc⟩
    · exact .inl hq
    have hi' : i ≤ d.stacksize + 1 := hi
    rcases Nat.lt_or_ge d.stacksize i with hlt | hge
    · obtain rfl : i = d.stacksize + 1 := by omega
      change (d.push .chunked .chunked (-1)).topframe.kind = _ at hk
      rw [d.push_topframe] at hk
      cases hk
    · rw [d.push_stack_of_le _ _ _ hge] at hk hc
      exact .inr ⟨i, hge, hk, hc⟩
  -- The three parts of the string, and the stack without the frame on top.
  have hread₁ (x : Data) : bsdRead d x [byte enc.chunkedOpcode] (-2)
      = some (1, { x with type := .chunkedString, kind := .newcontainer }, d₁) :=
    h.read_opening hmore hctx hcount (bsdContext_chunked henc hroom' [] _) rfl
      (d.push_stack_of_le _ _ _ (Nat.le_refl _)) (by omega) (by simp) (by simp)
  have hneg : (-1 : Int) < 0 := by omega
  let d₂ : DCtx := { d₁ with read := d₁.read + (chunkSegs data).flatten.length }
  have hchunks (x : Data) : ∃ x', Reads d₁ x (chunkSegs data).flatten (chunkItems data) d₂ x' :=
    reads_chunks (by rw [htop₁]) (by rw [htop₁]) (by rw [htop₁]; exact hneg) data x
  have hbelow : Described (d₂.stack (d₂.stacksize - 1)) := by
    show Described (d₁.stack d.stacksize)
    rw [hstack₁ _ (Nat.le_refl _), Stack.modify_same]
    exact hopened.described
  have hread₃ (x : Data) : ∃ kind name, bsdRead d₂ x [0x00, 0x00] (-2)
      = some (2, { x.put .close (.contType .chunkedString) with kind := kind, fieldname := name },
          { d₂.pop with read := d₂.read + 2 }) := by
    have htop₂ : d₂.topframe = d₁.topframe := rfl
    exact bsdRead_chunkedEnd (by rw [htop₂, htop₁]) (by rw [htop₂, htop₁])
      (by rw [htop₂, htop₁]; exact hneg) (Nat.succ_pos d.stacksize) hbelow
      (hheap₁.mono rfl rfl fun q hq => hq) x
  refine ⟨(stringSegs data enc).flatten, { d₂.pop with read := d₂.read + 2 }, ?_, ?_, fun x => ?_⟩
  · obtain ⟨f, -, rfl⟩ := commitTransaction_inv hrun
    rfl
  · exact (h.value hcount hopened hrun hs' 0).congr rfl hstack₁ rfl rfl
  · obtain ⟨x₂, hchunks⟩ := hchunks { x with type := .chunkedString, kind := .newcontainer }
    obtain ⟨kind, name, hread₃⟩ := hread₃ x₂
    rw [hsegs]
    exact ⟨_, .step (.inl (by simp)) (hread₁ x) rfl
      (hchunks.trans (.one (.inl (by simp)) hread₃ rfl))⟩

theorem Sync.deliver_chunks (h : Sync s d) (hid : s.topframe.ctxid = .chunked)
    (hexec : Plan.exec acceptAll s (.write none (chunkSegs data) .commit) = some (.eok, s'))
    (hs' : Settled s') : Delivered s s' d (chunkItems data) := by
  obtain ⟨-, -, hrun⟩ := h.exec_write hexec
  have hk := h.chunked_top hid
  have hneg := h.top.unbounded (by rw [hk]; rfl)
  have hid' : d.topframe.ctxid = .chunked := by
    rw [h.top.ctxid (by simp [hk]) (by simp [hk, FrameKind.fixed]), hid]
  have hcount : countElement d.topframe = some d.topframe := by
    simp [countElement, h.top.kind, hk, FrameKind.isMap, Int.not_lt.mpr (Int.le_of_lt hneg)]
  obtain ⟨g, hcount', hopened⟩ := h.count (by simp [SCtx.expects, hk, FrameKind.fixed])
  obtain rfl : d.topframe = g := Option.some.inj (hcount.symm.trans hcount')
  refine ⟨(chunkSegs data).flatten, { d with read := d.read + (chunkSegs data).flatten.length },
    ?_, ?_, fun x => ?_⟩
  · obtain ⟨f, -, rfl⟩ := commitTransaction_inv hrun
    rfl
  · refine (h.value hcount hopened hrun hs' 0).congr rfl (fun i _ => ?_) rfl rfl
    show d.stack i = (d.stack.modify d.stacksize fun _ => d.stack d.stacksize) i
    rw [Stack.modify_self]
  · exact reads_chunks (h.top.kind.trans hk) hid' hneg data x

/-! ## Openings -/

structure OpensFrame (ctxid : CtxId) (d d₁ : DCtx) (bytes : List UInt8) (item : Item) : Prop where
  reads : ∀ x : Data, x.type ≠ .error → ∃ x' : Data,
    bsdContext ctxid d x bytes (-2) = some ((bytes.length : Int), x', d₁)
      ∧ x'.item = some item ∧ x'.type ≠ .classdef
  size : d₁.stacksize = d.stacksize + 1
  keep : ∀ i ≤ d.stacksize, d₁.stack i = d.stack i
  coll : d₁.classcoll = d.classcoll
  alloc : d₁.nalloc = d.nalloc

theorem Sync.deliver_opening (h : Sync s d) (hmore : s.expects)
    (hctx : s.getctxid = some ctxid) (hbytes : bytes ≠ [])
    {d₁ : DCtx} (hopens : OpensFrame ctxid d d₁ bytes item) (hs' : Settled s')
    (hwrote : s'.writerctx = s.writerctx ++ bytes) (hsound : s'.broken = false)
    (hsize : s'.stacksize = s.stacksize + 1)
    (hkeep : ∀ i ≤ s.stacksize, s'.stack i = s.stack i) (hcoll : s'.classcoll = s.classcoll)
    (hmatch : FrameMatch s'.topframe d₁.topframe)
    (hobject : ∀ q, d₁.topframe.kind = .object → d₁.topframe.content = .object q →
      q ∈ d.classcoll.classes) :
    Delivered s s' d [item] := by
  obtain ⟨g, hcount, hopened⟩ := h.count hmore
  refine ⟨bytes, d₁.counted d.stacksize g bytes.length, hwrote,
    h.opening hcount hopened hopens.size hopens.keep hopens.coll hopens.alloc hobject hs' hsound
      hsize hkeep hcoll hmatch _, fun x => ?_⟩
  obtain ⟨x', hread, hitem, hdef⟩ := hopens.reads { x with type := .null } (by simp)
  have hread' := h.read_opening hmore hctx hcount hread hopens.size
    (hopens.keep _ (Nat.le_refl _)) (by omega) (Data.type_ne_error hitem) hdef
  exact ⟨_, .one (.inl hbytes) hread' hitem⟩

variable {context : CtxId} {len : Int}

theorem bsdContext_list {enc : CollEncoding}
    (henc : collEncoding globalList listmapList context = some enc)
    (hctxid : ctxid.regular = true) (hlen : len < 2 ^ 31) (hroom : d.stacksize ≠ bsdStackSize - 1)
    (x : Data) :
    ∃ x', bsdContext context d x (collectionSegs len ctxid enc).flatten (-2)
      = some (((collectionSegs len ctxid enc).flatten.length : Int), collectionData x' enc len,
          d.pushCollection enc len ctxid) := by
  have hlength : (-2 : Int) < -1 := by omega
  cases context with
  | global =>
    cases henc
    have hpos := collectionSegs_length_pos globalList_valid len ctxid
    have hread := bsdGlobal_list d x hctxid hlen hlength []
      (opened_eq rfl hroom hlen (by simp [globalList, FrameKind.isMap]) ctxid _) (by omega)
    rw [append_nil] at hread
    exact ⟨_, hread⟩
  | listOrMap =>
    cases henc
    have hpos := collectionSegs_length_pos listmapList_valid len ctxid
    have hread := bsdListmap_list d x hctxid hlen hlength []
      (opened_eq rfl hroom hlen (by simp [listmapList, FrameKind.isMap]) ctxid _) (by omega)
    rw [append_nil] at hread
    exact ⟨_, hread⟩
  | _ => cases henc

theorem bsdContext_map {enc : CollEncoding}
    (henc : collEncoding globalMap listmapMap context = some enc)
    (hctxid : ctxid.regular = true) (hlen : len * 2 < 2 ^ 31)
    (hroom : d.stacksize ≠ bsdStackSize - 1) (x : Data) (hx : x.type ≠ .error) :
    ∃ x', bsdContext context d x (collectionSegs len ctxid enc).flatten (-2)
      = some (((collectionSegs len ctxid enc).flatten.length : Int), collectionData x' enc len,
          d.pushCollection enc len ctxid) := by
  have hlength : (-2 : Int) < -1 := by omega
  have hlen' : len < 2 ^ 31 := by omega
  cases context with
  | global =>
    cases henc
    have hpos := collectionSegs_length_pos globalMap_valid len ctxid
    have hread := bsdGlobal_map d x hctxid hlen' hlength []
      (opened_eq rfl hroom hlen' (fun _ => hlen) ctxid _) (by omega)
    rw [append_nil] at hread
    exact ⟨_, hread⟩
  | listOrMap =>
    cases henc
    have hpos := collectionSegs_length_pos listmapMap_valid len ctxid
    have hread := bsdListmap_map d x hx hctxid hlen' hlength []
      (opened_eq rfl hroom hlen' (fun _ => hlen) ctxid _) (by omega)
    rw [append_nil] at hread
    exact ⟨_, hread⟩
  | _ => cases henc

theorem Sync.deliver_list (h : Sync s d) (hctx : s.getctxid = some context)
    (hexec : Plan.exec acceptAll s (collectionPlan len ctxid .ebadctxid (.list len)
      (collEncoding globalList listmapList context)) = some (.eok, s')) (hs' : Settled s') :
    Delivered s s' d [if len < 0 then .zlist else .list len.toNat] := by
  obtain ⟨enc, henc, hreg, hmore, hroom, hrun⟩ := collectionPlan_exec h (by simp) hexec
  have hroom' : d.stacksize ≠ bsdStackSize - 1 := by
    rw [h.size]
    exact hroom
  have hkinds : enc.fixedKind = .list ∧ enc.variableKind = .zlist ∧ enc.Valid := by
    cases context with
    | global =>
      cases henc
      exact ⟨rfl, rfl, globalList_valid⟩
    | listOrMap =>
      cases henc
      exact ⟨rfl, rfl, listmapList_valid⟩
    | _ => cases henc
  obtain ⟨hfixed, hvariable, hvalid⟩ := hkinds
  obtain ⟨missing, hmissing, hlen, hrun⟩ := Finish.run_list hrun
  obtain ⟨hwrote, hbroken, hsize, hkeep, hcoll, htop⟩ := commit_opening hrun
  have hopens : OpensFrame context d (d.pushCollection enc len ctxid)
      (collectionSegs len ctxid enc).flatten (if len < 0 then .zlist else .list len.toNat) := by
    refine ⟨fun x _ => ?_, rfl, fun i hi => d.push_stack_of_le _ _ _ hi, rfl, rfl⟩
    obtain ⟨x', hread⟩ := bsdContext_list henc hreg hlen hroom' x
    refine ⟨_, hread, ?_⟩
    unfold collectionData
    rw [hfixed, hvariable]
    split <;> simp [Data.put, Data.item, bsdTypeFromFrameKind]
  refine h.deliver_opening hmore hctx
    (ne_nil_of_length_pos (collectionSegs_length_pos hvalid len ctxid)) hopens hs' hwrote
    (hbroken.trans h.sound) hsize hkeep hcoll ?_ ?_
  · unfold DCtx.pushCollection
    rw [d.push_topframe]
    simp only [collectionKind, hfixed, hvariable] at htop ⊢
    by_cases hneg : len < 0
    · have hne : len ≠ 0 := by omega
      simp only [if_pos hneg, if_neg hne] at htop ⊢
      rw [← (Prod.mk.inj (Option.some.inj htop)).2]
      exact ⟨rfl, hreg, fun _ _ => rfl, by simp [FrameKind.fixed],
        fun _ => by simp [FrameKind.isMap], by simp [FrameKind.isMap], by simp⟩
    · obtain rfl := hmissing (by omega)
      have hne : len + 1 ≠ 0 := by omega
      simp only [if_neg hneg, commitFrame, if_neg hne] at htop ⊢
      rw [← (Prod.mk.inj (Option.some.inj htop)).2]
      refine ⟨rfl, hreg, fun _ hmore => ?_, fun _ => by simp [FrameKind.isMap],
        by simp [FrameKind.fixed], by simp [FrameKind.isMap], by simp⟩
      have hlen0 : len ≠ 0 := by
        have := hmore rfl
        simp only at this
        omega
      simp only [if_neg hlen0]
  · intro q hk
    unfold DCtx.pushCollection at hk
    rw [d.push_topframe] at hk
    simp only [collectionKind, hfixed, hvariable] at hk
    split at hk <;> cases hk

theorem Sync.deliver_map (h : Sync s d) (hctx : s.getctxid = some context)
    (hexec : Plan.exec acceptAll s (collectionPlan len ctxid .ebadmap (.map len)
      (collEncoding globalMap listmapMap context)) = some (.eok, s')) (hs' : Settled s') :
    Delivered s s' d [if len < 0 then .zmap else .map len.toNat] := by
  obtain ⟨enc, henc, hreg, hmore, hroom, hrun⟩ := collectionPlan_exec h (by simp) hexec
  have hroom' : d.stacksize ≠ bsdStackSize - 1 := by
    rw [h.size]
    exact hroom
  have hkinds : enc.fixedKind = .map ∧ enc.variableKind = .zmap ∧ enc.Valid := by
    cases context with
    | global =>
      cases henc
      exact ⟨rfl, rfl, globalMap_valid⟩
    | listOrMap =>
      cases henc
      exact ⟨rfl, rfl, listmapMap_valid⟩
    | _ => cases henc
  obtain ⟨hfixed, hvariable, hvalid⟩ := hkinds
  obtain ⟨missing, hmissing, hlen, hrun⟩ := Finish.run_map hrun
  obtain ⟨hwrote, hbroken, hsize, hkeep, hcoll, htop⟩ := commit_opening hrun
  have hopens : OpensFrame context d (d.pushCollection enc len ctxid)
      (collectionSegs len ctxid enc).flatten (if len < 0 then .zmap else .map len.toNat) := by
    refine ⟨fun x hx => ?_, rfl, fun i hi => d.push_stack_of_le _ _ _ hi, rfl, rfl⟩
    obtain ⟨x', hread⟩ := bsdContext_map henc hreg hlen hroom' x hx
    refine ⟨_, hread, ?_⟩
    unfold collectionData
    rw [hfixed, hvariable]
    split <;> simp [Data.put, Data.item, bsdTypeFromFrameKind]
  refine h.deliver_opening hmore hctx
    (ne_nil_of_length_pos (collectionSegs_length_pos hvalid len ctxid)) hopens hs' hwrote
    (hbroken.trans h.sound) hsize hkeep hcoll ?_ ?_
  · unfold DCtx.pushCollection
    rw [d.push_topframe]
    simp only [collectionKind, hfixed, hvariable] at htop ⊢
    by_cases hneg : len < 0
    · have hne : len ≠ 0 := by omega
      simp only [if_pos hneg, if_neg hne] at htop ⊢
      rw [← (Prod.mk.inj (Option.some.inj htop)).2]
      exact ⟨rfl, hreg, fun _ _ => rfl, by simp [FrameKind.fixed],
        fun _ => by simp [FrameKind.isMap], fun _ => ⟨true, rfl, rfl⟩, by simp⟩
    · obtain rfl := hmissing (by omega)
      have hne : len * 2 + 1 ≠ 0 := by omega
      simp only [if_neg hneg, commitFrame, Frame.toggle, Frame.even, bind_eq_bind,
        bind_some, if_neg hne] at htop ⊢
      rw [← (Prod.mk.inj (Option.some.inj htop)).2]
      refine ⟨rfl, hreg, fun _ hmore => ?_, fun _ => by simp [FrameKind.isMap],
        by simp [FrameKind.fixed], fun _ => ⟨true, rfl, rfl⟩, by simp⟩
      have hlen0 : len ≠ 0 := by
        have := hmore rfl
        simp only at this
        omega
      simp only [if_neg hlen0]
  · intro q hk
    unfold DCtx.pushCollection at hk
    rw [d.push_topframe] at hk
    simp only [collectionKind, hfixed, hvariable] at hk
    split at hk <;> cases hk

theorem Sync.deliver_chunked (h : Sync s d) (hctx : s.getctxid = some context)
    (henc : stringEncoding context = some enc)
    (hexec : Plan.exec acceptAll s (.write (some (.chunked, .chunked)) [[byte enc.chunkedOpcode]]
      .commit) = some (.eok, s')) (hs' : Settled s') : Delivered s s' d [.chunkedString] := by
  obtain ⟨hmore, hroom, hrun⟩ := h.exec_write hexec
  have hroom' : d.stacksize ≠ bsdStackSize - 1 := by
    rw [h.size]
    exact fun hfull => hroom ⟨rfl, hfull⟩
  have hrun' : commitTransaction (((s.push .chunked .chunked).wrote
      [[byte enc.chunkedOpcode]].flatten).modifyTop id) = some (.eok, s') := by
    have hid (c : SCtx (List UInt8)) : c.modifyTop id = c := by
      show { c with stack := c.stack.modify c.stacksize fun f => id f } = c
      have := Stack.modify_self c.stack c.stacksize
      unfold Stack.modify at this ⊢
      simp only [id, this]
    rw [hid]
    exact hrun
  obtain ⟨hwrote, hbroken, hsize, hkeep, hcoll, htop⟩ := commit_opening hrun'
  have hopens : OpensFrame context d (d.push .chunked .chunked (-1))
      [[byte enc.chunkedOpcode]].flatten .chunkedString := by
    refine ⟨fun x _ => ?_, rfl, fun i hi => d.push_stack_of_le _ _ _ hi, rfl, rfl⟩
    exact ⟨_, bsdContext_chunked henc hroom' [] x, rfl, by simp⟩
  refine h.deliver_opening hmore hctx (by simp) hopens hs' hwrote (hbroken.trans h.sound) hsize
    hkeep hcoll ?_ ?_
  · rw [d.push_topframe, ← (Prod.mk.inj (Option.some.inj htop)).2]
    exact ⟨rfl, rfl, fun _ _ => rfl, by simp [FrameKind.fixed], fun _ => by simp,
      by simp [FrameKind.isMap], by simp⟩
  · intro q hk
    rw [d.push_topframe] at hk
    cases hk

/-! ## Objects -/

theorem Sync.deliver_object (h : Sync s d) {classid : UInt32} {p : ClassPtr}
    (hget : s.classcoll.bsClasscollGet classid = some (some p)) (hctx : s.getctxid = some .global)
    (hexec : Plan.exec acceptAll s (.write (some (.object, .object)) (objectSegs classid)
      (.object p)) = some (.eok, s')) (hs' : Settled s') :
    Delivered s s' d [.object (sentClass p.cls)] := by
  obtain ⟨hmore, hroom, hrun⟩ := h.exec_write hexec
  have hroom' : d.stacksize ≠ bsdStackSize - 1 := by
    rw [h.size]
    exact fun hfull => hroom ⟨rfl, hfull⟩
  obtain ⟨cls, hderef, hrun⟩ := bind_eq_some_iff.mp hrun
  obtain ⟨missing, hmissing, hrun⟩ := bind_eq_some_iff.mp hrun
  obtain ⟨rfl, -⟩ := cint_eq_some hmissing
  obtain rfl : p.cls = cls := by
    unfold ClassColl.deref at hderef
    split at hderef
    · cases hderef
    · exact Option.some.inj hderef
  obtain ⟨hwrote, hbroken, hsize, hkeep, hcoll, htop⟩ := commit_opening hrun
  obtain ⟨q, hmem, hcls, hcheck, hinst⟩ := instantiate_eq h hget hroom'
  have hopens : OpensFrame .global d (d.pushObject q) (objectSegs classid).flatten
      (.object (sentClass p.cls)) := by
    refine ⟨fun x _ => ?_, rfl, fun i hi => d.pushObject_stack_of_le q hi, rfl, rfl⟩
    obtain ⟨x', hread⟩ := bsdGlobal_object d x classid (by omega : (-2 : Int) < -1) []
    rw [append_nil, hinst] at hread
    refine ⟨_, hread, ?_, by simp [Data.put]⟩
    simp [Data.put, Data.item, hcls]
  have hbytes : (objectSegs classid).flatten ≠ [] := by
    unfold objectSegs
    simp
  refine h.deliver_opening hmore hctx hbytes hopens hs' hwrote (hbroken.trans h.sound) hsize hkeep
    hcoll ?_ ?_
  · have hne : p.cls.nfields + 1 ≠ 0 := by
      unfold BsClass.nfields
      omega
    simp only [commitFrame, if_neg hne] at htop
    rw [d.pushObject_topframe, ← (Prod.mk.inj (Option.some.inj htop)).2]
    refine ⟨rfl, rfl, by simp, fun _ => by simp [hcls], by simp [FrameKind.fixed],
      by simp [FrameKind.isMap], fun _ => ⟨p, q, rfl, rfl, hcls, hcheck, ?_⟩⟩
    show p.cls.nfields + 1 - 1 ≤ p.cls.nfields
    omega
  · intro q' _ hc
    rw [d.pushObject_topframe] at hc
    rw [← FrameContent.object.inj hc]
    exact hmem

/-! ## Ends of containers -/

theorem Sync.deliver_end (h : Sync s d) (hbytes : bytes ≠ [])
    (hk : s.topframe.kind ≠ .top)
    (hexec : Plan.exec acceptAll s (.write none [bytes] .close) = some (.eok, s'))
    (hs' : Settled s') (hctx : s.getctxid = some ctxid)
    (hfind : ∀ x : Data, x.type ≠ .error → ∃ x' : Data, bsdContext ctxid d x bytes (-2)
      = some ((bytes.length : Int),
          x'.put .close (.contType (bsdTypeFromFrameKind s.topframe.kind)), d.pop)) :
    Delivered s s' d [.close (bsdTypeFromFrameKind s.topframe.kind)] := by
  obtain ⟨hmore, -, hrun⟩ := h.exec_write hexec
  obtain ⟨g, hcount, hopened⟩ := h.count hmore
  have hpos := h.stacksize_pos hk
  have hflat : [bytes].flatten = bytes := by simp
  rw [hflat] at hrun
  refine ⟨bytes, d.pop.counted d.stacksize g bytes.length, ?_, ?_, fun x => ?_⟩
  · obtain ⟨f, -, rfl⟩ := commitTransaction_inv hrun
    rfl
  · have hkeep (i : Nat) (hi : i < d.stacksize) :
        (d.pop.counted d.stacksize g bytes.length).stack i = d.stack i :=
      Stack.modify_of_ne d.stack (Nat.ne_of_lt hi) fun _ => g
    exact h.closing hpos { s.wrote bytes with stacksize := s.stacksize - 1 } rfl rfl rfl rfl hrun hs'
      rfl hkeep rfl rfl
  · obtain ⟨x', hread⟩ := hfind { x with type := .null } (by simp)
    obtain ⟨kind, name, hread'⟩ := h.read_close hpos hmore hctx hcount hread (by omega)
      (by simp [Data.put]) (by simp [Data.put])
    exact ⟨_, .one (.inl hbytes) hread' rfl⟩

theorem Sync.deliver_close (h : Sync s d)
    (hexec : Plan.exec acceptAll s (closePlan s.topframe) = some (.eok, s')) (hs' : Settled s') :
    Delivered s s' d [.close (bsdTypeFromFrameKind s.topframe.kind)] := by
  -- A fixed container ends when it is full, without a byte.
  have hfixed (hk : s.topframe.kind.fixed = true) (hdone : s.topframe.missing = 0)
      (hexec : Plan.exec acceptAll s .closeFixed = some (.eok, s')) :
      Delivered s s' d [.close (bsdTypeFromFrameKind s.topframe.kind)] := by
    have hpos : 0 < s.stacksize := h.stacksize_pos (by intro htop; rw [htop] at hk; cases hk)
    have hdone' : d.topframe.missing = 0 := (h.top.fixed hk).trans hdone
    refine ⟨[], d.pop, ?_, h.closing hpos { s with stacksize := s.stacksize - 1 } rfl rfl rfl rfl
      hexec hs' rfl (fun _ _ => rfl) rfl rfl, fun x => ?_⟩
    · obtain ⟨f, -, rfl⟩ := commitTransaction_inv hexec
      exact (append_nil _).symm
    · obtain ⟨kind, name, hread⟩ := h.read_closeFixed hpos hdone' x
      exact ⟨_, .one (.inr (by rw [h.size]; omega)) hread rfl⟩
  have hctop := h.top.kind
  unfold closePlan at hexec
  cases hk : s.topframe.kind with
  | zmap =>
    simp only [hk] at hexec
    obtain ⟨even, hf, hg⟩ := h.top.even (by rw [hk]; rfl)
    rw [hf] at hexec
    cases even with
    | false =>
      rw [Plan.exec, starting_eq] at hexec
      split at hexec
      · cases hexec
      · split at hexec <;> cases hexec
    | true =>
      have hctx : s.getctxid = some .unsignedOrString := by
        simp [SCtx.getctxid, Frame.getctxid, hk, hf]
      rw [← hk]
      refine h.deliver_end (by simp [getNullToken]) (by simp [hk]) hexec hs' hctx fun x hx => ?_
      obtain ⟨x', hread⟩ := @bsdContext_null _ d x .unsignedOrString _ rfl hx
        (by omega : (-2 : Int) < -1) []
      rw [append_nil, decodedNull_close x' (.inr ⟨hctop.trans hk, hg⟩), hctop] at hread
      exact ⟨x', hread⟩
  | zlist =>
    simp only [hk] at hexec
    have hreg : s.topframe.ctxid.regular = true := by
      have := h.top.proper
      simpa only [Frame.properContext, hk] using this
    have hne : getNullToken s.topframe.ctxid ≠ [] := by
      unfold getNullToken
      split <;> simp
    have hctx : s.getctxid = some s.topframe.ctxid := by
      simp [SCtx.getctxid, Frame.getctxid, hk]
    rw [← hk]
    refine h.deliver_end hne (by simp [hk]) hexec hs' hctx fun x hx => ?_
    obtain ⟨x', hread⟩ := bsdContext_null d x hreg hx (by omega : (-2 : Int) < -1) []
    rw [append_nil, decodedNull_close x' (.inl (hctop.trans hk)), hctop] at hread
    exact ⟨x', hread⟩
  | chunked =>
    simp only [hk] at hexec
    have hid : s.topframe.ctxid = .chunked := by
      have := h.top.proper
      simpa only [Frame.properContext, hk] using this
    have hctx : s.getctxid = some .chunked := by
      simp [SCtx.getctxid, Frame.getctxid, hk, hid]
    rw [← hk]
    refine h.deliver_end (by simp) (by simp [hk]) hexec hs' hctx fun x hx => ?_
    rw [hk]
    exact ⟨x, bsdChunked_close d x (by omega : (-2 : Int) < -1) []⟩
  | object | list | map =>
    simp only [hk] at hexec
    split at hexec
    · cases hexec
    · next hdone =>
      rw [← hk]
      exact hfixed (by rw [hk]; rfl) (not_not.mp hdone) hexec
  | top | classdef =>
    simp only [hk] at hexec
    cases hexec

/-! ## Class definitions -/

theorem Sync.deliver_class (h : Sync s d) {p : ClassPtr} (hcheck : checkClassdef p.cls = true)
    (hfit : namesFit p.cls) (hn : p.cls.nfields < 2 ^ 32) (hstorable : s.storable p.cls.classid)
    (hafter : s.afterField) (hctx : s.getctxid = some .global)
    (hexec : Plan.exec acceptAll s (.write none (classSegs p.cls) (.classdef p)) = some (.eok, s'))
    (hs' : Settled s') : Delivered s s' d [.classdef (sentClass p.cls)] := by
  obtain ⟨hmore, -, hrun⟩ := h.exec_write hexec
  obtain ⟨coll, hset, hsync⟩ := h.defining hmore hstorable hcheck hrun hs'
  have hheap : Heap (d.define coll) := (hsync 0).heap.mono rfl rfl fun q hq => hq
  have hbytes : (classSegs p.cls).flatten ≠ [] := by
    unfold classSegs
    simp
  refine ⟨(classSegs p.cls).flatten,
    { d.define coll with read := d.read + (classSegs p.cls).flatten.length }, ?_, hsync _,
    fun x => ?_⟩
  · obtain ⟨a', -, hrun⟩ := bind_eq_some_iff.mp hrun
    obtain ⟨f, -, hrun⟩ := bind_eq_some_iff.mp hrun
    obtain ⟨f', -, rfl⟩ := commitTransaction_inv hrun
    rfl
  · obtain ⟨x', hread⟩ := bsdGlobal_class d { x with type := .null } (by omega : (-2 : Int) < -1)
      hcheck hfit hn hset []
    rw [append_nil] at hread
    obtain ⟨kind, name, hread'⟩ := h.read_class hmore hafter hctx hheap hread (by omega) rfl
    exact ⟨_, .one (.inl hbytes) hread' rfl⟩

/-! ## Every operation -/

/-- Operations that send what they are given: raw data is not decoded, and a class
that is kept internal is not sent. -/
def Op.WellFormed : Op → Prop
  | .raw _ => False
  | .classdef p internal => internal = false ∧ p.cls.nfields < 2 ^ 31
  | _ => True

/-- The calls after which the deserializer cannot follow any more are left out. -/
def Op.Faithful (c : SCtx (List UInt8)) : Op → Prop
  | .int x => c.getctxid = some .unsignedOrString → x.toInt < 2 ^ 32
  | .double x => c.getctxid = some .unsignedOrString →
    CFloat.eq (CFloat.ofInt64 (CFloat.toInt64 x)) x = true → (CFloat.toInt64 x).toInt < 2 ^ 32
  | .lstring data => c.stacksize = bssStackSize - 1 →
    ∀ enc, c.getctxid.bind stringEncoding = some enc → data.length ≤ enc.largeLimit
  | .null => c.topframe.kind ≠ .chunked
  | .classdef p _ => namesFit p.cls ∧ c.storable p.cls.classid ∧ c.afterField
  | _ => True

theorem Sync.step (h : Sync s d) (hfloat : FloatChoicePreserves) {op : Op} (hwf : op.WellFormed)
    (hfaithful : op.Faithful s) (happly : op.apply acceptAll s = some (.eok, s')) :
    Delivered s s' d (op.items s.topframe s.classcoll) := by
  rw [Op.apply_eq] at happly
  obtain ⟨plan, hplan, hexec⟩ := bind_eq_some_iff.mp happly
  have hs' : Settled s' := (Plan.exec_settled h.settled (opPlan_sound hplan) hexec).2
  cases op with
  | close =>
    cases hplan
    exact h.deliver_close hexec hs'
  | object classid =>
    obtain ⟨found, hget, hplan⟩ := bind_eq_some_iff.mp hplan
    obtain ⟨context, hctx, hplan⟩ := bind_eq_some_iff.mp hplan
    cases hplan
    unfold objectPlan at hexec
    split at hexec
    · cases hexec
    · next hglobal =>
      obtain rfl := not_not.mp hglobal
      cases found with
      | none => cases hexec
      | some p =>
        simp only [Op.items, hget]
        exact h.deliver_object hget hctx hexec hs'
  | classdef p internal =>
    obtain ⟨rfl, hn⟩ := hwf
    obtain ⟨hfit, hstorable, hafter⟩ := hfaithful
    simp only [opPlan] at hplan
    split at hplan
    · cases hplan
      cases hexec
    · next hcheck =>
      rw [if_neg (by simp)] at hplan
      obtain ⟨context, hctx, hplan⟩ := bind_eq_some_iff.mp hplan
      cases hplan
      split at hexec
      · cases hexec
      · next hglobal =>
        obtain rfl := not_not.mp hglobal
        exact h.deliver_class (by simpa using hcheck) hfit (by omega) hstorable hafter hctx hexec hs'
  | map len ctxid =>
    obtain ⟨context, hctx, hplan⟩ := bind_eq_some_iff.mp hplan
    cases hplan
    exact h.deliver_map hctx hexec hs'
  | list len ctxid =>
    obtain ⟨context, hctx, hplan⟩ := bind_eq_some_iff.mp hplan
    cases hplan
    exact h.deliver_list hctx hexec hs'
  | chunked =>
    obtain ⟨context, hctx, hplan⟩ := bind_eq_some_iff.mp hplan
    cases hplan
    cases henc : stringEncoding context with
    | none =>
      simp only [henc] at hexec
      cases hexec
    | some enc =>
      simp only [henc] at hexec
      exact h.deliver_chunked hctx henc hexec hs'
  | chunk data =>
    cases hplan
    split at hexec
    · cases hexec
    · next hid =>
      split at hexec
      · cases hexec
      · exact h.deliver_chunks (not_not.mp hid) hexec hs'
  | int x =>
    obtain ⟨context, hctx, hplan⟩ := bind_eq_some_iff.mp hplan
    cases hplan
    refine h.deliver_int ⟨Int64.le_toInt _, Int64.toInt_lt _⟩ hctx (fun huis => ?_) hexec hs'
    exact hfaithful (huis ▸ hctx)
  | bool x =>
    obtain ⟨context, hctx, hplan⟩ := bind_eq_some_iff.mp hplan
    cases hplan
    split at hexec
    · cases hexec
    · next hglobal =>
      obtain rfl := not_not.mp hglobal
      exact h.deliver_bool x hctx hexec hs'
  | double x =>
    obtain ⟨context, hctx, hplan⟩ := bind_eq_some_iff.mp hplan
    cases hplan
    simp only [Op.items, hctx]
    exact h.deliver_double hfloat hctx (fun huis => hfaithful (huis ▸ hctx)) hexec hs'
  | lstring data =>
    obtain ⟨context, hctx, hplan⟩ := bind_eq_some_iff.mp hplan
    cases hplan
    cases henc : stringEncoding context with
    | none =>
      simp only [henc] at hexec
      cases hexec
    | some enc =>
      simp only [henc] at hexec
      simp only [Op.items, hctx, bind_some, henc, stringItems]
      have hctx' : s.getctxid.bind stringEncoding = some enc := by
        show (s.topframe.getctxid s.classcoll).bind stringEncoding = some enc
        rw [hctx]
        exact henc
      by_cases hshort : data.length ≤ enc.largeLimit
      · rw [if_pos hshort]
        exact h.deliver_string hctx henc hshort hexec hs'
      · rw [if_neg hshort]
        refine h.deliver_longString hctx henc hshort (stringEncoding_valid henc) (fun hfull => ?_)
          hexec hs'
        exact hshort (hfaithful hfull enc hctx')
  | null => exact h.deliver_null hfaithful hplan hexec hs'
  | raw data => exact absurd hwf id

/-! ## Runs -/

/-- Every call of a run is one the deserializer can follow, in the context it is
made in. -/
def FaithfulRun : SCtx (List UInt8) → List Op → Prop
  | _, [] => True
  | c, op :: ops => op.Faithful c ∧
    match op.apply acceptAll c with
    | some (_, c) => FaithfulRun c ops
    | none => True

def runItems : SCtx (List UInt8) → List Op → List Item
  | _, [] => []
  | c, op :: ops => op.items c.topframe c.classcoll ++
    match op.apply acceptAll c with
    | some (_, c) => runItems c ops
    | none => []

theorem faithfulRun_of_all (c : SCtx (List UInt8)) {ops : List Op}
    (h : ∀ op ∈ ops, ∀ c, op.Faithful c) : FaithfulRun c ops := by
  induction ops generalizing c with
  | nil => trivial
  | cons op ops ih =>
    refine ⟨h op (mem_cons_self ..) c, ?_⟩
    split
    · exact ih _ fun op hop => h op (mem_cons_of_mem _ hop)
    · trivial

theorem Sync.run (hfloat : FloatChoicePreserves) {ops : List Op} {sts : List Status}
    (h : Sync s d) (hwf : ∀ op ∈ ops, op.WellFormed) (hfaithful : FaithfulRun s ops)
    (hrun : runAll s ops = some (sts, s')) (hok : ∀ st ∈ sts, st = .eok) :
    Delivered s s' d (runItems s ops) := by
  induction ops generalizing s d sts with
  | nil =>
    cases hrun
    exact ⟨[], d, (append_nil _).symm, h, fun x => ⟨x, .done d x⟩⟩
  | cons op ops ih =>
    obtain ⟨⟨st, s₁⟩, happly, hrun⟩ := bind_eq_some_iff.mp hrun
    obtain ⟨⟨sts', s₂⟩, hrest, hrun⟩ := bind_eq_some_iff.mp hrun
    obtain ⟨rfl, rfl⟩ := Prod.mk.inj (Option.some.inj hrun)
    obtain rfl : st = .eok := hok st (mem_cons_self ..)
    obtain ⟨hstep, hfaithful⟩ := hfaithful
    simp only [happly] at hfaithful
    obtain ⟨bytes, d₁, hwrote, hsync, hreads⟩ :=
      h.step hfloat (hwf op (mem_cons_self ..)) hstep happly
    obtain ⟨bytes', d₂, hwrote', hsync', hreads'⟩ := ih hsync
      (fun op hop => hwf op (mem_cons_of_mem _ hop)) hfaithful hrest
      (fun st hst => hok st (mem_cons_of_mem _ hst))
    refine ⟨bytes ++ bytes', d₂, ?_, hsync', fun x => ?_⟩
    · rw [hwrote', hwrote, append_assoc]
    · obtain ⟨x₁, hx₁⟩ := hreads x
      obtain ⟨x₂, hx₂⟩ := hreads' x₁
      simp only [runItems, happly]
      exact ⟨x₂, hx₁.trans hx₂⟩

/-- What was serialized from a fresh context is read by a fresh one as exactly the
items of the calls, up to the last byte and with every container closed. -/
theorem readAll_runAll (hfloat : FloatChoicePreserves) (memory memory' : Stack) (x : Data)
    {ops : List Op} {sts : List Status} {c : SCtx (List UInt8)}
    (hwf : ∀ op ∈ ops, op.WellFormed) (hfaithful : FaithfulRun (bssInit [] memory) ops)
    (hrun : runAll (bssInit [] memory) ops = some (sts, c)) (hok : ∀ st ∈ sts, st = .eok)
    (hclosed : c.stacksize = 0) {fuel : Nat}
    (hfuel : (runItems (bssInit [] memory) ops).length < fuel) :
    ∃ d, readAll fuel (bsdInit memory') x c.writerctx = some (runItems (bssInit [] memory) ops, d)
      ∧ d.stacksize = 0 := by
  obtain ⟨bytes, d, hwrote, hsync, hreads⟩ :=
    (bssInit_sync memory memory').run hfloat hwf hfaithful hrun hok
  obtain ⟨x', hx'⟩ := hreads x
  have hend : d.stacksize = 0 := hsync.size.trans hclosed
  have hbytes : c.writerctx = bytes := hwrote
  refine ⟨d, ?_, hend⟩
  rw [hbytes]
  exact hx'.readAll hend hfuel

end

@[reducible] def oneAndAHalf : CFloat where
  toFloat := fun x => if x = 0x3ff8000000000000 then 0x3fc00000 else 0
  ofFloat := fun f => if f = 0x3fc00000 then 0x3ff8000000000000 else 0
  eq := fun x y => x == y
  toInt64 := fun x => if x = 0x3ff8000000000000 then 1 else 0
  ofInt64 := fun y => if y = 1 then 0x3ff0000000000000 else 0

/-- A `bsd_data_t` nobody wrote to. -/
def blankData : Data := { type := .null, kind := .toplevel, fieldname := none, content := .junk }

theorem readAll_runAll_map :
    ∃ d, @readAll oneAndAHalf 9 (bsdInit blankStack) blankData
        [0x57, 0x02, 0x03, 0x61, 0x62, 0xfe, 0x3f, 0xc0, 0x00, 0x00, 0x00]
      = some ([.zmap, .string [0x61, 0x62], .double 0x3ff8000000000000, .close .zmap], d)
      ∧ d.stacksize = 0 := by
  let _ := oneAndAHalf
  let ops : List Op :=
    [.map (-1) .number, .lstring [0x61, 0x62], .double 0x3ff8000000000000, .close]
  have hwf : ∀ op ∈ ops, op.WellFormed := by simp [ops, Op.WellFormed]
  have hfaithful : ∀ op ∈ ops, ∀ c, op.Faithful c := by
    intro op hop c
    simp only [ops, mem_cons, not_mem_nil, or_false] at hop
    rcases hop with rfl | rfl | rfl | rfl
    · trivial
    · intro _ enc henc
      obtain ⟨context, -, henc⟩ := bind_eq_some_iff.mp henc
      exact Nat.le_trans (by decide) (stringEncoding_largeLimit henc)
    · intro _ heq
      exact absurd heq (by decide)
    · trivial
  have hrun : (runAll (bssInit [] blankStack) ops).map
      (fun r => (r.1, r.2.stacksize, r.2.writerctx))
      = some ([.eok, .eok, .eok, .eok], 0,
          [0x57, 0x02, 0x03, 0x61, 0x62, 0xfe, 0x3f, 0xc0, 0x00, 0x00, 0x00]) := by
    decide +kernel
  have hitems : runItems (bssInit [] blankStack) ops
      = [.zmap, .string [0x61, 0x62], .double 0x3ff8000000000000, .close .zmap] := by
    decide +kernel
  obtain ⟨⟨sts, c⟩, hrun, hr⟩ := map_eq_some_iff.mp hrun
  obtain ⟨hsts, hr⟩ := Prod.mk.inj hr
  obtain ⟨hsize, hwrote⟩ := Prod.mk.inj hr
  have hok : ∀ st ∈ sts, st = .eok := by
    have hsts' : sts = [.eok, .eok, .eok, .eok] := hsts
    rw [hsts']
    decide
  have hread := readAll_runAll (fun x hx => eq_of_beq hx) blankStack blankStack blankData hwf
    (faithfulRun_of_all _ hfaithful) hrun hok hsize
    (by rw [hitems]; decide : (runItems (bssInit [] blankStack) ops).length < 9)
  have hwrote' : c.writerctx
      = [0x57, 0x02, 0x03, 0x61, 0x62, 0xfe, 0x3f, 0xc0, 0x00, 0x00, 0x00] := hwrote
  rw [hwrote', hitems] at hread
  exact hread

/-- An integer of 33 bits in a list of unsigned integers loses its first bit. -/
theorem readAll_unsigned_truncated :
    let _ := oneAndAHalf
    let ops : List Op := [.list (-1) .unsignedOrString, .int 0x100000000, .close]
    (runAll (bssInit [] blankStack) ops).map (fun r => (r.1, r.2.stacksize, r.2.writerctx))
        = some ([.eok, .eok, .eok], 0, [0x40, 0x01, 0x3b, 0x00])
      ∧ runItems (bssInit [] blankStack) ops = [.zlist, .int 0x100000000, .close .zlist]
      ∧ (readAll 9 (bsdInit blankStack) blankData [0x40, 0x01, 0x3b, 0x00]).map Prod.fst
        = some [.zlist, .int 0, .close .zlist] := by
  decide +kernel

end Mihini.Bysant
