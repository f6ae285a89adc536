import Mihini.Bysant.Lockstep

/-!
# What a decoding depends on

A deserializer never looks at the frames above its stack, nor at the members of a frame that
its kind does not have.  Two contexts that agree on the rest read the same elements from the
same bytes, and go on agreeing: `bsdRead_alike`.  An element that is not a class definition
leaves the classes as they are.
-/

namespace Mihini.Bysant

open Option

/-! ## Contexts that agree -/

/-- The frames have the same meaning: the content of a frame is that of a map or of an object. -/
structure FrameAlike (f g : Frame) : Prop where
  kind : f.kind = g.kind
  ctxid : f.ctxid = g.ctxid
  missing : f.missing = g.missing
  content : f.kind.isMap = true ∨ f.kind = .object → f.content = g.content

structure Frame.Bottom (f : Frame) : Prop where
  kind : f.kind = .top
  ctxid : f.ctxid = .global
  missing : f.missing = -1

/-- The contexts agree on the frames in use and on those up to `m`. -/
structure Alike (m : Nat) (c c' : DCtx) : Prop where
  stacksize : c.stacksize = c'.stacksize
  classcoll : c.classcoll = c'.classcoll
  nalloc : c.nalloc = c'.nalloc
  frames : ∀ i, i ≤ c.stacksize ∨ i ≤ m → FrameAlike (c.stack i) (c'.stack i)
  bottom : (c.stack 0).Bottom

def SameClasses (base c : DCtx) : Prop :=
  c.classcoll = base.classcoll ∧ c.nalloc = base.nalloc

theorem SameClasses.trans {c c' c'' : DCtx} (h : SameClasses c c') (h' : SameClasses c' c'') :
    SameClasses c c'' :=
  ⟨h'.1.trans h.1, h'.2.trans h.2⟩

/-- The results of a decoding in two contexts, which started with the classes of `base`. -/
inductive Likewise (m : Nat) (base : DCtx) : Option DRes → Option DRes → Prop
  | none : Likewise m base none none
  | some {n : Int} {x : Data} {c c' : DCtx} (h : Alike m c c')
      (hkept : x.type ≠ .error → n ≤ 0 ∨ x.type ≠ .classdef → SameClasses base c) :
    Likewise m base (some (n, x, c)) (some (n, x, c'))

namespace FrameAlike

variable {f g : Frame}

theorem refl (f : Frame) : FrameAlike f f := ⟨rfl, rfl, rfl, fun _ => rfl⟩

theorem even (h : FrameAlike f g) (hmap : f.kind.isMap = true) : f.even = g.even := by
  rw [Frame.even, Frame.even, h.content (Or.inl hmap)]

theorem classdef (h : FrameAlike f g) (hkind : f.kind = .object) (coll : ClassColl) :
    f.classdef coll = g.classdef coll := by
  rw [Frame.classdef, Frame.classdef, h.content (Or.inr hkind)]

theorem getctxid (h : FrameAlike f g) (coll : ClassColl) :
    f.getctxid coll = g.getctxid coll := by
  unfold Frame.getctxid
  rw [← h.kind]
  cases hk : f.kind with
  | map => simp only [h.even (by rw [hk]; rfl), h.ctxid]
  | zmap => simp only [h.even (by rw [hk]; rfl), h.ctxid]
  | object => simp only [h.classdef hk, h.missing]
  | top => simp only [h.ctxid]
  | list => simp only [h.ctxid]
  | zlist => simp only [h.ctxid]
  | chunked => simp only [h.ctxid]
  | classdef => simp only [h.ctxid]

theorem dataKind (h : FrameAlike f g) : bsdGetFrameDataKind f = bsdGetFrameDataKind g := by
  unfold bsdGetFrameDataKind
  rw [← h.kind]
  cases hk : f.kind with
  | map => simp only [h.even (by rw [hk]; rfl)]
  | zmap => simp only [h.even (by rw [hk]; rfl)]
  | object => rfl
  | top => rfl
  | list => rfl
  | zlist => rfl
  | chunked => rfl
  | classdef => rfl

end FrameAlike

variable {f g : Frame}

theorem FrameAlike.count (h : FrameAlike f g) :
    (countElement f = none ∧ countElement g = none) ∨
      ∃ f' g', countElement f = some f' ∧ countElement g = some g' ∧ FrameAlike f' g' := by
  have hless : FrameAlike (if 0 < f.missing then { f with missing := f.missing - 1 } else f)
      (if 0 < g.missing then { g with missing := g.missing - 1 } else g) := by
    rw [← h.missing]
    split
    · exact ⟨h.kind, h.ctxid, rfl, h.content⟩
    · exact h
  unfold countElement
  generalize (if 0 < f.missing then { f with missing := f.missing - 1 } else f) = f at hless
  generalize (if 0 < g.missing then { g with missing := g.missing - 1 } else g) = g at hless
  simp only [← hless.kind]
  by_cases hmap : f.kind.isMap = true
  · rw [if_pos hmap, if_pos hmap, Frame.toggle, Frame.toggle, ← hless.even hmap]
    cases f.even with
    | none => exact Or.inl ⟨rfl, rfl⟩
    | some even =>
      exact Or.inr ⟨_, _, rfl, rfl, hless.kind, hless.ctxid, hless.missing, fun _ => rfl⟩
  · rw [if_neg hmap, if_neg hmap]
    exact Or.inr ⟨f, g, rfl, rfl, hless⟩

namespace Alike

variable {m : Nat} {c c' : DCtx}

theorem refl (m : Nat) (hbottom : (c.stack 0).Bottom) : Alike m c c :=
  ⟨rfl, rfl, rfl, fun _ _ => .refl _, hbottom⟩

theorem trans {c'' : DCtx} (h : Alike m c c') (h' : Alike m c' c'') : Alike m c c'' where
  stacksize := h.stacksize.trans h'.stacksize
  classcoll := h.classcoll.trans h'.classcoll
  nalloc := h.nalloc.trans h'.nalloc
  frames i hi := by
    have hf := h.frames i hi
    have hg := h'.frames i (by rwa [← h.stacksize])
    exact ⟨hf.kind.trans hg.kind, hf.ctxid.trans hg.ctxid, hf.missing.trans hg.missing,
      fun hk => (hf.content hk).trans (hg.content (by rwa [← hf.kind]))⟩
  bottom := h.bottom

theorem top (h : Alike m c c') : FrameAlike c.topframe c'.topframe := by
  rw [DCtx.topframe, DCtx.topframe, ← h.stacksize]
  exact h.frames _ (Or.inl (Nat.le_refl _))

theorem pop (h : Alike m c c') : Alike m c.pop c'.pop where
  stacksize := congrArg (· - 1) h.stacksize
  classcoll := h.classcoll
  nalloc := h.nalloc
  frames i hi := by
    refine h.frames i ?_
    rcases hi with hi | hi
    · exact Or.inl (Nat.le_trans hi (Nat.sub_le _ _))
    · exact Or.inr hi
  bottom := h.bottom

theorem push (h : Alike m c c') {f f' : Frame → Frame}
    (hf : FrameAlike (f (c.stack (c.stacksize + 1))) (f' (c'.stack (c.stacksize + 1)))) :
    Alike m
      { c with stacksize := c.stacksize + 1, stack := c.stack.modify (c.stacksize + 1) f }
      { c' with
        stacksize := c'.stacksize + 1, stack := c'.stack.modify (c'.stacksize + 1) f' } where
  stacksize := congrArg (· + 1) h.stacksize
  classcoll := h.classcoll
  nalloc := h.nalloc
  frames i hi := by
    show FrameAlike (c.stack.modify _ f i) (c'.stack.modify _ f' i)
    rw [← h.stacksize]
    by_cases htop : i = c.stacksize + 1
    · subst htop
      rw [Stack.modify_same, Stack.modify_same]
      exact hf
    rw [Stack.modify_of_ne _ htop, Stack.modify_of_ne _ htop]
    refine h.frames i ?_
    rcases hi with hi | hi
    · exact Or.inl (by simp only at hi; omega)
    · exact Or.inr hi
  bottom := by
    show (c.stack.modify (c.stacksize + 1) f 0).Bottom
    rw [Stack.modify_of_ne c.stack (Nat.succ_ne_zero c.stacksize).symm]
    exact h.bottom

/-- `dOpenContainer`, for the kinds whose content it sets. -/
theorem open_ (h : Alike m c c') {kind : FrameKind} (hkind : kind ≠ .object) (ctxid : CtxId)
    (missing : Int) :
    (dOpenContainer c kind ctxid missing = none ∧ dOpenContainer c' kind ctxid missing = none) ∨
      ∃ st d d', dOpenContainer c kind ctxid missing = some (st, d) ∧
        dOpenContainer c' kind ctxid missing = some (st, d') ∧ Alike m d d' ∧ SameClasses c d := by
  have hpush (n : Int) : Alike m (c.push kind ctxid n) (c'.push kind ctxid n) :=
    h.push ⟨rfl, rfl, rfl, fun hk => by
      have hmap : kind.isMap = true := hk.resolve_right hkind
      show (if kind.isMap then FrameContent.map true else _) = if kind.isMap then _ else _
      rw [if_pos hmap, if_pos hmap]⟩
  by_cases hdeep : c.stacksize = bsdStackSize - 1
  · refine Or.inr ⟨.etoodeep, c, c', ?_, ?_, h, rfl, rfl⟩
    · rw [dOpenContainer, if_pos hdeep]
    · rw [dOpenContainer, ← h.stacksize, if_pos hdeep]
  have hdeep' : c'.stacksize ≠ bsdStackSize - 1 := by
    rw [← h.stacksize]
    exact hdeep
  by_cases hmap : kind.isMap = true
  · by_cases hfits : -2 ^ 31 ≤ missing * 2 ∧ missing * 2 < 2 ^ 31
    · exact Or.inr ⟨_, _, _, dOpenContainer_map hdeep hmap ctxid hfits,
        dOpenContainer_map hdeep' hmap ctxid hfits, hpush _, rfl, rfl⟩
    · have hover (d : DCtx) (hd : d.stacksize ≠ bsdStackSize - 1) :
          dOpenContainer d kind ctxid missing = none := by
        simp only [dOpenContainer, if_neg hd, if_pos hmap, cint, if_neg hfits,
          bind_eq_bind, bind_none]
      exact Or.inl ⟨hover c hdeep, hover c' hdeep'⟩
  · rw [Bool.not_eq_true] at hmap
    exact Or.inr ⟨_, _, _, dOpenContainer_ok hdeep hmap ctxid missing,
      dOpenContainer_ok hdeep' hmap ctxid missing, hpush _, rfl, rfl⟩

end Alike

/-! ## Rules for the checks -/

namespace Likewise

variable {m : Nat} {base c c' : DCtx} {x : Data} {a a' b b' : Option DRes}

theorem pure (n : Int) (x : Data) (h : Alike m c c') :
    Likewise m c (Option.some (n, x, c)) (Option.some (n, x, c')) :=
  .some h fun _ _ => ⟨rfl, rfl⟩

theorem error (x : Data) (h : Alike m c c') (cause : BsdStatus) :
    Likewise m base (bsdError x c cause) (bsdError x c' cause) :=
  .some h fun herr => absurd rfl herr

theorem rebase (h : Likewise m c a a') (hc : SameClasses base c) : Likewise m base a a' := by
  cases h with
  | none => exact .none
  | some h hkept =>
    exact .some h fun herr hn => hc.trans (hkept herr hn)

theorem ite (p : Prop) [Decidable p] (ha : Likewise m base a a') (hb : Likewise m base b b') :
    Likewise m base (if p then a else b) (if p then a' else b') := by
  by_cases hp : p
  · rwa [if_pos hp, if_pos hp]
  · rwa [if_neg hp, if_neg hp]

theorem bind {α : Type} (o : Option α) {k k' : α → Option DRes}
    (h : ∀ v, Likewise m base (k v) (k' v)) : Likewise m base (o.bind k) (o.bind k') := by
  cases o with
  | none => exact .none
  | some v => exact h v

theorem checkLength (length n : Int) (x : Data) (hc : Alike m c c') (h : Likewise m c a a') :
    Likewise m c (checkLength length n x c a) (checkLength length n x c' a') :=
  .ite _ (.pure _ _ hc) h

theorem checkDecode {k k' : Data → DCtx → Option DRes} (h : Likewise m base a a')
    (hk : ∀ x c c', Alike m c c' → Likewise m c (k x c) (k' x c')) :
    Likewise m base (checkDecode a k) (checkDecode a' k') := by
  cases h with
  | none => exact .none
  | @some n x c c' h hkept =>
    unfold Bysant.checkDecode
    simp only [bind_eq_bind, bind_some]
    by_cases hn : n ≠ 0
    · rw [if_pos hn, if_pos hn]
      exact .some h hkept
    rw [if_neg hn, if_neg hn]
    by_cases herr : x.type = .error
    · rw [if_pos herr, if_pos herr]
      exact .some h fun hne => absurd herr hne
    · rw [if_neg herr, if_neg herr]
      exact (hk x c c' h).rebase (hkept herr (Or.inl (by omega)))

theorem checkSubdecode {nread : Int} {expected : DataType} {k k' : Int → Data → DCtx → Option DRes}
    (h : Likewise m base a a') (hexpected : expected ≠ .error ∧ expected ≠ .classdef)
    (hk : ∀ n x c c', nread < n → Alike m c c' → Likewise m c (k n x c) (k' n x c')) :
    Likewise m base (checkSubdecode nread a expected k) (checkSubdecode nread a' expected k') := by
  cases h with
  | none => exact .none
  | @some sub x c c' h hkept =>
    unfold Bysant.checkSubdecode
    simp only [bind_eq_bind, bind_some]
    by_cases hsub : sub ≤ 0
    · rw [if_pos hsub, if_pos hsub]
      exact .some h fun herr _ => hkept herr (Or.inl hsub)
    rw [if_neg hsub, if_neg hsub]
    by_cases htype : x.type ≠ expected
    · rw [if_pos htype, if_pos htype]
      exact .error x h _
    · rw [if_neg htype, if_neg htype]
      have heq : x.type = expected := not_not.mp htype
      exact (hk _ x c c' (by omega) h).rebase
        (hkept (heq ▸ hexpected.1) (Or.inr (heq ▸ hexpected.2)))

theorem checkOpen (hc : Alike m c c') {kind : FrameKind} (hkind : kind ≠ .object) (ctxid : CtxId)
    (missing : Int) (x : Data) {k k' : DCtx → Option DRes}
    (hk : ∀ d d', Alike m d d' → Likewise m d (k d) (k' d')) :
    Likewise m c (checkOpen x (dOpenContainer c kind ctxid missing) k)
      (checkOpen x (dOpenContainer c' kind ctxid missing) k') := by
  unfold Bysant.checkOpen
  rcases hc.open_ hkind ctxid missing with ⟨hnone, hnone'⟩ | ⟨st, d, d', hd, hd', h, hsame⟩
  · rw [hnone, hnone']
    exact .none
  · rw [hd, hd']
    exact .ite _ ((hk d d' h).rebase hsame) (.error x h _)

theorem fixed (hc : Alike m c c') (x : Data) (buf : List UInt8) (length : Int) (n : Nat)
    (k : List UInt8 → Data) :
    Likewise m c (decodeFixed c x buf length n k) (decodeFixed c' x buf length n k) :=
  .checkLength length n x hc (.bind _ fun _ => .pure _ _ hc)

end Likewise

/-! ## The decoding routines -/

section
variable {m : Nat} {c c' : DCtx}

theorem decodeText_alike (h : Alike m c c') (x : Data) (buf : List UInt8) (length : Int)
    (header : Nat) (len : List UInt8 → Nat) :
    Likewise m c (decodeText c x buf length header len) (decodeText c' x buf length header len) :=
  .checkLength length header x h (.bind _ fun _ => .fixed h x buf length _ _)

theorem decodeItem_alike (h : Alike m c c') (x : Data) (buf : List UInt8) (length : Int) (n : Nat)
    (k : Int → Int) :
    Likewise m c (decodeItem c x buf length n k) (decodeItem c' x buf length n k) :=
  .fixed h x buf length n _

theorem decodeInteger_alike (h : Alike m c c') (x : Data) (buf : List UInt8) (length : Int)
    (enc : IntegerEncoding) :
    Likewise m c (decodeInteger c x buf length enc) (decodeInteger c' x buf length enc) := by
  unfold decodeInteger
  refine .bind _ fun op => .checkLength length 1 x h ?_
  have hitem (n : Nat) (k : Int → Int) := decodeItem_alike h { x with type := .int } buf length n k
  exact .ite _ (hitem _ _) <| .ite _ (hitem _ _) <| .ite _ (hitem _ _) <| .ite _ (hitem _ _) <|
    .ite _ (hitem _ _) <| .ite _ (hitem _ _) <| .ite _ (hitem _ _) <| .ite _ (hitem _ _) <|
    .ite _ (hitem _ _) <| .pure _ _ h

theorem decodeString_alike (h : Alike m c c') (x : Data) (buf : List UInt8) (length : Int)
    (enc : StringEncoding) :
    Likewise m c (decodeString c x buf length enc) (decodeString c' x buf length enc) := by
  unfold decodeString
  refine .bind _ fun op => .checkLength length 1 x h ?_
  exact .ite _ (decodeText_alike h _ buf length _ _) <| .ite _ (decodeText_alike h _ buf length _ _)
    <| .ite _ (decodeText_alike h _ buf length _ _) <|
    .ite _ (.checkOpen h (show FrameKind.chunked ≠ .object from nofun) _ _ _ fun _ _ hd =>
      .pure _ _ hd) <| .pure _ _ h

theorem decodedNull_alike (h : Alike m c c') (n : Int) (x : Data) :
    Likewise m c (decodedNull n c x) (decodedNull n c' x) := by
  have htop := h.top
  have hclose (y : Data) : Likewise m c (some (n, y, c.pop)) (some (n, y, c'.pop)) :=
    .some h.pop fun _ _ => ⟨rfl, rfl⟩
  have hkind : bsdTypeFromFrameKind c'.topframe.kind = bsdTypeFromFrameKind c.topframe.kind := by
    rw [htop.kind]
  simp only [decodedNull, decodeNull, hkind]
  rw [← htop.kind]
  cases hk : c.topframe.kind with
  | zlist => exact hclose _
  | zmap =>
    simp only [← htop.even (by rw [hk]; rfl)]
    cases c.topframe.even with
    | none => exact .none
    | some even =>
      cases even with
      | true => exact hclose _
      | false => exact .pure _ _ h
  | top => exact .pure _ _ h
  | map => exact .pure _ _ h
  | object => exact .pure _ _ h
  | list => exact .pure _ _ h
  | chunked => exact .pure _ _ h
  | classdef => exact .pure _ _ h

theorem bsdUis_alike (h : Alike m c c') (x : Data) (buf : List UInt8) (length : Int) :
    Likewise m c (bsdUis c x buf length) (bsdUis c' x buf length) := by
  unfold bsdUis
  refine .checkLength length 1 x h <| .bind _ fun op => ?_
  refine .checkDecode (decodeString_alike h x buf length _) fun x c c' h => ?_
  unfold decodeUnsigned
  have hitem (n : Nat) (k : Int → Int) := decodeItem_alike h { x with type := .int } buf length n k
  exact .ite _ (hitem _ _) <| .ite _ (hitem _ _) <| .ite _ (hitem _ _) <| .ite _ (hitem _ _) <|
    .ite _ (hitem _ _) <| .ite _ (decodedNull_alike h 1 _) (.error _ h _)

structure CollEncoding.NoObject (enc : CollEncoding) : Prop where
  fixed : enc.fixedKind ≠ .object
  variable_ : enc.variableKind ≠ .object

theorem decodeCollection_alike (h : Alike m c c') (x : Data) (buf : List UInt8) (length : Int)
    {enc : CollEncoding} (henc : enc.NoObject) :
    Likewise m c (decodeCollection c x buf length enc) (decodeCollection c' x buf length enc) := by
  have hfixed {c c' : DCtx} (h : Alike m c c') (n : Int) (x : Data) (ctxid : CtxId) (len : Nat) :
      Likewise m c (openFixed n c x enc ctxid len) (openFixed n c' x enc ctxid len) :=
    .checkOpen h henc.fixed _ _ _ fun _ _ hd => .pure _ _ hd
  have hvariable (n : Int) (ctxid : CtxId) :
      Likewise m c (openVariable n c x enc ctxid) (openVariable n c' x enc ctxid) :=
    .checkOpen h henc.variable_ _ _ _ fun _ _ hd => .pure _ _ hd
  have huis := bsdUis_alike h x (buf.drop 1) (length + 1)
  unfold decodeCollection
  refine .bind _ fun op => .checkLength length 1 x h ?_
  refine .ite _ (hfixed h _ _ _ _) <| .ite _ (hfixed h _ _ _ _) <| .ite _ ?_ <|
    .ite _ (hvariable _ _) <| .ite _ ?_ <| .ite _ ?_ <| .ite _ ?_ (.pure _ _ h)
  · exact .checkSubdecode huis ⟨nofun, nofun⟩ fun n x c c' _ h =>
      .bind _ fun i => hfixed h _ _ _ _
  · exact .checkLength length 2 x h <| .bind _ fun ctxid => hfixed h _ _ _ _
  · exact .checkSubdecode huis ⟨nofun, nofun⟩ fun n x c c' _ h =>
      .checkLength length _ x h <| .bind _ fun i => .bind _ fun ctxid => hfixed h _ _ _ _
  · exact .checkLength length 2 x h <| .bind _ fun ctxid => hvariable _ _

theorem finishClass_alike (h : Alike m c c') (classid : Int) (name : Option (List UInt8))
    {n : Int} (hn : 0 < n) (x : Data) (fields : List BsField) :
    Likewise m c (finishClass classid name n x c fields)
      (finishClass classid name n x c' fields) := by
  simp only [finishClass, bsdAddClass, ← h.nalloc, ← h.classcoll]
  cases c.classcoll.bsClasscollSet ⟨c.nalloc, UInt32.ofNat classid.toNat, name, .managed, fields⟩ with
  | none => exact .none
  | some coll =>
    refine .some ⟨h.stacksize, rfl, rfl, h.frames, h.bottom⟩ fun _ hn' => ?_
    exact absurd rfl (hn'.resolve_left (by omega))

theorem decodeFields_alike (named : Bool) (buf : List UInt8) (length : Int)
    {k : Int → Data → DCtx → List BsField → Option DRes}
    (hk : ∀ {c c'} n x fields, 0 < n → Alike m c c' →
      Likewise m c (k n x c fields) (k n x c' fields))
    (nfields : Nat) {c c' : DCtx} (h : Alike m c c') {n : Int} (hn : 0 < n) (x : Data)
    (fields : List BsField) :
    Likewise m c (decodeFields named buf length k nfields n x c fields)
      (decodeFields named buf length k nfields n x c' fields) := by
  induction nfields generalizing n x c c' fields with
  | zero => exact hk n x fields hn h
  | succ nfields ih =>
    have hbyte {n : Int} (hn : 0 < n) {c c' : DCtx} (h : Alike m c c') (x : Data)
        (name : Option (List UInt8)) :
        Likewise m c
          (checkLength length (n + 1) x c ((buf[n.toNat]?).bind fun ctxid =>
            decodeFields named buf length k nfields (n + 1) x c
              (fields ++ [{ name := name, ctxid := .ofByte ctxid }])))
          (checkLength length (n + 1) x c' ((buf[n.toNat]?).bind fun ctxid =>
            decodeFields named buf length k nfields (n + 1) x c'
              (fields ++ [{ name := name, ctxid := .ofByte ctxid }]))) :=
      .checkLength length (n + 1) x h <| .bind _ fun _ => ih h (by omega) x _
    unfold decodeFields
    refine .ite _ ?_ (hbyte hn h x none)
    exact .checkSubdecode (bsdUis_alike h x _ _) ⟨by rintro ⟨⟩, by rintro ⟨⟩⟩ fun n' x c c' hlt h =>
      .bind _ fun name => hbyte (by omega) h x _

theorem decodeClassFields_alike (named : Bool) (buf : List UInt8) (length classid : Int)
    (h : Alike m c c') {n : Int} (hn : 0 < n) (x : Data) (name : Option (List UInt8)) :
    Likewise m c (decodeClassFields named buf length classid n x c name)
      (decodeClassFields named buf length classid n x c' name) := by
  unfold decodeClassFields
  refine .checkSubdecode (bsdUis_alike h x _ _) ⟨nofun, nofun⟩ fun n' x c c' hlt h => ?_
  refine .bind _ fun nfields => decodeFields_alike named buf length ?_ _ h (by omega) x []
  exact fun n x fields hn h => finishClass_alike h classid name hn x fields

theorem decodeClass_alike (h : Alike m c c') (x : Data) (buf : List UInt8) (length : Int) :
    Likewise m c (decodeClass c x buf length) (decodeClass c' x buf length) := by
  unfold decodeClass
  refine .checkLength length 1 x h <| .bind _ fun op => .ite _ (.pure _ _ h) ?_
  refine .checkSubdecode (bsdUis_alike h x _ _) ⟨nofun, nofun⟩ fun n x c c' hn h => ?_
  refine .bind _ fun classid => .ite _ ?_ (decodeClassFields_alike _ _ _ _ h (by omega) x _)
  exact .checkSubdecode (bsdUis_alike h x _ _) ⟨nofun, nofun⟩ fun n' x c c' hn' h =>
    .bind _ fun name => decodeClassFields_alike _ _ _ _ h (by omega) x _

theorem decodeFloats_alike [CFloat] (h : Alike m c c') (op : Int) (x : Data) (buf : List UInt8)
    (length : Int) :
    Likewise m c (decodeFloats op c x buf length) (decodeFloats op c' x buf length) :=
  .ite _ (.fixed h x buf length _ _) <| .ite _ (.fixed h x buf length _ _) (.error x h _)

/-- An object puts its class into the new frame. -/
theorem instantiate_alike (h : Alike m c c') (n : Int) (x : Data) (classid : UInt32) :
    Likewise m c (instantiate n x c classid) (instantiate n x c' classid) := by
  simp only [instantiate, bsdObject, ← h.classcoll]
  cases c.classcoll.bsClasscollGet classid with
  | none => exact .none
  | some found =>
    cases found with
    | none => exact .error x h _
    | some klass =>
      simp only [bind_eq_bind, bind_some]
      cases c.classcoll.deref klass with
      | none => exact .none
      | some cls =>
        by_cases hdeep : c.stacksize = bsdStackSize - 1
        · have hdeep' : c'.stacksize = bsdStackSize - 1 := h.stacksize ▸ hdeep
          simp only [dOpenContainer, if_pos hdeep, if_pos hdeep', bind_some]
          exact .none
        have hdeep' : c'.stacksize ≠ bsdStackSize - 1 := h.stacksize ▸ hdeep
        have hopen {d : DCtx} (hd : d.stacksize ≠ bsdStackSize - 1) :=
          dOpenContainer_ok hd (show FrameKind.object.isMap = false from rfl) .global cls.nfields
        simp only [bind_some, hopen hdeep, hopen hdeep', if_true, DCtx.push,
          Stack.modify_modify]
        exact .some (h.push ⟨rfl, rfl, rfl, fun _ => rfl⟩) fun _ _ => ⟨rfl, rfl⟩

theorem decodeOther_alike [CFloat] (h : Alike m c c') (op : Int) (x : Data) (buf : List UInt8)
    (length : Int) :
    Likewise m c (decodeOther op c x buf length) (decodeOther op c' x buf length) := by
  unfold decodeOther
  refine .ite _ (instantiate_alike h _ x _) <| .ite _ (decodedNull_alike h 1 x) <|
    .ite _ (.pure _ _ h) <| .ite _ (.pure _ _ h) <| .ite _ ?_ (decodeFloats_alike h op x buf length)
  exact .checkSubdecode (bsdUis_alike h x _ _) ⟨nofun, nofun⟩ fun n x c c' _ h =>
    .bind _ fun i => instantiate_alike h n x _

theorem bsdGlobal_alike [CFloat] (h : Alike m c c') (x : Data) (buf : List UInt8) (length : Int) :
    Likewise m c (bsdGlobal c x buf length) (bsdGlobal c' x buf length) := by
  unfold bsdGlobal
  refine .checkLength length 1 x h <| .bind _ fun op => ?_
  refine .checkDecode (decodeInteger_alike h x buf length _) fun x c c' h => ?_
  refine .checkDecode (decodeString_alike h x buf length _) fun x c c' h => ?_
  refine .checkDecode (decodeCollection_alike h x buf length ⟨nofun, nofun⟩) fun x c c' h => ?_
  refine .checkDecode (decodeCollection_alike h x buf length ⟨nofun, nofun⟩) fun x c c' h => ?_
  refine .checkDecode (decodeClass_alike h x buf length) fun x c c' h => ?_
  exact decodeOther_alike h op x buf length

theorem decodeEscaped_alike (h : Alike m c c') (x : Data) (buf : List UInt8) (length : Int)
    (n : Nat) (escape : Int) (k : Int → Data) :
    Likewise m c (decodeEscaped c x buf length n escape k)
      (decodeEscaped c' x buf length n escape k) := by
  unfold decodeEscaped
  refine .checkLength length n x h <| .bind _ fun word => .ite _ ?_ (.pure _ _ h)
  refine .checkLength length (n + 1) _ h <| .bind _ fun b => ?_
  exact .ite _ (decodedNull_alike h _ _) <| .ite _ (.pure _ _ h) (.error _ h _)

theorem bsdContext_alike [CFloat] (h : Alike m c c') (ctxid : CtxId) (x : Data) (buf : List UInt8)
    (length : Int) :
    Likewise m c (bsdContext ctxid c x buf length) (bsdContext ctxid c' x buf length) := by
  cases ctxid with
  | global => exact bsdGlobal_alike h x buf length
  | unsignedOrString => exact bsdUis_alike h x buf length
  | number =>
    refine .checkLength length 1 x h <| .bind _ fun op => ?_
    refine .checkDecode (decodeInteger_alike h x buf length _) fun x c c' h => ?_
    exact .ite _ (decodedNull_alike h 1 x) (decodeFloats_alike h op x buf length)
  | int32 =>
    unfold bsdContext bsdInt32
    exact decodeEscaped_alike h x buf length _ _ _
  | float =>
    unfold bsdContext bsdFloat
    exact decodeEscaped_alike h x buf length _ _ _
  | double =>
    unfold bsdContext bsdDouble
    exact decodeEscaped_alike h x buf length _ _ _
  | listOrMap =>
    refine .checkLength length 1 x h <| .bind _ fun op => ?_
    refine .checkDecode (decodeCollection_alike h x buf length ⟨nofun, nofun⟩) fun x c c' h => ?_
    refine .checkDecode (decodeCollection_alike h x buf length ⟨nofun, nofun⟩) fun x c c' h => ?_
    exact .ite _ (decodedNull_alike h 1 x) (.error x h _)
  | chunked =>
    refine .checkLength length 2 x h <| .bind _ fun header => .ite _ ?_ (.fixed h x buf length _ _)
    exact .some h.pop fun _ _ => ⟨rfl, rfl⟩
  | unknown n => exact .error x h _
  | object => exact .error x h _

end

/-! ## Reading an element -/

theorem kind_of_objfield {f : Frame} (h : bsdGetFrameDataKind f = some .objfield) :
    f.kind = .object := by
  have hmap (even : Option Bool) :
      (even.bind fun even => some (if even then DataKind.mapvalue else .mapkey)) ≠
        some .objfield := by
    rcases even with _ | _ | _ <;> nofun
  unfold bsdGetFrameDataKind at h
  cases hk : f.kind with
  | object => rfl
  | map =>
    rw [hk] at h
    exact absurd h (hmap f.even)
  | zmap =>
    rw [hk] at h
    exact absurd h (hmap f.even)
  | top | list | zlist | chunked | classdef =>
    rw [hk] at h
    cases h

variable {c c' : DCtx}

theorem describe_alike {m : Nat} (h : Alike m c c') (x : Data) :
    describe c x = describe c' x := by
  have htop := h.top
  simp only [describe, ← htop.dataKind]
  cases hkind : bsdGetFrameDataKind c.topframe with
  | none => rfl
  | some kind =>
    simp only [bind_eq_bind, bind_some]
    by_cases hobj : kind = .objfield
    · subst hobj
      rw [if_pos rfl, if_pos rfl, htop.classdef (kind_of_objfield hkind), h.classcoll,
        htop.missing]
    · rw [if_neg hobj, if_neg hobj]

theorem describe_type {c : DCtx} {x x' : Data} (h : describe c x = some x') :
    x'.type = x.type := by
  obtain ⟨kind, -, h⟩ := bind_eq_some_iff.mp h
  split at h
  · obtain ⟨cls, -, h⟩ := bind_eq_some_iff.mp h
    obtain ⟨field, -, h⟩ := bind_eq_some_iff.mp h
    cases h
    rfl
  · cases h
    rfl

theorem Frame.Bottom.count (h : f.Bottom) (hcount : countElement f = some g) :
    g.Bottom := by
  obtain ⟨hkind, hctxid, hmissing⟩ := h
  have hsame : countElement f = some f := by
    simp [countElement, hmissing, hkind, FrameKind.isMap]
  rw [hsame] at hcount
  cases hcount
  exact ⟨hkind, hctxid, hmissing⟩

def DCtx.counts (c : DCtx) (top : Nat) (f : Frame) : DCtx :=
  { c with stack := c.stack.modify top fun _ => f }

variable {top : Nat}

theorem Alike.counts (h : Alike top c c')
    (hbottom : (c.stack top).Bottom → f.Bottom) (hfg : FrameAlike f g) :
    Alike top (c.counts top f) (c'.counts top g) where
  stacksize := h.stacksize
  classcoll := h.classcoll
  nalloc := h.nalloc
  frames i hi := by
    by_cases htop : i = top
    · subst htop
      simp only [DCtx.counts, Stack.modify_same]
      exact hfg
    · simp only [DCtx.counts, Stack.modify_of_ne _ htop]
      exact h.frames i hi
  bottom := by
    show (c.stack.modify top (fun _ => f) 0).Bottom
    refine Stack.modify_cases c.stack top (fun _ => f) 0 (fun h0 => hbottom ?_) fun _ => h.bottom
    rw [← h0]
    exact h.bottom

/-- The end of `bsd_read`, for an element that was counted. -/
def DCtx.describes (c : DCtx) (top : Nat) (n : Int) (x : Data) : Option DRes := do
  let x ← if top < c.stacksize then some { x with kind := .newcontainer } else describe c x
  some (n, x, { c with read := c.read + n })

theorem bsdReadDone_eq (top : Nat) {n : Int} {x : Data} (c : DCtx)
    (h : ¬ (n < 0 ∨ x.type = .error)) :
    bsdReadDone top n x c =
      (if x.type = .classdef then some (c.stack top) else countElement (c.stack top)).bind
        fun f => (c.counts top f).describes top n x := by
  rw [bsdReadDone, if_neg h]
  by_cases hdef : x.type = .classdef
  · rw [if_pos hdef, if_pos hdef]
    rfl
  · rw [if_neg hdef, if_neg hdef]
    rfl

theorem describes_alike {base c c' : DCtx} (h : Alike top c c') (n : Int) (x : Data)
    (hkept : x.type ≠ .error → n ≤ 0 ∨ x.type ≠ .classdef → SameClasses base c) :
    Likewise 0 base (c.describes top n x) (c'.describes top n x) := by
  have hread : Alike 0 { c with read := c.read + n } { c' with read := c'.read + n } :=
    ⟨h.stacksize, h.classcoll, h.nalloc,
      fun i hi => h.frames i (hi.imp_right fun h0 => Nat.le_trans h0 (Nat.zero_le top)), h.bottom⟩
  unfold DCtx.describes
  by_cases htop : top < c.stacksize
  · have htop' : top < c'.stacksize := h.stacksize ▸ htop
    rw [if_pos htop, if_pos htop']
    exact .some hread hkept
  have htop' : ¬ top < c'.stacksize := h.stacksize ▸ htop
  rw [if_neg htop, if_neg htop', ← describe_alike h]
  cases hx : describe c x with
  | none => exact .none
  | some x' => exact .some hread (by rw [describe_type hx]; exact hkept)

theorem bsdReadDone_alike {base : DCtx} {r r' : Option DRes}
    (h : Likewise top base r r') :
    Likewise 0 base (r.bind fun (n, x, c) => bsdReadDone top n x c)
      (r'.bind fun (n, x, c) => bsdReadDone top n x c) := by
  cases h with
  | none => exact .none
  | @some n x c c' h hkept =>
    simp only [bind_some]
    by_cases hfirst : n < 0 ∨ x.type = .error
    · rw [bsdReadDone, bsdReadDone, if_pos hfirst, if_pos hfirst]
      exact .some ⟨h.stacksize, h.classcoll, h.nalloc,
        fun i hi => h.frames i (hi.imp_right fun h0 => Nat.le_trans h0 (Nat.zero_le top)),
        h.bottom⟩ hkept
    · rw [bsdReadDone_eq top c hfirst, bsdReadDone_eq top c' hfirst]
      have hframe := h.frames top (Or.inr (Nat.le_refl top))
      by_cases hdef : x.type = .classdef
      · rw [if_pos hdef, if_pos hdef]
        exact describes_alike (h.counts id hframe) n x hkept
      rw [if_neg hdef, if_neg hdef]
      rcases hframe.count with ⟨hnone, hnone'⟩ | ⟨f, g, hf, hg, hfg⟩
      · rw [hnone, hnone']
        exact .none
      · rw [hf, hg]
        exact describes_alike (h.counts (fun hb => hb.count hf) hfg) n x hkept

theorem bsdRead_alike [CFloat] (h : Alike 0 c c') (x : Data) (buf : List UInt8)
    (length : Int) : Likewise 0 c (bsdRead c x buf length) (bsdRead c' x buf length) := by
  have htop := h.top
  unfold bsdRead
  simp only [← htop.missing, ← htop.kind, ← htop.getctxid, ← h.classcoll]
  by_cases hmissing : c.topframe.missing = 0
  · rw [if_pos hmissing, if_pos hmissing, ← describe_alike h.pop]
    refine .bind _ fun x' => ?_
    exact .some h.pop fun _ _ => ⟨rfl, rfl⟩
  rw [if_neg hmissing, if_neg hmissing]
  refine .bind _ fun ctxid => ?_
  have htop' : Alike c.stacksize c c' :=
    { h with frames := fun i hi => h.frames i (Or.inl (hi.elim id id)) }
  rw [← h.stacksize]
  exact bsdReadDone_alike (bsdContext_alike htop' ctxid _ buf length)

/-! ## Between two values -/

structure DCtx.Idle (d : DCtx) : Prop where
  stacksize : d.stacksize = 0
  bottom : (d.stack 0).Bottom

theorem DCtx.Idle.alike {d d' : DCtx} (h : d.Idle) (h' : d'.Idle) (hsame : SameClasses d d') :
    Alike 0 d d' where
  stacksize := h.stacksize.trans h'.stacksize.symm
  classcoll := hsame.1.symm
  nalloc := hsame.2.symm
  frames i hi := by
    have h0 : i = 0 := by
      have := h.stacksize
      omega
    subst h0
    have hb := h.bottom
    have hb' := h'.bottom
    refine ⟨hb.kind.trans hb'.kind.symm, hb.ctxid.trans hb'.ctxid.symm,
      hb.missing.trans hb'.missing.symm, fun hk => ?_⟩
    rw [hb.kind] at hk
    rcases hk with hk | hk <;> cases hk
  bottom := h.bottom

theorem bsdInit_alike (memory memory' : Stack) : Alike 0 (bsdInit memory) (bsdInit memory') where
  stacksize := rfl
  classcoll := rfl
  nalloc := rfl
  frames i hi := by
    have h0 : i = 0 := by
      rcases hi with hi | hi
      · exact Nat.le_zero.mp hi
      · exact Nat.le_zero.mp hi
    subst h0
    exact ⟨rfl, rfl, rfl, nofun⟩
  bottom := ⟨rfl, rfl, rfl⟩

end Mihini.Bysant
