import Mihini.Bysant.Reading
import Mihini.Bysant.Session

/-!
# Both stacks in lock step

The serializer counts a container in the frame below when it is closed, the
deserializer when it is opened.  Between two operations the frames on top agree,
and a frame below the top agrees once the container above it is counted.
-/

namespace Mihini.Bysant

open Lib.Bytes List Option

/-! ## Frames -/

def Frame.properContext (f : Frame) : Prop :=
  match f.kind with
  | .chunked => f.ctxid = .chunked
  | .object => f.ctxid = .object
  | _ => f.ctxid.regular = true

structure FrameMatch (f g : Frame) : Prop where
  kind : g.kind = f.kind
  proper : f.properContext
  /-- An empty collection loses its context on the way. -/
  ctxid : f.kind ≠ .object → (f.kind.fixed = true → f.missing ≠ 0) → g.ctxid = f.ctxid
  fixed : f.kind.fixed = true → g.missing = f.missing
  unbounded : f.kind.fixed = false → g.missing < 0
  map : f.kind.isMap = true → ∃ even, f.content = .map even ∧ g.content = .map even
  object : f.kind = .object → ∃ p q, f.content = .object p ∧ g.content = .object q
    ∧ q.cls = sentClass p.cls ∧ checkClassdef p.cls = true ∧ f.missing ≤ p.cls.nfields

theorem FrameMatch.even {f g : Frame} (h : FrameMatch f g) (hmap : f.kind.isMap = true) :
    ∃ even, f.even = some even ∧ g.even = some even := by
  obtain ⟨even, hf, hg⟩ := h.map hmap
  refine ⟨even, ?_, ?_⟩
  · simp only [Frame.even, hf]
  · simp only [Frame.even, hg]

structure Opened (f g : Frame) : Prop where
  kind : g.kind = f.kind
  counted : ∃ f', commitFrame f = some (.eok, f') ∧ FrameMatch f' g
  object : f.kind = .object →
    ∃ q, g.content = .object q ∧ 0 ≤ g.missing ∧ g.missing < q.cls.nfields

@[simp] theorem sentClass_nfields (cls : BsClass) : (sentClass cls).nfields = cls.nfields := by
  simp [sentClass, BsClass.nfields]

theorem sentClass_fieldAt (cls : BsClass) (i : Int) :
    (sentClass cls).fieldAt i = (cls.fieldAt i).map (sentField cls.classname.isSome) := by
  unfold BsClass.fieldAt
  split
  · simp [sentClass]
  · rfl

theorem FrameMatch.count {f g : Frame} (h : FrameMatch f g) (hdef : f.kind ≠ .classdef)
    (hmore : f.kind.fixed = true → 0 < f.missing) :
    ∃ g', countElement g = some g' ∧ Opened f g' := by
  have hkind := h.kind
  cases hk : f.kind with
  | top | zlist | chunked =>
    have hneg := h.unbounded (by rw [hk]; rfl)
    refine ⟨g, ?_, hkind, ⟨f, ?_, h⟩, by simp [hk]⟩
    · simp [countElement, hkind, hk, FrameKind.isMap, Int.not_lt.mpr (Int.le_of_lt hneg)]
    · simp [commitFrame, hk]
  | zmap =>
    have hneg := h.unbounded (by rw [hk]; rfl)
    obtain ⟨even, hf, hg⟩ := h.map (by rw [hk]; rfl)
    refine ⟨{ g with content := .map (!even) }, ?_, hkind,
      ⟨{ f with content := .map (!even) }, ?_, ?_⟩, by simp [hk]⟩
    · simp [countElement, hkind, hk, FrameKind.isMap, Int.not_lt.mpr (Int.le_of_lt hneg),
        Frame.toggle, Frame.even, hg]
    · simp [commitFrame, hk, Frame.toggle, Frame.even, hf]
    · exact ⟨h.kind, h.proper, h.ctxid, h.fixed, h.unbounded, fun _ => ⟨!even, rfl, rfl⟩,
        by simp [hk]⟩
  | map =>
    have hpos := hmore (by rw [hk]; rfl)
    have hmissing := h.fixed (by rw [hk]; rfl)
    obtain ⟨even, hf, hg⟩ := h.map (by rw [hk]; rfl)
    have hne : f.missing ≠ 0 := by omega
    refine ⟨{ g with missing := g.missing - 1, content := .map (!even) }, ?_, hkind,
      ⟨{ f with missing := f.missing - 1, content := .map (!even) }, ?_, ?_⟩, by simp [hk]⟩
    · simp [countElement, hkind, hk, FrameKind.isMap, hmissing, hpos, Frame.toggle, Frame.even, hg]
    · simp [commitFrame, hk, Frame.toggle, Frame.even, hf, hne]
    · exact ⟨h.kind, h.proper, fun h1 _ => h.ctxid h1 fun _ => hne, fun _ => by simp [hmissing],
        by simp [hk, FrameKind.fixed], fun _ => ⟨!even, rfl, rfl⟩, by simp [hk]⟩
  | list =>
    have hpos := hmore (by rw [hk]; rfl)
    have hmissing := h.fixed (by rw [hk]; rfl)
    have hne : f.missing ≠ 0 := by omega
    refine ⟨{ g with missing := g.missing - 1 }, ?_, hkind,
      ⟨{ f with missing := f.missing - 1 }, ?_, ?_⟩, by simp [hk]⟩
    · simp [countElement, hkind, hk, FrameKind.isMap, hmissing, hpos]
    · simp [commitFrame, hk, hne]
    · exact ⟨h.kind, h.proper, fun h1 _ => h.ctxid h1 fun _ => hne, fun _ => by simp [hmissing],
        by simp [hk, FrameKind.fixed], by simp [hk, FrameKind.isMap], by simp [hk]⟩
  | object =>
    have hpos := hmore (by rw [hk]; rfl)
    have hmissing := h.fixed (by rw [hk]; rfl)
    obtain ⟨p, q, hf, hg, hcls, hcheck, hle⟩ := h.object hk
    have hne : f.missing ≠ 0 := by omega
    refine ⟨{ g with missing := g.missing - 1 }, ?_, hkind,
      ⟨{ f with missing := f.missing - 1 }, ?_, ?_⟩, fun _ => ⟨q, hg, ?_, ?_⟩⟩
    · simp [countElement, hkind, hk, FrameKind.isMap, hmissing, hpos]
    · simp [commitFrame, hk, hne]
    · refine ⟨h.kind, h.proper, by simp [hk], fun _ => by simp [hmissing],
        by simp [hk, FrameKind.fixed], by simp [hk, FrameKind.isMap],
        fun _ => ⟨p, q, hf, hg, hcls, hcheck, ?_⟩⟩
      show f.missing - 1 ≤ p.cls.nfields
      omega
    · show 0 ≤ g.missing - 1
      omega
    · rw [hcls, sentClass_nfields]
      show g.missing - 1 < p.cls.nfields
      omega
  | classdef => exact absurd hk hdef

/-! ## Classes -/

structure CollMatch (a b : ClassColl) : Prop where
  classes : List.Forall₂ (fun p q : ClassPtr => q.cls = sentClass p.cls ∧ checkClassdef p.cls = true)
    a.classes b.classes
  nclasses : a.nclasses = a.classes.length
  nclasses' : b.nclasses = b.classes.length

def DCtx.points (d : DCtx) (q : ClassPtr) : Prop :=
  q ∈ d.classcoll.classes
    ∨ ∃ i ≤ d.stacksize, (d.stack i).kind = .object ∧ (d.stack i).content = .object q

structure Heap (d : DCtx) : Prop where
  allocated : ∀ q, d.points q → q.block < d.nalloc
  separate : ∀ q q', d.points q → d.points q' → q.block = q'.block → q = q'
  live : ∀ q, d.points q → q.block ∉ d.classcoll.freed
  freed : ∀ b ∈ d.classcoll.freed, b < d.nalloc
  nodup : (d.classcoll.classes.map (·.block)).Nodup

theorem Heap.mono {d d' : DCtx} (h : Heap d) (hcoll : d'.classcoll = d.classcoll)
    (halloc : d'.nalloc = d.nalloc) (hpoints : ∀ q, d'.points q → d.points q) : Heap d' := by
  refine ⟨fun q hq => ?_, fun q q' hq hq' => ?_, fun q hq => ?_, ?_, ?_⟩
  · rw [halloc]
    exact h.allocated q (hpoints q hq)
  · exact h.separate q q' (hpoints q hq) (hpoints q' hq')
  · rw [hcoll]
    exact h.live q (hpoints q hq)
  · rw [hcoll, halloc]
    exact h.freed
  · rw [hcoll]
    exact h.nodup

theorem Heap.deref {d : DCtx} (h : Heap d) {q : ClassPtr} (hq : d.points q) :
    d.classcoll.deref q = some q.cls := if_neg (h.live q hq)

theorem CollMatch.indexOf {a b : ClassColl} (h : CollMatch a b) (classid : UInt32) :
    b.indexOf classid = a.indexOf classid := by
  have hlen : b.nclasses = a.nclasses := by
    rw [h.nclasses, h.nclasses', h.classes.length_eq]
  unfold ClassColl.indexOf
  rw [hlen]
  refine (Lib.bsearch_congr (fun i => ?_) _).symm
  rcases Nat.lt_or_ge i a.classes.length with hi | hi
  · have hi' : i < b.classes.length := by rwa [← h.classes.length_eq]
    have hcls := (h.classes.get hi hi').1
    simp only [get_eq_getElem] at hcls
    rw [List.getElem?_eq_getElem hi, List.getElem?_eq_getElem hi', map_some,
      map_some, ClassColl.compareClassesById, ClassColl.compareClassesById, hcls, sentClass]
  · rw [List.getElem?_eq_none hi, List.getElem?_eq_none (by rwa [← h.classes.length_eq])]

theorem CollMatch.get {a b : ClassColl} (h : CollMatch a b) {classid : UInt32} {p : ClassPtr}
    (hget : a.bsClasscollGet classid = some (some p)) :
    ∃ q, b.bsClasscollGet classid = some (some q) ∧ q ∈ b.classes ∧ q.cls = sentClass p.cls
      ∧ checkClassdef p.cls = true := by
  unfold ClassColl.bsClasscollGet at hget ⊢
  rw [h.indexOf]
  obtain ⟨found, hfound, hget⟩ := map_eq_some_iff.mp hget
  obtain ⟨i, rfl, hp⟩ := bind_eq_some_iff.mp hget
  obtain ⟨hi, rfl⟩ := List.getElem?_eq_some_iff.mp hp
  have hi' : i < b.classes.length := by rwa [← h.classes.length_eq]
  obtain ⟨hcls, hcheck⟩ := h.classes.get hi hi'
  refine ⟨b.classes[i], ?_, getElem_mem hi', hcls, hcheck⟩
  rw [hfound, map_some, bind_some, List.getElem?_eq_getElem hi']

/-! ## Contexts -/

structure Sync (s : SCtx (List UInt8)) (d : DCtx) : Prop where
  settled : Settled s
  sound : s.broken = false
  size : d.stacksize = s.stacksize
  top : FrameMatch s.topframe d.topframe
  below : ∀ i < s.stacksize, Opened (s.stack i) (d.stack i)
  classes : CollMatch s.classcoll d.classcoll
  heap : Heap d

theorem bssInit_sync (memory memory' : Stack) : Sync (bssInit [] memory) (bsdInit memory') := by
  have hpoints (q : ClassPtr) : ¬ (bsdInit memory').points q := by
    rintro (hq | ⟨i, hi, hkind, -⟩)
    · cases hq
    · obtain rfl : i = 0 := Nat.le_zero.mp hi
      cases hkind
  refine ⟨bssInit_settled _ _, rfl, rfl, ?_, fun i hi => absurd hi (Nat.not_lt_zero i),
    ⟨.nil, rfl, rfl⟩, ?_⟩
  · have hkind : (bssInit ([] : List UInt8) memory).topframe.kind = .top := rfl
    refine ⟨rfl, rfl, fun _ _ => rfl, ?_, fun _ => ?_, ?_, ?_⟩
    · rw [hkind]
      simp [FrameKind.fixed]
    · show (-1 : Int) < 0
      omega
    · rw [hkind]
      simp [FrameKind.isMap]
    · rw [hkind]
      simp
  · exact ⟨fun q hq => absurd hq (hpoints q), fun q _ hq => absurd hq (hpoints q),
      fun q hq => absurd hq (hpoints q), fun b hb => absurd hb not_mem_nil, nodup_nil⟩

section
variable {s s' : SCtx (List UInt8)} {d : DCtx}

def SCtx.expects (s : SCtx (List UInt8)) : Prop :=
  s.topframe.kind.fixed = true → 0 < s.topframe.missing

theorem Sync.kind_ne_classdef (h : Sync s d) : s.topframe.kind ≠ .classdef :=
  h.settled.kinds _ (Nat.le_refl _)

theorem Sync.topframe_eq (h : Sync s d) : d.topframe = d.stack s.stacksize := by
  unfold DCtx.topframe
  rw [h.size]

theorem Sync.missing_ne_zero (h : Sync s d) (hmore : s.expects) : d.topframe.missing ≠ 0 := by
  cases hfixed : s.topframe.kind.fixed with
  | true =>
    have hpos := hmore hfixed
    have := h.top.fixed hfixed
    omega
  | false =>
    have := h.top.unbounded hfixed
    omega

variable {ctxid : CtxId}

theorem Sync.getctxid (h : Sync s d) (hmore : s.expects)
    (hctx : s.getctxid = some ctxid) :
    d.topframe.getctxid d.classcoll = some ctxid
      ∧ (ctxid.regular = true ∨ s.topframe.kind = .chunked ∧ ctxid = .chunked) := by
  have hmatch := h.top
  have hkind := hmatch.kind
  have hproper := hmatch.proper
  unfold SCtx.getctxid at hctx
  unfold Frame.properContext at hproper
  -- Maps: a key, or the context of the values.
  have hmap (hk : s.topframe.kind.isMap = true) (hreg : s.topframe.ctxid.regular = true)
      (hs : (s.topframe.even.bind fun even =>
        if even then some CtxId.unsignedOrString else some s.topframe.ctxid) = some ctxid) :
      (d.topframe.even.bind fun even =>
        if even then some CtxId.unsignedOrString else some d.topframe.ctxid) = some ctxid
        ∧ ctxid.regular = true := by
    obtain ⟨even, hf, hg⟩ := hmatch.even hk
    have hid : d.topframe.ctxid = s.topframe.ctxid := by
      refine hmatch.ctxid (fun hobj => ?_) fun hfixed => ?_
      · rw [hobj] at hk
        cases hk
      · exact Int.ne_of_gt (hmore hfixed)
    rw [hf, bind_some] at hs
    rw [hg, bind_some, hid, hs]
    refine ⟨rfl, ?_⟩
    cases even with
    | true =>
      cases hs
      rfl
    | false =>
      cases hs
      exact hreg
  cases hk : s.topframe.kind with
  | map =>
    simp only [hk] at hproper
    simp only [Frame.getctxid, hk] at hctx
    simp only [Frame.getctxid, hkind, hk]
    obtain ⟨hg, hreg⟩ := hmap (by rw [hk]; rfl) hproper hctx
    exact ⟨hg, .inl hreg⟩
  | zmap =>
    simp only [hk] at hproper
    simp only [Frame.getctxid, hk] at hctx
    simp only [Frame.getctxid, hkind, hk]
    obtain ⟨hg, hreg⟩ := hmap (by rw [hk]; rfl) hproper hctx
    exact ⟨hg, .inl hreg⟩
  | object =>
    obtain ⟨p, q, hf, hg, hcls, hcheck, -⟩ := hmatch.object hk
    have hmissing := hmatch.fixed (by rw [hk]; rfl)
    have hq : d.points q := .inr ⟨d.stacksize, Nat.le_refl _, by rw [← hk]; exact hkind, hg⟩
    simp only [Frame.getctxid, hk, Frame.classdef, hf, bind_eq_bind] at hctx
    simp only [Frame.getctxid, hkind, hk, Frame.classdef, hg, h.heap.deref hq, hmissing]
    obtain ⟨cls, hderef, hcls'⟩ := bind_eq_some_iff.mp hctx
    obtain ⟨field, hfield, hid⟩ := bind_eq_some_iff.mp hcls'
    obtain rfl := Option.some.inj hid
    obtain rfl : p.cls = cls := by
      unfold ClassColl.deref at hderef
      split at hderef
      · cases hderef
      · exact Option.some.inj hderef
    refine ⟨?_, .inl ?_⟩
    · simp only [bind_eq_bind, bind_some, hcls, sentClass_nfields,
        sentClass_fieldAt, hfield, map_some]
      rfl
    · unfold BsClass.fieldAt at hfield
      split at hfield
      · have := all_eq_true.mp hcheck field (mem_of_getElem? hfield)
        simp only [Bool.and_eq_true] at this
        exact this.2
      · cases hfield
  | top | list | zlist | chunked | classdef =>
    simp only [hk] at hproper
    simp only [Frame.getctxid, hk] at hctx
    simp only [Frame.getctxid, hkind, hk]
    have hid : d.topframe.ctxid = s.topframe.ctxid :=
      hmatch.ctxid (by simp [hk]) fun hfixed => Int.ne_of_gt (hmore hfixed)
    rw [hid]
    refine ⟨hctx, ?_⟩
    cases hctx
    first
      | exact .inl hproper
      | exact .inr ⟨by simp, hproper⟩

theorem Sync.regular (h : Sync s d) (hmore : s.expects)
    (hctx : s.getctxid = some ctxid) (hk : s.topframe.kind ≠ .chunked) : ctxid.regular = true := by
  rcases (h.getctxid hmore hctx).2 with hreg | ⟨hchunked, -⟩
  · exact hreg
  · exact absurd hchunked hk

theorem Sync.exec_write (h : Sync s d) {push : Option (FrameKind × CtxId)}
    {segs : List (List UInt8)} {finish : Finish}
    (hexec : Plan.exec acceptAll s (.write push segs finish) = some (.eok, s')) :
    s.expects ∧ ¬ s.full push
      ∧ finish.run ((s.pushed push).wrote segs.flatten) = some (.eok, s') := by
  have hcount := h.settled.counts s.stacksize (Nat.le_refl _)
  rw [Plan.exec_write h.settled, h.sound, if_neg (by simp)] at hexec
  split at hexec
  · cases hexec
  · next hmore =>
    split at hexec
    · cases hexec
    · next hroom =>
      refine ⟨fun hfixed => ?_, hroom, hexec⟩
      have hnonneg : 0 ≤ s.topframe.missing := hcount hfixed
      have hne : s.topframe.missing ≠ 0 := fun h0 => hmore ⟨hfixed, h0⟩
      omega

structure Described (g : Frame) : Prop where
  map : g.kind.isMap = true → ∃ even, g.even = some even
  object : g.kind = .object →
    ∃ q, g.content = .object q ∧ 0 ≤ g.missing ∧ g.missing < q.cls.nfields

theorem Opened.described {f g : Frame} (h : Opened f g) : Described g := by
  obtain ⟨f', -, hmatch⟩ := h.counted
  refine ⟨fun hk => ?_, fun hk => h.object (h.kind.symm.trans hk)⟩
  obtain ⟨even, -, hg⟩ := hmatch.even (by rwa [← hmatch.kind])
  exact ⟨even, hg⟩

variable {g : Frame}

theorem Described.describe (h : Described g) {ctx : DCtx} (htop : ctx.topframe = g)
    (hheap : Heap ctx) (x : Data) :
    ∃ kind name, describe ctx x = some { x with kind := kind, fieldname := name } := by
  unfold Mihini.Bysant.describe
  rw [htop]
  cases hk : g.kind with
  | map =>
    obtain ⟨even, hg⟩ := h.map (by rw [hk]; rfl)
    refine ⟨if even then .mapvalue else .mapkey, x.fieldname, ?_⟩
    cases even <;> simp [bsdGetFrameDataKind, hk, hg]
  | zmap =>
    obtain ⟨even, hg⟩ := h.map (by rw [hk]; rfl)
    refine ⟨if even then .mapvalue else .mapkey, x.fieldname, ?_⟩
    cases even <;> simp [bsdGetFrameDataKind, hk, hg]
  | object =>
    obtain ⟨q, hg, hnonneg, hlt⟩ := h.object hk
    have hq : ctx.points q :=
      .inr ⟨ctx.stacksize, Nat.le_refl _, by rw [← hk, ← htop]; rfl, by rw [← hg, ← htop]; rfl⟩
    have hindex : (q.cls.nfields - (g.missing + 1)).toNat < q.cls.fields.length := by
      unfold BsClass.nfields at hlt ⊢
      omega
    refine ⟨.objfield, q.cls.fields[(q.cls.nfields - (g.missing + 1)).toNat].name, ?_⟩
    simp only [bsdGetFrameDataKind, hk, Frame.classdef, hg, hheap.deref hq, bind_eq_bind,
      bind_some, BsClass.fieldAt]
    rw [if_pos trivial, if_pos (by omega), List.getElem?_eq_getElem hindex]
    rfl
  | top => exact ⟨.toplevel, x.fieldname, by simp [bsdGetFrameDataKind, hk]⟩
  | classdef => exact ⟨.toplevel, x.fieldname, by simp [bsdGetFrameDataKind, hk]⟩
  | list => exact ⟨.listitem, x.fieldname, by simp [bsdGetFrameDataKind, hk]⟩
  | zlist => exact ⟨.listitem, x.fieldname, by simp [bsdGetFrameDataKind, hk]⟩
  | chunked => exact ⟨.chunk, x.fieldname, by simp [bsdGetFrameDataKind, hk]⟩

/-! ## Elements of the frame on top -/

theorem countElement_spec {f g : Frame} (h : countElement f = some g) :
    g.kind = f.kind ∧ (f.kind = .object → g.content = f.content) := by
  unfold countElement at h
  by_cases hpos : 0 < f.missing
  · simp only [if_pos hpos] at h
    split at h
    · next hmap =>
      obtain ⟨even, -, h⟩ := bind_eq_some_iff.mp h
      cases h
      refine ⟨rfl, fun hobj => ?_⟩
      rw [hobj] at hmap
      cases hmap
    · cases h
      exact ⟨rfl, fun _ => rfl⟩
  · simp only [if_neg hpos] at h
    split at h
    · next hmap =>
      obtain ⟨even, -, h⟩ := bind_eq_some_iff.mp h
      cases h
      refine ⟨rfl, fun hobj => ?_⟩
      rw [hobj] at hmap
      cases hmap
    · cases h
      exact ⟨rfl, fun _ => rfl⟩

/-- The deserializer when an element of frame `top` is counted. -/
def DCtx.counted (d : DCtx) (top : Nat) (g : Frame) (n : Int) : DCtx :=
  { d with stack := d.stack.modify top fun _ => g, read := d.read + n }

theorem Heap.counted {d : DCtx} (h : Heap d) {top : Nat}
    (hcount : countElement (d.stack top) = some g) (n : Int) : Heap (d.counted top g n) := by
  obtain ⟨hkind, hcontent⟩ := countElement_spec hcount
  refine h.mono rfl rfl fun q hq => ?_
  rcases hq with hq | ⟨i, hi, hk, hc⟩
  · exact .inl hq
  refine .inr ⟨i, hi, ?_⟩
  simp only [DCtx.counted] at hk hc
  by_cases htop : i = top
  · subst htop
    rw [Stack.modify_same] at hk hc
    have hobj : (d.stack i).kind = .object := hkind.symm.trans hk
    exact ⟨hobj, (hcontent hobj).symm.trans hc⟩
  · rw [Stack.modify_of_ne _ htop] at hk hc
    exact ⟨hk, hc⟩

theorem Sync.count (h : Sync s d) (hmore : s.expects) :
    ∃ g, countElement d.topframe = some g ∧ Opened s.topframe g :=
  h.top.count h.kind_ne_classdef hmore

variable {n : Int}

theorem bsdReadDone_counted {top : Nat} {x : Data} (hn : 0 ≤ n)
    (herr : x.type ≠ .error) (hdef : x.type ≠ .classdef)
    (hcount : countElement (d.stack top) = some g) :
    bsdReadDone top n x d
      = (if top < d.stacksize then some { x with kind := .newcontainer }
          else describe (d.counted top g n) x).map fun x => (n, x, d.counted top g n) := by
  have hok : ¬ (n < 0 ∨ x.type = .error) := by
    rintro (hneg | herr')
    · omega
    · exact herr herr'
  have hdesc : describe { d with stack := d.stack.modify top fun _ => g } x
      = describe (d.counted top g n) x := rfl
  unfold bsdReadDone
  rw [if_neg hok, if_neg hdef, hcount]
  simp only [bind_eq_bind, bind_some, hdesc]
  by_cases hpushed : top < d.stacksize
  · rw [if_pos hpushed, if_pos hpushed]
    rfl
  · rw [if_neg hpushed, if_neg hpushed]
    cases describe (d.counted top g n) x <;> rfl

variable {bytes : List UInt8} {x x' : Data}

/-- A value: the decoding routine of the context leaves the stack alone. -/
theorem Sync.read_value [CFloat] (h : Sync s d) (hmore : s.expects)
    (hctx : s.getctxid = some ctxid) (hcount : countElement d.topframe = some g)
    (hopened : Opened s.topframe g)
    (hread : bsdContext ctxid d { x with type := .null } bytes (-2) = some (n, x', d))
    (hn : 0 ≤ n) (herr : x'.type ≠ .error) (hdef : x'.type ≠ .classdef) :
    ∃ kind name, bsdRead d x bytes (-2)
      = some (n, { x' with kind := kind, fieldname := name }, d.counted d.stacksize g n) := by
  have hheap : Heap (d.counted d.stacksize g n) := h.heap.counted hcount n
  have htop : (d.counted d.stacksize g n).topframe = g :=
    Stack.modify_same d.stack d.stacksize fun _ => g
  obtain ⟨kind, name, hdesc⟩ := hopened.described.describe htop hheap x'
  refine ⟨kind, name, ?_⟩
  unfold bsdRead
  rw [if_neg (h.missing_ne_zero hmore), (h.getctxid hmore hctx).1, bind_eq_bind,
    bind_some, hread]
  show bsdReadDone d.stacksize n x' d = _
  rw [bsdReadDone_counted hn herr hdef hcount, if_neg (Nat.lt_irrefl _), hdesc]
  rfl

theorem commitTransaction_inv {W : Type} {c c' : SCtx W}
    (h : commitTransaction c = some (.eok, c')) :
    ∃ f, commitFrame c.topframe = some (.eok, f)
      ∧ c' = { c.modifyTop fun _ => f with
          acknowledged := c.written
          acknowledgedStacksize := c.stacksize } := by
  obtain ⟨⟨st, f⟩, hf, h⟩ := bind_eq_some_iff.mp h
  simp only at h
  split at h
  · next hst =>
    subst hst
    exact ⟨f, hf, (Prod.mk.inj (Option.some.inj h)).2.symm⟩
  · next hst => exact absurd (Prod.mk.inj (Option.some.inj h)).1 hst

theorem Sync.value (h : Sync s d) (hcount : countElement d.topframe = some g)
    (hopened : Opened s.topframe g)
    (hrun : commitTransaction (s.wrote bytes) = some (.eok, s')) (hs' : Settled s') (n : Int) :
    Sync s' (d.counted d.stacksize g n) := by
  obtain ⟨f, hf, rfl⟩ := commitTransaction_inv hrun
  obtain ⟨f', hf', hmatch⟩ := hopened.counted
  obtain rfl : f' = f := by
    have := hf'.symm.trans hf
    simpa using this
  have hstack : (d.counted d.stacksize g n).stack = d.stack.modify s.stacksize fun _ => g := by
    rw [← h.size]
    rfl
  refine ⟨hs', h.sound, h.size, ?_, fun i hi => ?_, h.classes, h.heap.counted hcount n⟩
  · have hsame : ((s.wrote bytes).modifyTop fun _ => f').topframe = f' :=
      Stack.modify_same s.stack s.stacksize fun _ => f'
    have hsame' : (d.counted d.stacksize g n).topframe = g :=
      Stack.modify_same d.stack d.stacksize fun _ => g
    show FrameMatch ((s.wrote bytes).modifyTop fun _ => f').topframe _
    rw [hsame, hsame']
    exact hmatch
  · have hi' : i < s.stacksize := hi
    rw [hstack, Stack.modify_of_ne _ (by omega)]
    show Opened (s.stack.modify s.stacksize (fun _ => f') i) _
    rw [Stack.modify_of_ne _ (by omega)]
    exact h.below i hi'

/-! ## Containers -/

theorem Sync.read_opening [CFloat] (h : Sync s d) (hmore : s.expects)
    (hctx : s.getctxid = some ctxid) (hcount : countElement d.topframe = some g)
    {d₁ : DCtx}
    (hread : bsdContext ctxid d { x with type := .null } bytes (-2) = some (n, x', d₁))
    (hsize : d₁.stacksize = d.stacksize + 1) (hkeep : d₁.stack d.stacksize = d.stack d.stacksize)
    (hn : 0 ≤ n) (herr : x'.type ≠ .error) (hdef : x'.type ≠ .classdef) :
    bsdRead d x bytes (-2)
      = some (n, { x' with kind := .newcontainer }, d₁.counted d.stacksize g n) := by
  change countElement (d.stack d.stacksize) = some g at hcount
  rw [← hkeep] at hcount
  unfold bsdRead
  rw [if_neg (h.missing_ne_zero hmore), (h.getctxid hmore hctx).1, bind_eq_bind,
    bind_some, hread]
  show bsdReadDone d.stacksize n x' d₁ = _
  rw [bsdReadDone_counted hn herr hdef hcount, if_pos (by omega)]
  rfl

theorem Sync.opening (h : Sync s d) (hcount : countElement d.topframe = some g)
    (hopened : Opened s.topframe g) {d₁ : DCtx} (hsize : d₁.stacksize = d.stacksize + 1)
    (hkeep : ∀ i ≤ d.stacksize, d₁.stack i = d.stack i) (hcoll : d₁.classcoll = d.classcoll)
    (halloc : d₁.nalloc = d.nalloc)
    (hobject : ∀ q, d₁.topframe.kind = .object → d₁.topframe.content = .object q →
      q ∈ d.classcoll.classes)
    (hs' : Settled s') (hsound : s'.broken = false) (hsize' : s'.stacksize = s.stacksize + 1)
    (hkeep' : ∀ i ≤ s.stacksize, s'.stack i = s.stack i) (hcoll' : s'.classcoll = s.classcoll)
    (hmatch : FrameMatch s'.topframe d₁.topframe) (n : Int) :
    Sync s' (d₁.counted d.stacksize g n) := by
  have hcount₁ : countElement (d₁.stack d.stacksize) = some g := by
    rw [hkeep _ (Nat.le_refl _)]
    exact hcount
  have hheap : Heap d₁ := by
    refine h.heap.mono hcoll halloc fun q hq => ?_
    rcases hq with hq | ⟨i, hi, hk, hc⟩
    · rw [hcoll] at hq
      exact .inl hq
    · rcases Nat.lt_or_ge d.stacksize i with hlt | hge
      · obtain rfl : i = d₁.stacksize := by omega
        exact .inl (hobject q hk hc)
      · rw [hkeep i hge] at hk hc
        exact .inr ⟨i, hge, hk, hc⟩
  refine ⟨hs', hsound, ?_, ?_, fun i hi => ?_, ?_, hheap.counted hcount₁ n⟩
  · show d₁.stacksize = s'.stacksize
    rw [hsize, hsize', h.size]
  · have hne : d₁.stacksize ≠ d.stacksize := by omega
    have htop : (d₁.counted d.stacksize g n).topframe = d₁.topframe :=
      Stack.modify_of_ne d₁.stack hne fun _ => g
    rw [htop]
    exact hmatch
  · rw [hkeep' i (by omega)]
    show Opened _ (d₁.stack.modify d.stacksize (fun _ => g) i)
    rcases Nat.lt_or_ge i s.stacksize with hlt | hge
    · have hle : i ≤ d.stacksize := by
        rw [h.size]
        omega
      rw [Stack.modify_of_ne _ (by rw [h.size]; omega), hkeep i hle]
      exact h.below i hlt
    · obtain rfl : i = s.stacksize := by omega
      rw [h.size, Stack.modify_same]
      exact hopened
  · rw [hcoll']
    show CollMatch s.classcoll d₁.classcoll
    rw [hcoll]
    exact h.classes

theorem Heap.pop {d d' : DCtx} (h : Heap d) (hsize : d'.stacksize < d.stacksize)
    (hkeep : ∀ i < d.stacksize, d'.stack i = d.stack i) (hcoll : d'.classcoll = d.classcoll)
    (halloc : d'.nalloc = d.nalloc) : Heap d' := by
  refine h.mono hcoll halloc fun q hq => ?_
  rcases hq with hq | ⟨i, hi, hk, hc⟩
  · rw [hcoll] at hq
    exact .inl hq
  · rw [hkeep i (by omega)] at hk hc
    exact .inr ⟨i, by omega, hk, hc⟩

theorem Sync.read_closeFixed [CFloat] (h : Sync s d) (hpos : 0 < s.stacksize)
    (hdone : d.topframe.missing = 0) (x : Data) :
    ∃ kind name, bsdRead d x [] (-2)
      = some (0, { x.put .close (.contType (bsdTypeFromFrameKind s.topframe.kind)) with
          kind := kind, fieldname := name }, d.pop) := by
  have hsize := h.size
  have hpop : Heap d.pop := h.heap.pop (Nat.sub_one_lt (by omega)) (fun i _ => rfl) rfl rfl
  have htop : d.pop.topframe = d.stack (s.stacksize - 1) := by
    rw [← h.size]
    rfl
  obtain ⟨kind, name, hdesc⟩ := (h.below (s.stacksize - 1) (by omega)).described.describe htop hpop
    ({ x with type := .null }.put .close (.contType (bsdTypeFromFrameKind d.topframe.kind)))
  refine ⟨kind, name, ?_⟩
  unfold bsdRead
  rw [if_pos hdone]
  show (describe d.pop _).bind _ = _
  rw [hdesc, h.top.kind]
  rfl

/-- The end of a container of variable length, read by the routine of its context. -/
theorem Sync.read_close [CFloat] (h : Sync s d) (hpos : 0 < s.stacksize) (hmore : s.expects)
    (hctx : s.getctxid = some ctxid)
    (hcount : countElement d.topframe = some g)
    (hread : bsdContext ctxid d { x with type := .null } bytes (-2) = some (n, x', d.pop))
    (hn : 0 ≤ n) (herr : x'.type ≠ .error) (hdef : x'.type ≠ .classdef) :
    ∃ kind name, bsdRead d x bytes (-2)
      = some (n, { x' with kind := kind, fieldname := name }, d.pop.counted d.stacksize g n) := by
  have hsize := h.size
  have hkeep : ∀ i < d.stacksize, (d.pop.counted d.stacksize g n).stack i = d.stack i := by
    intro i hi
    exact Stack.modify_of_ne d.stack (Nat.ne_of_lt hi) fun _ => g
  have hpop : Heap (d.pop.counted d.stacksize g n) :=
    h.heap.pop (Nat.sub_one_lt (by omega)) hkeep rfl rfl
  have htop : (d.pop.counted d.stacksize g n).topframe = d.stack (s.stacksize - 1) := by
    rw [← h.size]
    exact hkeep (d.stacksize - 1) (by omega)
  obtain ⟨kind, name, hdesc⟩ := (h.below (s.stacksize - 1) (by omega)).described.describe htop hpop x'
  refine ⟨kind, name, ?_⟩
  unfold bsdRead
  rw [if_neg (h.missing_ne_zero hmore), (h.getctxid hmore hctx).1, bind_eq_bind,
    bind_some, hread]
  show bsdReadDone d.stacksize n x' d.pop = _
  have hcount' : countElement (d.pop.stack d.stacksize) = some g := hcount
  have hpopped : ¬ d.stacksize < d.pop.stacksize := Nat.not_lt.mpr (Nat.sub_le ..)
  rw [bsdReadDone_counted hn herr hdef hcount', if_neg hpopped, hdesc]
  rfl

/-- Both sides drop the frame on top. -/
theorem Sync.closing (h : Sync s d) (hpos : 0 < s.stacksize) (c : SCtx (List UInt8))
    (hcstack : c.stack = s.stack) (hcsize : c.stacksize = s.stacksize - 1)
    (hccoll : c.classcoll = s.classcoll) (hcbroken : c.broken = s.broken)
    (hrun : commitTransaction c = some (.eok, s')) (hs' : Settled s') {d' : DCtx}
    (hsize : d'.stacksize = d.stacksize - 1) (hkeep : ∀ i < d.stacksize, d'.stack i = d.stack i)
    (hcoll : d'.classcoll = d.classcoll) (halloc : d'.nalloc = d.nalloc) : Sync s' d' := by
  have hdsize := h.size
  obtain ⟨f, hf, rfl⟩ := commitTransaction_inv hrun
  have hopened := h.below (s.stacksize - 1) (by omega)
  obtain ⟨f', hf', hmatch⟩ := hopened.counted
  have hctop : c.topframe = s.stack (s.stacksize - 1) := by
    unfold SCtx.topframe
    rw [hcstack, hcsize]
  obtain rfl : f' = f := by
    rw [hctop] at hf
    have := hf'.symm.trans hf
    simpa using this
  refine ⟨hs', ?_, ?_, ?_, fun i hi => ?_, ?_, h.heap.pop (by omega) hkeep hcoll halloc⟩
  · show c.broken = false
    rw [hcbroken, h.sound]
  · show d'.stacksize = c.stacksize
    rw [hsize, hcsize, h.size]
  · have hsame : (c.modifyTop fun _ => f').topframe = f' :=
      Stack.modify_same c.stack c.stacksize fun _ => f'
    have hsame' : d'.topframe = d.stack (s.stacksize - 1) := by
      unfold DCtx.topframe
      rw [hsize, hkeep _ (by omega), h.size]
    show FrameMatch (c.modifyTop fun _ => f').topframe d'.topframe
    rw [hsame, hsame']
    exact hmatch
  · have hi' : i < s.stacksize - 1 := by
      rw [← hcsize]
      exact hi
    rw [hkeep i (by omega)]
    show Opened (c.stack.modify c.stacksize (fun _ => f') i) _
    rw [Stack.modify_of_ne _ (by omega), hcstack]
    exact h.below i (by omega)
  · show CollMatch c.classcoll d'.classcoll
    rw [hccoll, hcoll]
    exact h.classes

theorem Sync.congr {d' : DCtx} (h : Sync s d) (hsize : d'.stacksize = d.stacksize)
    (hstack : ∀ i ≤ d.stacksize, d'.stack i = d.stack i) (hcoll : d'.classcoll = d.classcoll)
    (halloc : d'.nalloc = d.nalloc) : Sync s d' := by
  have htop : d'.topframe = d.topframe := by
    unfold DCtx.topframe
    rw [hsize, hstack _ (Nat.le_refl _)]
  refine ⟨h.settled, h.sound, hsize.trans h.size, ?_, fun i hi => ?_, ?_, ?_⟩
  · rw [htop]
    exact h.top
  · rw [hstack i (by rw [h.size]; omega)]
    exact h.below i hi
  · rw [hcoll]
    exact h.classes
  · refine h.heap.mono hcoll halloc fun q hq => ?_
    rcases hq with hq | ⟨i, hi, hk, hc⟩
    · rw [hcoll] at hq
      exact .inl hq
    · rw [hsize] at hi
      rw [hstack i hi] at hk hc
      exact .inr ⟨i, hi, hk, hc⟩

theorem Sync.chunked_top (h : Sync s d) (hid : s.topframe.ctxid = .chunked) :
    s.topframe.kind = .chunked := by
  have hproper := h.top.proper
  unfold Frame.properContext at hproper
  cases hk : s.topframe.kind with
  | chunked => rfl
  | _ => simp [hk, hid, CtxId.regular] at hproper

variable {c : SCtx (List UInt8)}

theorem commit_opening {kind : FrameKind}
    {m : Frame → Frame}
    (hrun : commitTransaction (((c.push kind ctxid).wrote bytes).modifyTop m) = some (.eok, s')) :
    s'.writerctx = c.writerctx ++ bytes ∧ s'.broken = c.broken ∧ s'.stacksize = c.stacksize + 1
      ∧ (∀ i ≤ c.stacksize, s'.stack i = c.stack i) ∧ s'.classcoll = c.classcoll
      ∧ commitFrame (m { c.stack (c.stacksize + 1) with kind := kind, ctxid := ctxid })
        = some (.eok, s'.topframe) := by
  obtain ⟨f, hf, rfl⟩ := commitTransaction_inv hrun
  have htop : (((c.push kind ctxid).wrote bytes).modifyTop m).topframe
      = m { c.stack (c.stacksize + 1) with kind := kind, ctxid := ctxid } := by
    simp [SCtx.topframe, SCtx.modifyTop, SCtx.wrote, SCtx.push]
  rw [htop] at hf
  refine ⟨rfl, rfl, rfl, fun i hi => ?_, rfl, ?_⟩
  · have hne : i ≠ c.stacksize + 1 := by omega
    simp [SCtx.modifyTop, SCtx.wrote, SCtx.push, Stack.modify, hne]
  · rw [hf]
    simp [SCtx.topframe, SCtx.modifyTop, SCtx.wrote, SCtx.push]

/-! ## Collections -/

def collectionData (x : Data) (enc : CollEncoding) (len : Int) : Data :=
  if len < 0 then { x with type := bsdTypeFromFrameKind enc.variableKind }
  else x.put (bsdTypeFromFrameKind enc.fixedKind) (.length len.toNat)

def DCtx.pushCollection (d : DCtx) (enc : CollEncoding) (len : Int) (ctxid : CtxId) : DCtx :=
  let missing := if len < 0 then -1 else len
  d.push (collectionKind len enc) (if len = 0 then .global else ctxid)
    (if enc.fixedKind.isMap then missing * 2 else missing)

variable {len : Int}

theorem opened_eq {enc : CollEncoding} (hmap : enc.variableKind.isMap = enc.fixedKind.isMap)
    (hroom : d.stacksize ≠ bsdStackSize - 1) (hlen : len < 2 ^ 31)
    (hcount : enc.fixedKind.isMap = true → len * 2 < 2 ^ 31) (ctxid : CtxId) (n : Int) {x : Data} :
    opened d x n enc len ctxid
      = some (n, collectionData x enc len, d.pushCollection enc len ctxid) := by
  unfold opened collectionData DCtx.pushCollection collectionKind
  by_cases hneg : len < 0
  · have hne : len ≠ 0 := by omega
    simp only [if_pos hneg, if_neg hne]
    unfold openVariable
    cases hk : enc.fixedKind.isMap with
    | true =>
      rw [dOpenContainer_map hroom (hmap.trans hk) ctxid (by omega)]
      rfl
    | false =>
      rw [dOpenContainer_ok hroom (hmap.trans hk)]
      rfl
  · simp only [if_neg hneg]
    unfold openFixed
    rw [intOfSize_toNat ⟨by omega, hlen⟩]
    cases hk : enc.fixedKind.isMap with
    | true =>
      have := hcount hk
      rw [dOpenContainer_map hroom hk _ (by omega)]
      rfl
    | false =>
      rw [dOpenContainer_ok hroom hk]
      rfl

theorem collectionPlan_exec (h : Sync s d) {bad : Status}
    (hbad : bad ≠ .eok) {finish : Finish} {enc : Option CollEncoding}
    (hexec : Plan.exec acceptAll s (collectionPlan len ctxid bad finish enc) = some (.eok, s')) :
    ∃ e, enc = some e ∧ ctxid.regular = true ∧ s.expects ∧ s.stacksize ≠ bssStackSize - 1
      ∧ finish.run ((s.push (collectionKind len e) ctxid).wrote
          (collectionSegs len ctxid e).flatten) = some (.eok, s') := by
  cases enc with
  | none => cases hexec
  | some e =>
    simp only [collectionPlan] at hexec
    split at hexec
    · exact absurd (Prod.mk.inj (Option.some.inj hexec)).1 hbad
    · next hreg =>
      obtain ⟨hmore, hroom, hrun⟩ := h.exec_write hexec
      exact ⟨e, rfl, by simpa using hreg, hmore, fun hfull => hroom ⟨rfl, hfull⟩, hrun⟩

theorem Finish.run_list {r : Res (List UInt8)}
    (h : Finish.run (.list len) c = some r) :
    ∃ missing, (0 ≤ len → missing = len + 1) ∧ len < 2 ^ 31
      ∧ commitTransaction (c.modifyTop fun f => { f with missing := missing }) = some r := by
  by_cases hlen : 0 ≤ len
  · simp only [Finish.run, if_pos hlen] at h
    obtain ⟨missing, hmissing, h⟩ := bind_eq_some_iff.mp h
    obtain ⟨rfl, -, hlt⟩ := cint_eq_some hmissing
    exact ⟨len + 1, fun _ => rfl, by omega, h⟩
  · simp only [Finish.run, if_neg hlen] at h
    exact ⟨c.topframe.missing, fun h0 => absurd h0 hlen, by omega, h⟩

theorem Finish.run_map {r : Res (List UInt8)}
    (h : Finish.run (.map len) c = some r) :
    ∃ missing, (0 ≤ len → missing = len * 2 + 1) ∧ len * 2 < 2 ^ 31
      ∧ commitTransaction (c.modifyTop fun f => { f with missing := missing, content := .map false })
        = some r := by
  by_cases hlen : 0 ≤ len
  · simp only [Finish.run, if_pos hlen] at h
    obtain ⟨missing, hmissing, h⟩ := bind_eq_some_iff.mp h
    obtain ⟨rfl, -, hlt⟩ := cint_eq_some hmissing
    exact ⟨len * 2 + 1, fun _ => rfl, by omega, h⟩
  · simp only [Finish.run, if_neg hlen] at h
    exact ⟨c.topframe.missing, fun h0 => absurd h0 hlen, by omega, h⟩

/-! ## Objects -/

def DCtx.pushObject (d : DCtx) (q : ClassPtr) : DCtx :=
  { d with
    stacksize := d.stacksize + 1
    stack := d.stack.modify (d.stacksize + 1) fun _ =>
      { kind := .object, ctxid := .global, missing := q.cls.nfields, content := .object q } }

theorem DCtx.pushObject_topframe (d : DCtx) (q : ClassPtr) :
    (d.pushObject q).topframe
      = { kind := .object, ctxid := .global, missing := q.cls.nfields, content := .object q } := by
  simp only [DCtx.pushObject, DCtx.topframe, Stack.modify_same]

theorem DCtx.pushObject_stack_of_le (d : DCtx) (q : ClassPtr) {i : Nat} (h : i ≤ d.stacksize) :
    (d.pushObject q).stack i = d.stack i := by
  have hne : i ≠ d.stacksize + 1 := by omega
  simp only [DCtx.pushObject, Stack.modify_of_ne d.stack hne]

variable {p : ClassPtr}

theorem instantiate_eq (h : Sync s d) {classid : UInt32}
    (hget : s.classcoll.bsClasscollGet classid = some (some p))
    (hroom : d.stacksize ≠ bsdStackSize - 1) :
    ∃ q, q ∈ d.classcoll.classes ∧ q.cls = sentClass p.cls ∧ checkClassdef p.cls = true
      ∧ ∀ (n : Int) (x : Data), instantiate n x d classid
        = some (n, x.put .object (.classdef q), d.pushObject q) := by
  obtain ⟨q, hget', hmem, hcls, hcheck⟩ := h.classes.get hget
  refine ⟨q, hmem, hcls, hcheck, fun n x => ?_⟩
  have hderef := h.heap.deref (.inl hmem : d.points q)
  unfold instantiate bsdObject
  rw [hget']
  simp only [bind_eq_bind, bind_some, hderef,
    dOpenContainer_ok hroom (rfl : FrameKind.object.isMap = false), if_true, DCtx.push,
    DCtx.pushObject, Stack.modify_modify]

theorem Sync.stacksize_pos (h : Sync s d) (hk : s.topframe.kind ≠ .top) : 0 < s.stacksize := by
  rcases Nat.eq_zero_or_pos s.stacksize with h0 | hpos
  · refine absurd ?_ hk
    show (s.stack s.stacksize).kind = .top
    rw [h0]
    exact h.settled.bottom
  · exact hpos

/-! ## Class definitions -/

/-- A definition both sides can store: a new identifier, or the first class of the
collection while no object of it is open. -/
def SCtx.storable (s : SCtx (List UInt8)) (classid : UInt32) : Prop :=
  s.classcoll.indexOf classid = some none
    ∨ s.classcoll.indexOf classid = some (some 0)
      ∧ ∀ i ≤ s.stacksize, ∀ p, (s.stack i).kind = .object → (s.stack i).content = .object p →
        p.cls.classid ≠ classid

/-- Two collections that agree are cut at the same place. -/
theorem forall₂_while {α β : Type} {R : α → β → Prop} (below : α → Bool) (below' : β → Bool)
    (hbelow : ∀ a b, R a b → below a = below' b) {l : List α} {l' : List β}
    (h : List.Forall₂ R l l') :
    List.Forall₂ R (l.takeWhile below) (l'.takeWhile below')
      ∧ List.Forall₂ R (l.dropWhile below) (l'.dropWhile below') := by
  induction h with
  | nil => exact ⟨.nil, .nil⟩
  | @cons a b l l' hab hrest ih =>
    rw [takeWhile_cons, takeWhile_cons, dropWhile_cons, dropWhile_cons,
      hbelow a b hab]
    by_cases hb : below' b = true
    · simp only [if_pos hb]
      exact ⟨.cons hab ih.1, ih.2⟩
    · simp only [if_neg hb]
      exact ⟨.nil, .cons hab hrest⟩

theorem compareClassesById_eq_zero {classid : UInt32}
    (h : ClassColl.compareClassesById classid p = 0) : p.cls.classid = classid := by
  have hlt := (classid - p.cls.classid).toNat_lt
  have hzero : (classid - p.cls.classid).toNat = 0 := by
    unfold ClassColl.compareClassesById toSigned at h
    split at h <;> omega
  have hsub : classid - p.cls.classid = 0 := UInt32.toNat_inj.mp hzero
  have hadd := UInt32.sub_add_cancel classid p.cls.classid
  rwa [hsub, UInt32.zero_add] at hadd

inductive Stored (b : ClassColl) (q : ClassPtr) (b' : ClassColl) : Prop
  | inserted (hfreed : b'.freed = b.freed) (hperm : b'.classes.Perm (q :: b.classes))
  | replaced (e : ClassPtr) (tl : List ClassPtr) (hfound : b.indexOf q.cls.classid = some (some 0))
      (hold : b.classes = e :: tl) (hid : e.cls.classid = q.cls.classid) (hnew : b'.classes = q :: tl)
      (hfreed : b'.freed = e.block :: b.freed ∨ b'.freed = b.freed)

theorem CollMatch.set {a a' b : ClassColl} (h : CollMatch a b) {p q : ClassPtr}
    (hq : q.cls = sentClass p.cls) (hcheck : checkClassdef p.cls = true)
    (hindex : a.indexOf p.cls.classid = some none ∨ a.indexOf p.cls.classid = some (some 0))
    (hset : a.bsClasscollSet p = some a') :
    ∃ b', b.bsClasscollSet q = some b' ∧ CollMatch a' b' ∧ Stored b q b' := by
  have hid : q.cls.classid = p.cls.classid := by rw [hq, sentClass]
  have hindex' := h.indexOf p.cls.classid
  rcases hindex with hnew | hold
  · have hget : a.bsClasscollGet p.cls.classid = some none := by
      rw [ClassColl.bsClasscollGet, hnew]
      rfl
    have hget' : b.bsClasscollGet q.cls.classid = some none := by
      rw [ClassColl.bsClasscollGet, hid, hindex', hnew]
      rfl
    have hlen : a.classes.length = a.nclasses := h.nclasses.symm
    have hlen' : b.classes.length = b.nclasses := h.nclasses'.symm
    simp only [ClassColl.bsClasscollSet, hget, bind_eq_bind, bind_some, hlen,
      if_true] at hset
    simp only [ClassColl.bsClasscollSet, hget', bind_eq_bind, bind_some, hlen',
      if_true]
    obtain rfl := Option.some.inj hset
    obtain ⟨htake, hdrop⟩ := forall₂_while
      (fun r : ClassPtr => decide (r.cls.classid < p.cls.classid))
      (fun r : ClassPtr => decide (r.cls.classid < q.cls.classid))
      (fun r r' hr => by rw [hr.1, hid]; rfl) h.classes
    refine ⟨_, rfl, ⟨rel_append htake (.cons ⟨hq, hcheck⟩ hdrop), ?_, ?_⟩, .inserted rfl ?_⟩
    · simp only [length_append, length_cons, ← hlen]
      have := congrArg List.length (takeWhile_append_dropWhile
        (p := fun r : ClassPtr => decide (r.cls.classid < p.cls.classid)) (l := a.classes))
      rw [length_append] at this
      omega
    · simp only [length_append, length_cons, ← hlen']
      have := congrArg List.length (takeWhile_append_dropWhile
        (p := fun r : ClassPtr => decide (r.cls.classid < q.cls.classid)) (l := b.classes))
      rw [length_append] at this
      omega
    · refine perm_middle.trans ?_
      rw [takeWhile_append_dropWhile]
  · obtain ⟨e, he, hcmp⟩ := Lib.bsearch_found hold
    have heid := compareClassesById_eq_zero hcmp
    have hmatch := h.classes
    cases hclasses : a.classes with
    | nil =>
      rw [hclasses] at he
      cases he
    | cons first tl =>
      rw [hclasses] at he hmatch
      obtain rfl : first = e := Option.some.inj he
      cases hclasses' : b.classes with
      | nil =>
        rw [hclasses'] at hmatch
        cases hmatch
      | cons first' tl' =>
        rw [hclasses'] at hmatch
        cases hmatch with
        | cons hfirst htl =>
          have hget : a.bsClasscollGet p.cls.classid = some (some first) := by
            rw [ClassColl.bsClasscollGet, hold, hclasses]
            rfl
          have hget' : b.bsClasscollGet q.cls.classid = some (some first') := by
            rw [ClassColl.bsClasscollGet, hid, hindex', hold, hclasses']
            rfl
          have hn := h.nclasses
          have hn' := h.nclasses'
          rw [hclasses] at hn
          rw [hclasses'] at hn'
          simp only [ClassColl.bsClasscollSet, hget, hclasses, List.getElem?_cons_zero,
            bind_eq_bind, bind_some, if_true, set_cons_zero] at hset
          simp only [ClassColl.bsClasscollSet, hget', hclasses', List.getElem?_cons_zero,
            bind_eq_bind, bind_some, if_true, set_cons_zero]
          obtain rfl := Option.some.inj hset
          refine ⟨_, rfl, ⟨.cons ⟨hq, hcheck⟩ htl, by simpa using hn, by simpa using hn'⟩,
            .replaced first' tl' (by rw [hid, hindex', hold]) hclasses' ?_ rfl ?_⟩
          · rw [hfirst.1, hid, ← heid]
            rfl
          · simp only
            split
            · exact .inl rfl
            · exact .inr rfl

theorem Heap.define {d : DCtx} (h : Heap d) {q : ClassPtr} (hq : q.block = d.nalloc)
    {coll : ClassColl} (hstored : Stored d.classcoll q coll)
    (hclosed : d.classcoll.indexOf q.cls.classid = some (some 0) →
      ∀ i ≤ d.stacksize, ∀ r, (d.stack i).kind = .object → (d.stack i).content = .object r →
        r.cls.classid ≠ q.cls.classid) :
    Heap (d.define coll) := by
  have hfresh (r : ClassPtr) (hr : d.points r) : r.block ≠ q.block := by
    have := h.allocated r hr
    omega
  have hqfree : q.block ∉ d.classcoll.freed := by
    intro hmem
    have := h.freed _ hmem
    omega
  -- What the new context follows is the new definition or was followed before.
  have hpoints : ∀ r, (d.define coll).points r → r = q ∨ d.points r := by
    intro r hr
    rcases hr with hr | hr
    · cases hstored with
      | inserted hfreed hperm =>
        rcases mem_cons.mp (hperm.subset hr) with rfl | hold
        · exact .inl rfl
        · exact .inr (.inl hold)
      | replaced e tl hfound hold hid hnew hfreed =>
        change r ∈ coll.classes at hr
        rw [hnew] at hr
        rcases mem_cons.mp hr with rfl | hr
        · exact .inl rfl
        · refine .inr (.inl ?_)
          rw [hold]
          exact mem_cons_of_mem _ hr
    · exact .inr (.inr hr)
  -- A replaced definition is not followed any more.
  have hgone : ∀ e tl, d.classcoll.indexOf q.cls.classid = some (some 0) →
      d.classcoll.classes = e :: tl → e.cls.classid = q.cls.classid →
      coll.classes = q :: tl → ∀ r, (d.define coll).points r → r.block ≠ e.block := by
    intro e tl hfound hold hid hnew r hr
    have he : d.points e := .inl (by rw [hold]; exact mem_cons_self ..)
    have hnodup := h.nodup
    rw [hold, map_cons, nodup_cons] at hnodup
    rcases hr with hr | ⟨i, hi, hk, hc⟩
    · change r ∈ coll.classes at hr
      rw [hnew] at hr
      rcases mem_cons.mp hr with rfl | hr
      · exact (hfresh e he).symm
      · intro hblock
        exact hnodup.1 (hblock ▸ mem_map_of_mem hr)
    · intro hblock
      obtain rfl := h.separate r e (.inr ⟨i, hi, hk, hc⟩) he hblock
      exact hclosed hfound i hi r hk hc hid
  refine ⟨fun r hr => ?_, fun r r' hr hr' hblock => ?_, fun r hr => ?_, fun b hb => ?_, ?_⟩
  · show r.block < d.nalloc + 1
    rcases hpoints r hr with rfl | hold
    · omega
    · have := h.allocated r hold
      omega
  · rcases hpoints r hr with rfl | hold
    · rcases hpoints r' hr' with rfl | hold'
      · rfl
      · exact absurd hblock.symm (hfresh r' hold')
    · rcases hpoints r' hr' with rfl | hold'
      · exact absurd hblock (hfresh r hold)
      · exact h.separate r r' hold hold' hblock
  · have hlive : r.block ∉ d.classcoll.freed := by
      rcases hpoints r hr with rfl | hold
      · exact hqfree
      · exact h.live r hold
    show r.block ∉ coll.freed
    cases hstored with
    | inserted hfreed hperm =>
      rw [hfreed]
      exact hlive
    | replaced e tl hfound hold hid hnew hfreed =>
      rcases hfreed with hfreed | hfreed
      · rw [hfreed]
        intro hmem
        rcases mem_cons.mp hmem with hblock | hmem
        · exact hgone e tl hfound hold hid hnew r hr hblock
        · exact hlive hmem
      · rw [hfreed]
        exact hlive
  · show b < d.nalloc + 1
    have hold (hb : b ∈ d.classcoll.freed) : b < d.nalloc + 1 := by
      have := h.freed b hb
      omega
    change b ∈ coll.freed at hb
    cases hstored with
    | inserted hfreed hperm =>
      rw [hfreed] at hb
      exact hold hb
    | replaced e tl hfound hclasses hid hnew hfreed =>
      rcases hfreed with hfreed | hfreed
      · rw [hfreed] at hb
        rcases mem_cons.mp hb with rfl | hb
        · have := h.allocated e (.inl (by rw [hclasses]; exact mem_cons_self ..))
          omega
        · exact hold hb
      · rw [hfreed] at hb
        exact hold hb
  · show (coll.classes.map (·.block)).Nodup
    have hnotin (l : List ClassPtr) (hl : ∀ r ∈ l, r ∈ d.classcoll.classes) :
        q.block ∉ l.map (·.block) := by
      intro hmem
      obtain ⟨r, hr, hblock⟩ := mem_map.mp hmem
      exact hfresh r (.inl (hl r hr)) hblock
    cases hstored with
    | inserted hfreed hperm =>
      refine (hperm.map (·.block)).nodup_iff.mpr ?_
      rw [map_cons, nodup_cons]
      exact ⟨hnotin _ fun r hr => hr, h.nodup⟩
    | replaced e tl hfound hold hid hnew hfreed =>
      have hnodup := h.nodup
      rw [hold, map_cons, nodup_cons] at hnodup
      rw [hnew, map_cons, nodup_cons]
      refine ⟨hnotin _ fun r hr => ?_, hnodup.2⟩
      rw [hold]
      exact mem_cons_of_mem _ hr

theorem commitFrame_uncount {f f₁ f₂ : Frame} {st : Status} (hdef : f.kind ≠ .classdef)
    (hmore : f.kind.fixed = true → 0 < f.missing) (h₁ : uncountFrame f = some f₁)
    (h₂ : commitFrame f₁ = some (st, f₂)) : f₂ = f := by
  obtain ⟨kind, ctxid, missing, content⟩ := f
  cases kind with
  | classdef => exact absurd rfl hdef
  | top | zlist | chunked =>
    cases h₁
    cases h₂
    rfl
  | zmap =>
    cases content <;> cases h₁
    cases h₂
    simp
  | map =>
    have hpos := hmore rfl
    have hne : missing + 1 ≠ 0 := by
      simp only at hpos
      omega
    cases content <;> cases h₁
    simp [commitFrame, Frame.toggle, Frame.even, hne] at h₂
    simp [← h₂.2]
  | list | object =>
    have hpos := hmore rfl
    have hne : missing + 1 ≠ 0 := by
      simp only at hpos
      omega
    cases h₁
    simp [commitFrame, hne] at h₂
    simp [← h₂.2]

theorem commitFrame_object {f f' : Frame} {st : Status} (hk : f.kind = .object)
    (h : commitFrame f = some (st, f')) : f'.kind = .object ∧ f'.content = f.content := by
  obtain ⟨kind, ctxid, missing, content⟩ := f
  cases hk
  simp only [commitFrame] at h
  split at h <;> cases h <;> exact ⟨rfl, rfl⟩

theorem Sync.object_at (h : Sync s d) {i : Nat} (hi : i ≤ d.stacksize) {r : ClassPtr}
    (hk : (d.stack i).kind = .object) (hc : (d.stack i).content = .object r) :
    ∃ p, (s.stack i).kind = .object ∧ (s.stack i).content = .object p
      ∧ r.cls = sentClass p.cls := by
  have hsize := h.size
  rcases Nat.lt_or_ge i s.stacksize with hlt | hge
  · have hopened := h.below i hlt
    obtain ⟨f', hcommit, hmatch⟩ := hopened.counted
    have hkind : (s.stack i).kind = .object := hopened.kind.symm.trans hk
    obtain ⟨hkind', hcontent⟩ := commitFrame_object hkind hcommit
    obtain ⟨p, q, hf, hg, hcls, -⟩ := hmatch.object hkind'
    obtain rfl : r = q := by
      rw [hc] at hg
      exact FrameContent.object.inj hg
    exact ⟨p, hkind, hcontent.symm.trans hf, hcls⟩
  · obtain rfl : i = s.stacksize := by omega
    have hmatch := h.top
    rw [h.topframe_eq] at hmatch
    have hkind : (s.stack s.stacksize).kind = .object := hmatch.kind.symm.trans hk
    obtain ⟨p, q, hf, hg, hcls, -⟩ := hmatch.object hkind
    obtain rfl : r = q := by
      rw [hc] at hg
      exact FrameContent.object.inj hg
    exact ⟨p, hkind, hf, hcls⟩

theorem Stack.modify_self (st : Stack) (i : Nat) : (st.modify i fun _ => st i) = st := by
  funext j
  by_cases h : j = i
  · rw [h, modify_same]
  · rw [modify_of_ne _ h]

/-- A class definition: both collections change, both stacks stay. -/
theorem Sync.defining (h : Sync s d) (hmore : s.expects)
    (hstorable : s.storable p.cls.classid) (hcheck : checkClassdef p.cls = true)
    (hrun : Finish.run (.classdef p) (s.wrote bytes) = some (.eok, s'))
    (hs' : Settled s') :
    ∃ coll, d.classcoll.bsClasscollSet { block := d.nalloc, cls := sentClass p.cls } = some coll
      ∧ ∀ n : Int, Sync s' { d.define coll with read := d.read + n } := by
  obtain ⟨a', hset, hrun⟩ := bind_eq_some_iff.mp hrun
  obtain ⟨f₁, hf₁, hrun⟩ := bind_eq_some_iff.mp hrun
  obtain ⟨f₂, hf₂, rfl⟩ := commitTransaction_inv hrun
  have hindex : s.classcoll.indexOf p.cls.classid = some none
      ∨ s.classcoll.indexOf p.cls.classid = some (some 0) := by
    rcases hstorable with hnew | ⟨hold, -⟩
    · exact .inl hnew
    · exact .inr hold
  obtain ⟨coll, hcoll, hmatch, hstored⟩ := h.classes.set (q := ⟨d.nalloc, sentClass p.cls⟩) rfl
    hcheck hindex hset
  have hheap : Heap (d.define coll) := by
    refine h.heap.define rfl hstored fun hfound i hi r hk hc => ?_
    obtain ⟨p', hk', hc', hcls⟩ := h.object_at hi hk hc
    rcases hstorable with hnew | ⟨-, hclosed⟩
    · have hfound' : s.classcoll.indexOf p.cls.classid = some (some 0) :=
        (h.classes.indexOf _).symm.trans hfound
      rw [hnew] at hfound'
      cases hfound'
    · rw [hcls]
      exact hclosed i (by rw [← h.size]; exact hi) p' hk' hc'
  obtain rfl : f₂ = s.topframe := by
    have htop : ({ s.wrote bytes with classcoll := a' }.modifyTop fun _ => f₁).topframe = f₁ :=
      Stack.modify_same s.stack s.stacksize fun _ => f₁
    rw [htop] at hf₂
    exact commitFrame_uncount h.kind_ne_classdef hmore hf₁ hf₂
  have hstack : (({ s.wrote bytes with classcoll := a' }.modifyTop fun _ => f₁).modifyTop
      fun _ => s.topframe).stack = s.stack := by
    show (s.stack.modify s.stacksize fun _ => f₁).modify s.stacksize (fun _ => s.stack s.stacksize)
      = s.stack
    rw [Stack.modify_modify, Stack.modify_self]
  refine ⟨coll, hcoll, fun n => ⟨hs', h.sound, h.size, ?_, fun i hi => ?_, hmatch,
    hheap.mono rfl rfl fun q hq => hq⟩⟩
  · show FrameMatch ((({ s.wrote bytes with classcoll := a' }.modifyTop fun _ => f₁).modifyTop
      fun _ => s.topframe).stack s.stacksize) d.topframe
    rw [hstack]
    exact h.top
  · show Opened ((({ s.wrote bytes with classcoll := a' }.modifyTop fun _ => f₁).modifyTop
      fun _ => s.topframe).stack i) (d.stack i)
    rw [hstack]
    exact h.below i hi

def SCtx.afterField (s : SCtx (List UInt8)) : Prop :=
  ∀ p, s.topframe.kind = .object → s.topframe.content = .object p →
    s.topframe.missing ≠ p.cls.nfields

theorem Sync.read_class [CFloat] (h : Sync s d) (hmore : s.expects) (hafter : s.afterField)
    (hctx : s.getctxid = some .global) {coll : ClassColl}
    (hheap : Heap (d.define coll))
    (hread : bsdGlobal d { x with type := .null } bytes (-2) = some (n, x', d.define coll))
    (hn : 0 ≤ n) (hdef : x'.type = .classdef) :
    ∃ kind name, bsdRead d x bytes (-2)
      = some (n, { x' with kind := kind, fieldname := name },
          { d.define coll with read := d.read + n }) := by
  have hdescribed : Described d.topframe := by
    refine ⟨fun hk => ?_, fun hk => ?_⟩
    · obtain ⟨even, -, hg⟩ := h.top.even (by rwa [← h.top.kind])
      exact ⟨even, hg⟩
    · have hk' : s.topframe.kind = .object := h.top.kind.symm.trans hk
      obtain ⟨p, q, hf, hg, hcls, -, hle⟩ := h.top.object hk'
      have hne := hafter p hk' hf
      have hpos := hmore (by rw [hk']; rfl)
      have hmissing := h.top.fixed (by rw [hk']; rfl)
      refine ⟨q, hg, by omega, ?_⟩
      rw [hcls, sentClass_nfields]
      omega
  have hok : ¬ (n < 0 ∨ x'.type = .error) := by
    rw [hdef]
    rintro (hneg | herr)
    · omega
    · cases herr
  obtain ⟨kind, name, hdesc⟩ := @Described.describe _ hdescribed (d.define coll) rfl hheap x'
  refine ⟨kind, name, ?_⟩
  unfold bsdRead
  rw [if_neg (h.missing_ne_zero hmore), (h.getctxid hmore hctx).1, bind_eq_bind,
    bind_some, bsdContext, hread]
  show bsdReadDone d.stacksize n x' (d.define coll) = _
  unfold bsdReadDone
  rw [if_neg hok, if_pos hdef]
  simp only [bind_eq_bind, bind_some, Stack.modify_self]
  rw [if_neg (by exact Nat.lt_irrefl d.stacksize)]
  show (describe (d.define coll) x').bind _ = _
  rw [hdesc]
  rfl

end

end Mihini.Bysant
