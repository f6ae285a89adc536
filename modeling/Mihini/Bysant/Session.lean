import Mihini.Bysant.Plan

/-!
# Sessions of the serializer

Operations one after the other, with a writer that takes everything.  Between
two operations nothing is pending and the counts of the open containers are
consistent (`Settled`).
-/

namespace Mihini.Bysant

open Lib.Bytes Option

/-- Between operations: all bytes are acknowledged, and an open container still
expects the one inside it. -/
structure Settled {W : Type} (c : SCtx W) : Prop where
  written : c.written = c.acknowledged
  stacksize : c.acknowledgedStacksize = c.stacksize
  bottom : (c.stack 0).kind = .top
  kinds : ∀ i ≤ c.stacksize, (c.stack i).kind ≠ .classdef
  counts : ∀ i ≤ c.stacksize, (c.stack i).kind.fixed = true → 0 ≤ (c.stack i).missing
  below : ∀ i < c.stacksize, (c.stack i).kind.fixed = true → 0 < (c.stack i).missing

section
variable {W : Type}

/-! ## Transactions of a settled context -/

def SCtx.rollback (c : SCtx W) : SCtx W := { c with stacksize := c.acknowledgedStacksize }

theorem starting_eq (c : SCtx W) (k : SCtx W → Option (Res W)) :
    starting c k
      = if c.broken then some (.ebroken, c.rollback)
        else if c.topframe.kind.fixed = true ∧ c.topframe.missing = 0 then
          some (.esize, c.rollback)
        else k { c.rollback with skipped := 0 } := by
  unfold starting startTransaction
  by_cases hbroken : c.broken = true
  · simp only [if_pos hbroken]
    rfl
  by_cases hdone : c.topframe.kind.fixed = true ∧ c.topframe.missing = 0
  · simp only [if_neg hbroken, if_pos hdone]
    rfl
  · simp only [if_neg hbroken, if_neg hdone]
    rfl

variable {c : SCtx W}

theorem SCtx.rollback_of_settled (h : c.acknowledgedStacksize = c.stacksize) :
    c.rollback = c := by
  obtain ⟨w, written, acknowledged, skipped, broken, stacksize, acked, coll, stack⟩ := c
  exact congrArg (fun n => SCtx.mk w written acknowledged skipped broken n acked coll stack) h

def SCtx.pushed (c : SCtx W) : Option (FrameKind × CtxId) → SCtx W
  | none => c
  | some (kind, ctxid) => c.push kind ctxid

theorem SCtx.pushed_stack_of_le (c : SCtx W) (push : Option (FrameKind × CtxId)) {i : Nat}
    (h : i ≤ c.stacksize) : (c.pushed push).stack i = c.stack i := by
  cases push with
  | none => rfl
  | some top =>
    obtain ⟨kind, ctxid⟩ := top
    have hne : i ≠ c.stacksize + 1 := by omega
    show c.stack.modify (c.stacksize + 1) (fun f => { f with kind := kind, ctxid := ctxid }) i = _
    rw [Stack.modify_of_ne _ hne]

def SCtx.full (c : SCtx W) (push : Option (FrameKind × CtxId)) : Prop :=
  push.isSome = true ∧ c.stacksize = bssStackSize - 1

instance (c : SCtx W) (push : Option (FrameKind × CtxId)) : Decidable (c.full push) :=
  inferInstanceAs (Decidable (_ ∧ _))

theorem pushThen_eq (push : Option (FrameKind × CtxId)) (c : SCtx W) (k : SCtx W → Res W) :
    pushThen push c k = if c.full push then (.etoodeep, c) else k (c.pushed push) := by
  cases push with
  | none => simp [pushThen, SCtx.full, SCtx.pushed]
  | some top => simp [pushThen, SCtx.full, SCtx.pushed]

variable {st : Status}

theorem commitFrame_ok {f : Frame} (hkind : f.kind ≠ .classdef)
    (hcount : f.kind.fixed = true → 0 < f.missing) {f' : Frame}
    (h : commitFrame f = some (st, f')) :
    st = .eok ∧ f'.kind = f.kind ∧ f'.ctxid = f.ctxid
      ∧ (f.kind.fixed = true → f'.missing = f.missing - 1) := by
  unfold commitFrame at h
  cases hk : f.kind
  case classdef => exact absurd hk hkind
  case zmap =>
    simp only [hk, Frame.toggle] at h
    obtain ⟨f₁, h₁, h⟩ := bind_eq_some_iff.mp h
    obtain ⟨even, -, h₁⟩ := bind_eq_some_iff.mp h₁
    cases h₁
    cases h
    exact ⟨rfl, rfl, rfl, by simp [FrameKind.fixed]⟩
  case map =>
    simp only [hk, Frame.toggle] at h
    obtain ⟨f₁, h₁, h⟩ := bind_eq_some_iff.mp h
    obtain ⟨even, -, h₁⟩ := bind_eq_some_iff.mp h₁
    cases h₁
    have hpos : f.missing ≠ 0 := by
      have := hcount (by rw [hk]; rfl)
      omega
    simp only [if_neg hpos] at h
    cases h
    exact ⟨rfl, rfl, rfl, fun _ => rfl⟩
  case list | object =>
    have hpos : f.missing ≠ 0 := by
      have := hcount (by rw [hk]; rfl)
      omega
    simp only [hk, if_neg hpos] at h
    cases h
    exact ⟨rfl, rfl, rfl, fun _ => rfl⟩
  all_goals
    simp only [hk] at h
    cases h
    exact ⟨rfl, hk, rfl, by simp [FrameKind.fixed]⟩

/-- Every open container of fixed length expects an element. -/
structure Ready (c : SCtx W) : Prop where
  bottom : (c.stack 0).kind = .top
  kinds : ∀ i ≤ c.stacksize, (c.stack i).kind ≠ .classdef
  counts : ∀ i ≤ c.stacksize, (c.stack i).kind.fixed = true → 0 < (c.stack i).missing

theorem Settled.ready (h : Settled c)
    (hmore : ¬ (c.topframe.kind.fixed = true ∧ c.topframe.missing = 0)) : Ready c := by
  refine ⟨h.bottom, h.kinds, fun i hi hfixed => ?_⟩
  rcases Nat.lt_or_ge i c.stacksize with hlt | hge
  · exact h.below i hlt hfixed
  · obtain rfl : i = c.stacksize := Nat.le_antisymm hi hge
    have hcount := h.counts _ hi hfixed
    have hne : (c.stack c.stacksize).missing ≠ 0 := fun h0 => hmore ⟨hfixed, h0⟩
    omega

theorem Settled.ready_below (h : Settled c) (htop : c.topframe.kind ≠ .top) :
    Ready { c with stacksize := c.stacksize - 1 } := by
  have hpos : 0 < c.stacksize := by
    rcases Nat.eq_zero_or_pos c.stacksize with h0 | hpos
    · refine absurd ?_ htop
      show (c.stack c.stacksize).kind = .top
      rw [h0]
      exact h.bottom
    · exact hpos
  refine ⟨h.bottom, fun i hi => h.kinds i ?_, fun i hi => h.below i ?_⟩
  · have : i ≤ c.stacksize - 1 := hi
    omega
  · have : i ≤ c.stacksize - 1 := hi
    omega

theorem Ready.below (h : Ready c) : Ready { c with stacksize := c.stacksize - 1 } := by
  refine ⟨h.bottom, fun i hi => h.kinds i ?_, fun i hi => h.counts i ?_⟩ <;>
  · have : i ≤ c.stacksize - 1 := hi
    omega

theorem Ready.modifyTop (h : Ready c) (g : Frame → Frame)
    (hkind : (g c.topframe).kind = c.topframe.kind)
    (hcount : (g c.topframe).kind.fixed = true → 0 < (g c.topframe).missing) :
    Ready (c.modifyTop g) := by
  refine ⟨?_, fun i hi => ?_, fun i hi => ?_⟩
  · refine Stack.modify_cases (P := fun f => f.kind = .top) c.stack c.stacksize g 0
      (fun h0 => ?_) (fun _ => h.bottom)
    have hbottom := h.bottom
    rw [h0] at hbottom
    exact hkind.trans hbottom
  · refine Stack.modify_cases (P := fun f => f.kind ≠ .classdef) c.stack c.stacksize g i
      (fun _ => ?_) (fun _ => h.kinds i hi)
    exact fun hdef => h.kinds _ (Nat.le_refl _) (hkind.symm.trans hdef)
  · exact Stack.modify_cases (P := fun f => f.kind.fixed = true → 0 < f.missing) c.stack
      c.stacksize g i (fun _ => hcount) (fun _ => h.counts i hi)

theorem commitTransaction_settled {c c' : SCtx W} (hc : Ready c)
    (h : commitTransaction c = some (st, c')) : st = .eok ∧ Settled c' := by
  obtain ⟨⟨st', f⟩, hf, h⟩ := bind_eq_some_iff.mp h
  have htop : c.stacksize ≤ c.stacksize := Nat.le_refl _
  obtain ⟨rfl, hkind, hctxid, hmissing⟩ :=
    commitFrame_ok (hc.kinds _ htop) (hc.counts _ htop) hf
  simp only [if_true] at h
  obtain ⟨rfl, rfl⟩ := Prod.mk.inj (Option.some.inj h)
  have hcounts (i : Nat) (hi : i ≤ c.stacksize) :
      ((c.stack.modify c.stacksize fun _ => f) i).kind.fixed = true
        → 0 ≤ ((c.stack.modify c.stacksize fun _ => f) i).missing := by
    refine Stack.modify_cases (P := fun f => f.kind.fixed = true → 0 ≤ f.missing) c.stack _ _ i
      (fun _ hfixed => ?_) (fun _ hfixed => ?_)
    · rw [hkind] at hfixed
      have hpos : 0 < c.topframe.missing := hc.counts _ htop hfixed
      have hdec : f.missing = c.topframe.missing - 1 := hmissing hfixed
      omega
    · exact Int.le_of_lt (hc.counts i hi hfixed)
  refine ⟨rfl, rfl, rfl, ?_, fun i hi => ?_, hcounts, fun i hi => ?_⟩
  · refine Stack.modify_cases (P := fun f => f.kind = .top) c.stack _ _ 0
      (fun h0 => ?_) (fun _ => hc.bottom)
    have hbottom := hc.bottom
    rw [h0] at hbottom
    exact hkind.trans hbottom
  · refine Stack.modify_cases (P := fun f => f.kind ≠ .classdef) c.stack _ _ i
      (fun _ hdef => ?_) (fun _ => hc.kinds i hi)
    exact hc.kinds _ htop (hkind.symm.trans hdef)
  · have hi' : i < c.stacksize := hi
    refine Stack.modify_cases (P := fun f => f.kind.fixed = true → 0 < f.missing) c.stack _ _ i
      (fun h0 => ?_) (fun _ => hc.counts i (Nat.le_of_lt hi'))
    omega

/-! ## The end of an operation -/

theorem uncountFrame_spec {f f' : Frame} (h : uncountFrame f = some f') :
    f'.kind = f.kind ∧ (f.kind.fixed = true → f'.missing = f.missing + 1) := by
  unfold uncountFrame at h
  cases hk : f.kind
  case zmap =>
    simp only [hk, Frame.toggle] at h
    obtain ⟨even, -, h⟩ := bind_eq_some_iff.mp h
    cases h
    exact ⟨rfl, by simp [FrameKind.fixed]⟩
  case map =>
    simp only [hk, Frame.toggle] at h
    obtain ⟨f₁, h₁, h⟩ := bind_eq_some_iff.mp h
    obtain ⟨even, -, h₁⟩ := bind_eq_some_iff.mp h₁
    cases h₁
    cases h
    exact ⟨rfl, fun _ => rfl⟩
  case list | object =>
    simp only [hk] at h
    cases h
    exact ⟨rfl, fun _ => rfl⟩
  all_goals
    simp only [hk] at h
    cases h
    exact ⟨hk, by simp [FrameKind.fixed]⟩

theorem cint_eq_some {x y : Int} (h : cint x = some y) : y = x ∧ -2 ^ 31 ≤ x ∧ x < 2 ^ 31 := by
  unfold cint at h
  split at h
  · next hx => exact ⟨(Option.some.inj h).symm, hx⟩
  · cases h

theorem Ready.push (h : Ready c) (kind : FrameKind) (ctxid : CtxId)
    (g : Frame → Frame) (hkind : ∀ f, (g f).kind = f.kind) (hdef : kind ≠ .classdef)
    (hcount : ∀ f, kind.fixed = true → 0 < (g f).missing) :
    Ready ((c.push kind ctxid).modifyTop g) := by
  have hstack : ((c.push kind ctxid).modifyTop g).stack
      = c.stack.modify (c.stacksize + 1)
          fun f => g { f with kind := kind, ctxid := ctxid } :=
    Stack.modify_modify c.stack (c.stacksize + 1)
      (fun f => { f with kind := kind, ctxid := ctxid }) g
  refine ⟨?_, fun i hi => ?_, fun i hi => ?_⟩
  · rw [hstack, Stack.modify_of_ne _ (by omega)]
    exact h.bottom
  · have hi' : i ≤ c.stacksize + 1 := hi
    rw [hstack]
    refine Stack.modify_cases (P := fun f => f.kind ≠ .classdef) c.stack _ _ i (fun _ => ?_)
      (fun hne => h.kinds i (by omega))
    rw [hkind]
    exact hdef
  · have hi' : i ≤ c.stacksize + 1 := hi
    rw [hstack]
    refine Stack.modify_cases (P := fun f => f.kind.fixed = true → 0 < f.missing) c.stack _ _ i
      (fun _ hfixed => hcount _ ?_) (fun hne => h.counts i (by omega))
    rwa [hkind] at hfixed

theorem Ready.congr {V : Type} {c' : SCtx V} (h : Ready c) (hstack : c'.stack = c.stack)
    (hsize : c'.stacksize = c.stacksize) : Ready c' := by
  refine ⟨?_, ?_, ?_⟩
  · rw [hstack]
    exact h.bottom
  · rw [hstack, hsize]
    exact h.kinds
  · rw [hstack, hsize]
    exact h.counts

/-- Once its bytes are written an operation succeeds, and leaves a settled
context. -/
theorem Finish.run_settled {c₀ c c' : SCtx W} {push : Option (FrameKind × CtxId)}
    {finish : Finish} (hc₀ : Ready c₀) (hshape : Shape c₀.topframe push finish)
    (hstack : c.stack = (c₀.pushed push).stack) (hsize : c.stacksize = (c₀.pushed push).stacksize)
    (h : finish.run c = some (st, c')) : st = .eok ∧ Settled c' := by
  have hready (g : Frame → Frame) (hg : Ready ((c₀.pushed push).modifyTop g)) :
      Ready (c.modifyTop g) := by
    refine hg.congr ?_ hsize
    show c.stack.modify c.stacksize g = (c₀.pushed push).stack.modify (c₀.pushed push).stacksize g
    rw [hstack, hsize]
  cases hshape with
  | value => exact commitTransaction_settled (hc₀.congr hstack hsize) h
  | classdef p =>
    obtain ⟨coll, -, h⟩ := bind_eq_some_iff.mp h
    obtain ⟨f, hf, h⟩ := bind_eq_some_iff.mp h
    have htop : c.topframe = c₀.topframe := by
      unfold SCtx.topframe
      rw [hstack, hsize]
      rfl
    change uncountFrame c.topframe = some f at hf
    rw [htop] at hf
    obtain ⟨hkind, hmissing⟩ := uncountFrame_spec hf
    refine commitTransaction_settled ?_ h
    refine (hready (fun _ => f) ?_).congr rfl rfl
    refine hc₀.modifyTop _ hkind fun hfixed => ?_
    have hfixed' : c₀.topframe.kind.fixed = true := hkind ▸ hfixed
    have hpos : 0 < c₀.topframe.missing := hc₀.counts _ (Nat.le_refl _) hfixed'
    have hadd : f.missing = c₀.topframe.missing + 1 := hmissing hfixed'
    show 0 < f.missing
    omega
  | close htop =>
    exact commitTransaction_settled (hc₀.congr hstack hsize).below h
  | chunked =>
    refine commitTransaction_settled ?_ h
    refine (hc₀.push .chunked .chunked id (fun _ => rfl) (by simp)
      (by simp [FrameKind.fixed])).congr ?_ hsize
    rw [hstack]
    funext i
    by_cases hi : i = c₀.stacksize + 1 <;>
      simp [SCtx.pushed, SCtx.push, SCtx.modifyTop, Stack.modify, hi]
  | object p =>
    obtain ⟨cls, -, h⟩ := bind_eq_some_iff.mp h
    obtain ⟨missing, hmissing, h⟩ := bind_eq_some_iff.mp h
    obtain ⟨rfl, -⟩ := cint_eq_some hmissing
    refine commitTransaction_settled (hready _ ?_) h
    refine hc₀.push .object .object _ (fun _ => rfl) (by simp) (fun _ _ => ?_)
    show 0 < cls.nfields + 1
    unfold BsClass.nfields
    omega
  | map len ctxid =>
    by_cases hlen : 0 ≤ len
    · simp only [Finish.run, if_pos hlen] at h
      obtain ⟨missing, hmissing, h⟩ := bind_eq_some_iff.mp h
      obtain ⟨rfl, -⟩ := cint_eq_some hmissing
      refine commitTransaction_settled (hready _ ?_) h
      refine hc₀.push _ ctxid _ (fun _ => rfl) (by split <;> simp) (fun _ _ => ?_)
      show 0 < len * 2 + 1
      omega
    · simp only [Finish.run, if_neg hlen] at h
      refine commitTransaction_settled (hready _ ?_) h
      refine hc₀.push _ ctxid _ (fun _ => rfl) (by split <;> simp) (fun _ hfixed => ?_)
      rw [if_pos (by omega)] at hfixed
      cases hfixed
  | list len ctxid =>
    by_cases hlen : 0 ≤ len
    · simp only [Finish.run, if_pos hlen] at h
      obtain ⟨missing, hmissing, h⟩ := bind_eq_some_iff.mp h
      obtain ⟨rfl, -⟩ := cint_eq_some hmissing
      refine commitTransaction_settled (hready _ ?_) h
      refine hc₀.push _ ctxid _ (fun _ => rfl) (by split <;> simp) (fun _ _ => ?_)
      show 0 < len + 1
      omega
    · simp only [Finish.run, if_neg hlen] at h
      refine commitTransaction_settled (hready _ ?_) h
      refine hc₀.push _ ctxid _ (fun _ => rfl) (by split <;> simp) (fun _ hfixed => ?_)
      rw [if_pos (by omega)] at hfixed
      cases hfixed

/-! ## A writer that takes everything -/

/-- A writer that takes everything is never asked twice. -/
theorem writeSegs_acceptAll (c : SCtx (List UInt8)) (segs : List (List UInt8))
    (hc : c.written - c.acknowledged - c.skipped = 0) :
    writeSegs acceptAll c segs = (.eok, { c with
      writerctx := c.writerctx ++ segs.flatten
      written := c.written + segs.flatten.length
      skipped := c.skipped + segs.flatten.length }) := by
  induction segs generalizing c with
  | nil => simp [writeSegs]
  | cons seg segs ih =>
    have hdata : writeData acceptAll c seg = (.eok, { c with
        writerctx := c.writerctx ++ seg
        written := c.written + seg.length
        skipped := c.skipped + seg.length }) := by
      have hn : ¬ (seg.length : Int) < 0 := by omega
      simp [writeData, hc, acceptAll, hn]
    rw [writeSegs, hdata]
    show writeSegs acceptAll _ segs = _
    rw [ih _ (by show c.written + _ - c.acknowledged - (c.skipped + _) = 0; omega)]
    simp only [List.flatten_cons, List.append_assoc, List.length_append, Nat.cast_add,
      Int.add_assoc]


def SCtx.wrote (c : SCtx (List UInt8)) (bytes : List UInt8) : SCtx (List UInt8) :=
  { c with
    writerctx := c.writerctx ++ bytes
    written := c.written + bytes.length
    skipped := bytes.length }

theorem Plan.exec_write {c : SCtx (List UInt8)} (hc : Settled c)
    (push : Option (FrameKind × CtxId)) (segs : List (List UInt8)) (finish : Finish) :
    Plan.exec acceptAll c (.write push segs finish)
      = if c.broken then some (.ebroken, c)
        else if c.topframe.kind.fixed = true ∧ c.topframe.missing = 0 then some (.esize, c)
        else if c.full push then some (.etoodeep, { c with skipped := 0 })
        else finish.run ((c.pushed push).wrote segs.flatten) := by
  have hpushed : ({ c with skipped := 0 } : SCtx (List UInt8)).pushed push
      = { c.pushed push with skipped := 0 } := by
    cases push <;> rfl
  have hfresh : (c.pushed push).written - (c.pushed push).acknowledged = 0 := by
    cases push <;> simp [SCtx.pushed, SCtx.push, SCtx.modifyTop, hc.written]
  simp only [Plan.exec, starting_eq, SCtx.rollback_of_settled hc.stacksize, pushThen_eq, hpushed]
  congr 2
  by_cases hfull : c.full push
  · rw [if_pos hfull, if_pos (by exact hfull)]
    simp [tryThenO, abandon, hc.written]
  · rw [if_neg hfull, if_neg (by exact hfull), writeSegs_acceptAll _ _ (by simpa using hfresh)]
    simp [tryThenO, SCtx.wrote]

theorem Plan.exec_settled {c c' : SCtx (List UInt8)} {plan : Plan}
    (hc : Settled c) (hplan : plan.Sound c.topframe)
    (h : Plan.exec acceptAll c plan = some (st, c')) : st ≠ .eagain ∧ Settled c' := by
  have hskip : Settled { c with skipped := 0 } :=
    ⟨hc.written, hc.stacksize, hc.bottom, hc.kinds, hc.counts, hc.below⟩
  cases plan with
  | reject status =>
    cases h
    exact ⟨hplan.2, hc⟩
  | start status =>
    rw [Plan.exec, starting_eq, SCtx.rollback_of_settled hc.stacksize] at h
    split at h
    · cases h
      exact ⟨by simp, hc⟩
    split at h
    · cases h
      exact ⟨by simp, hc⟩
    · cases status with
      | none => cases h
      | some status =>
        cases h
        exact ⟨hplan.2, hskip⟩
  | define p =>
    obtain ⟨coll, -, h⟩ := bind_eq_some_iff.mp h
    obtain ⟨rfl, rfl⟩ := Prod.mk.inj (Option.some.inj h)
    exact ⟨by simp, hc.written, hc.stacksize, hc.bottom, hc.kinds, hc.counts, hc.below⟩
  | closeFixed =>
    obtain ⟨rfl, hc'⟩ := commitTransaction_settled (hc.ready_below hplan) h
    exact ⟨by simp, hc'⟩
  | write push segs finish =>
    rw [Plan.exec_write hc] at h
    split at h
    · cases h
      exact ⟨by simp, hc⟩
    split at h
    · cases h
      exact ⟨by simp, hc⟩
    · next hmore =>
      split at h
      · cases h
        exact ⟨by simp, hskip⟩
      · have hready : Ready c := hc.ready hmore
        obtain ⟨rfl, hc'⟩ := Finish.run_settled (c := (c.pushed push).wrote segs.flatten)
          hready hplan rfl rfl h
        exact ⟨by simp, hc'⟩

/-! ## Runs -/

def runAll [CFloat] : SCtx (List UInt8) → List Op → Option (List Status × SCtx (List UInt8))
  | c, [] => some ([], c)
  | c, op :: ops => do
    let (st, c) ← op.apply acceptAll c
    let (sts, c) ← runAll c ops
    some (st :: sts, c)

theorem bssInit_settled (w : W) (memory : Stack) : Settled (bssInit w memory) := by
  have h0 : ((bssInit w memory).stack 0).kind = .top := by
    simp [bssInit, bssReset]
  refine ⟨rfl, rfl, h0, fun i hi => ?_, fun i hi => ?_, fun i hi => absurd hi (Nat.not_lt_zero i)⟩
  · obtain rfl : i = 0 := Nat.le_zero.mp hi
    rw [h0]
    simp
  · obtain rfl : i = 0 := Nat.le_zero.mp hi
    rw [h0]
    simp [FrameKind.fixed]

end

end Mihini.Bysant
