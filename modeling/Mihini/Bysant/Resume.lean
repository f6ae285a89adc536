import Mihini.Bysant.Session
import Mihini.Lib.Retry

/-!
# Interrupted serialization

A writer may take only the beginning of what it is offered.  The operation then
returns `BSS_EAGAIN` and is called again, and the counters `written`,
`acknowledged` and `skipped` make the retry go over the bytes already taken.

An operation that opens a container leaves its frame on the stack when it is
interrupted, and the retry looks at that frame before the rollback.  `Undisturbed`
says that this does no harm; `session_eq_runAll` says that then nothing else
distinguishes an interrupted session from an uninterrupted one.
-/

namespace Mihini.Bysant

open Lib.Bytes List

structure PartialWriter (W : Type) where
  write : Writer W
  out : W → List UInt8
  accepts : ∀ w buffer, ∃ k : Nat, k ≤ buffer.length ∧
    (write w buffer).1 = k ∧ out (write w buffer).2 = out w ++ buffer.take k

/-- A writer that takes at most the given numbers of bytes at its first calls, and
everything later. -/
def trickle : PartialWriter (List Nat × List UInt8) where
  write := fun (limits, out) buffer =>
    let n := min (limits.headD buffer.length) buffer.length
    (n, (limits.tail, out ++ buffer.take n))
  out := Prod.snd
  accepts := fun (limits, _) buffer =>
    ⟨min (limits.headD buffer.length) buffer.length, Nat.min_le_right _ _, rfl, rfl⟩

variable {W V : Type}

/-! ## Forgetting the writer -/

def SCtx.mapWriter (g : W → V) (c : SCtx W) : SCtx V where
  writerctx := g c.writerctx
  written := c.written
  acknowledged := c.acknowledged
  skipped := c.skipped
  broken := c.broken
  stacksize := c.stacksize
  acknowledgedStacksize := c.acknowledgedStacksize
  classcoll := c.classcoll
  stack := c.stack

def mapRes (g : W → V) (r : Res W) : Res V := (r.1, r.2.mapWriter g)

theorem commitTransaction_mapWriter (g : W → V) (c : SCtx W) :
    commitTransaction (c.mapWriter g) = (commitTransaction c).map (mapRes g) := by
  show _ = Option.map _ ((commitFrame c.topframe).bind _)
  show (commitFrame c.topframe).bind _ = _
  cases commitFrame c.topframe with
  | none => rfl
  | some r =>
    obtain ⟨st, f⟩ := r
    by_cases hst : st = .eok
    · simp only [Option.bind_some, if_pos hst]
      rfl
    · simp only [Option.bind_some, if_neg hst]
      rfl

theorem closeFrame_mapWriter (g : W → V) (c : SCtx W) :
    closeFrame (c.mapWriter g) = (closeFrame c).map (mapRes g) :=
  commitTransaction_mapWriter g { c with stacksize := c.stacksize - 1 }

theorem bind_mapRes {α : Type} (g : W → V) (o : Option α) {k : α → Option (Res W)}
    {k' : α → Option (Res V)} (h : ∀ a, k' a = (k a).map (mapRes g)) :
    o.bind k' = (o.bind k).map (mapRes g) := by
  cases o with
  | none => rfl
  | some a => exact h a

theorem Finish.run_mapWriter (g : W → V) (c : SCtx W) (finish : Finish) :
    finish.run (c.mapWriter g) = (finish.run c).map (mapRes g) := by
  cases finish with
  | commit => exact commitTransaction_mapWriter g c
  | close => exact closeFrame_mapWriter g c
  | object p =>
    exact bind_mapRes g _ fun cls => bind_mapRes g _ fun missing =>
      commitTransaction_mapWriter g (c.modifyTop _)
  | classdef p =>
    have hcommit (coll : ClassColl) (f : Frame) :=
      commitTransaction_mapWriter g ({ c with classcoll := coll }.modifyTop fun _ => f)
    exact bind_mapRes g _ fun coll => bind_mapRes g _ fun f => hcommit coll f
  | map len =>
    by_cases hlen : 0 ≤ len
    · simp only [Finish.run, if_pos hlen]
      exact bind_mapRes g _ fun missing => commitTransaction_mapWriter g (c.modifyTop _)
    · simp only [Finish.run, if_neg hlen]
      exact commitTransaction_mapWriter g (c.modifyTop _)
  | list len =>
    by_cases hlen : 0 ≤ len
    · simp only [Finish.run, if_pos hlen]
      exact bind_mapRes g _ fun missing => commitTransaction_mapWriter g (c.modifyTop _)
    · simp only [Finish.run, if_neg hlen]
      exact commitTransaction_mapWriter g (c.modifyTop _)

/-! ## Writing with interruptions -/

structure Progress (sink : PartialWriter W) (c c' : SCtx W) (bytes : List UInt8) : Prop where
  frame : c' = { c with
    writerctx := c'.writerctx
    written := c.written + bytes.length
    skipped := c'.skipped }
  out : sink.out c'.writerctx = sink.out c.writerctx ++ bytes

section
variable {sink : PartialWriter W} {c c' : SCtx W} {bytes : List UInt8}

theorem Progress.stack (h : Progress sink c c' bytes) : c'.stack = c.stack := by rw [h.frame]

theorem Progress.stacksize (h : Progress sink c c' bytes) : c'.stacksize = c.stacksize := by
  rw [h.frame]

theorem Progress.classcoll (h : Progress sink c c' bytes) : c'.classcoll = c.classcoll := by
  rw [h.frame]

theorem Progress.acknowledgedStacksize (h : Progress sink c c' bytes) :
    c'.acknowledgedStacksize = c.acknowledgedStacksize := by rw [h.frame]

theorem Progress.topframe (h : Progress sink c c' bytes) : c'.topframe = c.topframe := by
  unfold SCtx.topframe
  rw [h.stack, h.stacksize]

theorem Progress.broken (h : Progress sink c c' bytes) : c'.broken = c.broken := by rw [h.frame]

end

theorem Progress.trans {sink : PartialWriter W} {c c' c'' : SCtx W} {bytes bytes' : List UInt8}
    (h : Progress sink c c' bytes) (h' : Progress sink c' c'' bytes') :
    Progress sink c c'' (bytes ++ bytes') := by
  obtain ⟨hframe, hout⟩ := h
  obtain ⟨hframe', hout'⟩ := h'
  refine ⟨?_, ?_⟩
  · rw [hframe', hframe]
    simp only [length_append, Nat.cast_add, Int.add_assoc]
  · rw [hout', hout, append_assoc]

/-- The outcome of offering `bytes` to the writer when the first `t` are already
taken. -/
def Offered (sink : PartialWriter W) (c : SCtx W) (bytes : List UInt8) (t : Nat)
    (r : Res W) : Prop :=
  (r.1 = .eok ∧ Progress sink c r.2 (bytes.drop t) ∧ r.2.skipped = c.skipped + bytes.length)
  ∨ (r.1 = .eagain ∧ ∃ k, t + k < bytes.length ∧ Progress sink c r.2 ((bytes.drop t).take k))

theorem writeData_offered (sink : PartialWriter W) (c : SCtx W) (buffer : List UInt8) (t : Nat)
    (ht : c.written - c.acknowledged - c.skipped = t) :
    Offered sink c buffer t (writeData sink.write c buffer) := by
  unfold writeData
  simp only [ht]
  by_cases hall : 0 < t ∧ buffer.length ≤ t
  · have hall' : (0 : Int) < t ∧ (buffer.length : Int) ≤ t := by omega
    rw [if_pos hall']
    refine .inl ⟨rfl, ⟨?_, ?_⟩, rfl⟩
    · simp [drop_eq_nil_of_le hall.2]
    · simp [drop_eq_nil_of_le hall.2]
  · have hall' : ¬ ((0 : Int) < t ∧ (buffer.length : Int) ≤ t) := by omega
    have hskip : (if (0 : Int) < t then (t : Int) else 0) = t := by
      split <;> omega
    simp only [if_neg hall', hskip, Int.toNat_natCast]
    obtain ⟨k, hk, hn, hout⟩ := sink.accepts c.writerctx (buffer.drop t)
    have hlen : (buffer.drop t).length = buffer.length - t := length_drop ..
    have htake : ((buffer.drop t).take k).length = k := by
      rw [length_take]; omega
    simp only [hn]
    rw [if_neg (by omega : ¬ (k : Int) < 0)]
    by_cases hfull : k = (buffer.drop t).length
    · refine .inl ⟨?_, ⟨?_, ?_⟩, ?_⟩
      · simp [hfull]
      · simp [hfull]
      · rw [hout, hfull, take_length]
      · show c.skipped + (t : Int) + (k : Int) = c.skipped + buffer.length
        omega
    · refine .inr ⟨?_, k, by omega, ?_, ?_⟩
      · rw [if_neg]
        omega
      · rw [htake]
      · exact hout

theorem writeSegs_offered (sink : PartialWriter W) (c : SCtx W) (segs : List (List UInt8))
    (t : Nat) (ht : c.written - c.acknowledged - c.skipped = t)
    (hle : t ≤ segs.flatten.length) :
    Offered sink c segs.flatten t (writeSegs sink.write c segs) := by
  induction segs generalizing c t with
  | nil =>
    refine .inl ⟨rfl, ⟨?_, ?_⟩, ?_⟩ <;> simp [writeSegs]
  | cons seg segs ih =>
    have hdata := writeData_offered sink c seg t ht
    rw [flatten_cons, length_append] at hle
    simp only [writeSegs, flatten_cons]
    generalize writeData sink.write c seg = r at hdata
    obtain ⟨st, c'⟩ := r
    rcases hdata with ⟨hst, hprog, hskipped⟩ | ⟨hst, k, hk, hprog⟩
    · -- The block was taken: `t - seg.length` bytes of the next ones are too.
      simp only at hst hprog hskipped
      subst hst
      have hframe := hprog.frame
      have hwritten : c'.written = c.written + (seg.drop t).length := by rw [hframe]
      have hack : c'.acknowledged = c.acknowledged := by rw [hframe]
      have hrest : c'.written - c'.acknowledged - c'.skipped = ((t - seg.length : Nat) : Int) := by
        rw [hwritten, hack, hskipped, length_drop]
        omega
      have hdrop : (seg ++ segs.flatten).drop t
          = seg.drop t ++ segs.flatten.drop (t - seg.length) := drop_append
      rcases ih c' _ hrest (by omega) with ⟨hst, hprog', hskipped'⟩ | ⟨hst, k, hk, hprog'⟩
      · refine .inl ⟨hst, ?_, ?_⟩
        · rw [hdrop]
          exact hprog.trans hprog'
        · show (writeSegs sink.write c' segs).2.skipped = _
          rw [hskipped', hskipped, length_append]
          omega
      · refine .inr ⟨hst, (seg.drop t).length + k, ?_, ?_⟩
        · rw [length_drop, length_append]
          omega
        · rw [hdrop, take_length_add_append]
          exact hprog.trans hprog'
    · simp only at hst hprog
      subst hst
      have htseg : t ≤ seg.length := by omega
      refine .inr ⟨rfl, k, by rw [length_append]; omega, ?_⟩
      have hdrop : ((seg ++ segs.flatten).drop t).take k = (seg.drop t).take k := by
        rw [drop_append_of_le_length htseg, take_append_of_le_length]
        rw [length_drop]
        omega
      rw [hdrop]
      exact hprog

/-! ## Retrying one operation -/

def Undisturbed (c : SCtx W) : Prop :=
  c.stacksize = c.acknowledgedStacksize
  ∨ (c.getctxid = (c.stack c.acknowledgedStacksize).getctxid c.classcoll
    ∧ ¬ (c.topframe.kind.fixed = true ∧ c.topframe.missing = 0))

def Plan.push : Plan → Option (FrameKind × CtxId)
  | .write push _ _ => push
  | _ => none

theorem closePlan_push (top : Frame) : (closePlan top).push = none := by
  unfold closePlan
  cases top.kind
  case zmap =>
    cases top.even with
    | none => rfl
    | some even => cases even <;> rfl
  case object | list | map =>
    simp only
    split <;> rfl
  all_goals rfl

theorem nullPlan_push {top : Frame} {coll : ClassColl} {plan : Plan}
    (h : nullPlan top coll = some plan) : plan.push = none := by
  unfold nullPlan at h
  split at h
  · cases h
    rfl
  obtain ⟨isKey, -, h⟩ := Option.bind_eq_some_iff.mp h
  split at h
  · cases h
    rfl
  · obtain ⟨context, -, h⟩ := Option.bind_eq_some_iff.mp h
    cases h
    rfl

theorem opPlan_congr [CFloat] {top top' : Frame} {coll : ClassColl} {op : Op} {plan : Plan}
    (h : opPlan top coll op = some plan) (hpush : plan.push ≠ none)
    (hctx : top'.getctxid coll = top.getctxid coll) :
    opPlan top' coll op = opPlan top coll op := by
  cases op
  case close =>
    obtain rfl : closePlan top = plan := Option.some.inj h
    exact absurd (closePlan_push top) hpush
  case chunk data =>
    refine absurd ?_ hpush
    obtain rfl := Option.some.inj h
    split
    · rfl
    · split <;> rfl
  case null => exact absurd (nullPlan_push h) hpush
  case raw data =>
    obtain rfl := Option.some.inj h
    exact absurd rfl hpush
  all_goals simp only [opPlan, hctx]

section
variable {sink : PartialWriter W}

/-- `c` is a context in which an operation that started from `c₀` is called: the
first time, or after an interruption. -/
def Pending (sink : PartialWriter W) (c₀ : SCtx W) (push : Option (FrameKind × CtxId))
    (segs : List (List UInt8)) (c : SCtx W) : Prop :=
  c = c₀ ∨ ∃ p < segs.flatten.length, Progress sink (c₀.pushed push) c (segs.flatten.take p)

variable {push : Option (FrameKind × CtxId)} {segs : List (List UInt8)} {c₀ c : SCtx W}

/-- The plan of the operation is the same at every call. -/
theorem Pending.opPlan_eq [CFloat] {op : Op}
    {finish : Finish} (hc₀ : Settled c₀)
    (hc : Pending sink c₀ push segs c) (hok : Undisturbed c)
    (hplan : opPlan c₀.topframe c₀.classcoll op = some (.write push segs finish)) :
    opPlan c.topframe c.classcoll op = some (.write push segs finish) := by
  rcases hc with rfl | ⟨p, hp, hprog⟩
  · exact hplan
  cases push with
  | none =>
    rw [hprog.topframe, hprog.classcoll]
    exact hplan
  | some top =>
    have hcoll : c.classcoll = c₀.classcoll := hprog.classcoll
    have hacked : c.acknowledgedStacksize = c₀.stacksize :=
      hprog.acknowledgedStacksize.trans hc₀.stacksize
    have hsize : c.stacksize = c₀.stacksize + 1 := hprog.stacksize
    have hbelow : c.stack c₀.stacksize = c₀.topframe := by
      rw [hprog.stack]
      exact c₀.pushed_stack_of_le _ (Nat.le_refl _)
    rcases hok with hok | ⟨hctx, -⟩
    · omega
    · rw [hacked, hbelow, SCtx.getctxid, hcoll] at hctx
      rw [hcoll, ← hplan]
      exact opPlan_congr hplan (by simp [Plan.push]) hctx

/-- Every call gets to the writing part, with the frame added and the bytes taken
so far still to be skipped. -/
theorem Pending.exec_eq
    (finish : Finish) (hc₀ : Settled c₀)
    (hbroken : c₀.broken = false)
    (hmore : ¬ (c₀.topframe.kind.fixed = true ∧ c₀.topframe.missing = 0))
    (hroom : ¬ c₀.full push) (hc : Pending sink c₀ push segs c) (hok : Undisturbed c) :
    ∃ (w : W) (p : Nat), p ≤ segs.flatten.length
      ∧ sink.out w = sink.out c₀.writerctx ++ segs.flatten.take p
      ∧ Plan.exec sink.write c (.write push segs finish)
        = tryThenO (writeSegs sink.write { c₀.pushed push with
            writerctx := w, written := c₀.written + p, skipped := 0 } segs) finish.run := by
  rcases hc with rfl | ⟨p, hp, hprog⟩
  · refine ⟨c.writerctx, 0, Nat.zero_le _, by simp, ?_⟩
    have hpushed : ({ c with skipped := 0 } : SCtx W).pushed push
        = { c.pushed push with
            writerctx := c.writerctx, written := c.written + (0 : Nat), skipped := 0 } := by
      cases push <;> simp [SCtx.pushed, SCtx.push, SCtx.modifyTop]
    have hroom' : ¬ ({ c with skipped := 0 } : SCtx W).full push := hroom
    rw [Plan.exec, starting_eq, SCtx.rollback_of_settled hc₀.stacksize, if_neg (by simp [hbroken]),
      if_neg hmore, pushThen_eq, if_neg hroom', hpushed]
  · have htake : (segs.flatten.take p).length = p := by
      rw [length_take]
      omega
    refine ⟨c.writerctx, p, Nat.le_of_lt hp, ?_, ?_⟩
    · rw [hprog.out]
      cases push <;> rfl
    have hbroken' : ¬ c.broken = true := by
      rw [hprog.broken]
      cases push <;> simp [SCtx.pushed, SCtx.push, SCtx.modifyTop, hbroken]
    have hmore' : ¬ (c.topframe.kind.fixed = true ∧ c.topframe.missing = 0) := by
      cases push with
      | none =>
        rw [hprog.topframe]
        exact hmore
      | some top =>
        rcases hok with hok | ⟨-, hok⟩
        · have hsize : c.stacksize = c₀.stacksize + 1 := hprog.stacksize
          have hacked : c.acknowledgedStacksize = c₀.stacksize :=
            hprog.acknowledgedStacksize.trans hc₀.stacksize
          omega
        · exact hok
    -- The frame is added a second time, where the first attempt added it.
    have hpushed : ({ c.rollback with skipped := 0 } : SCtx W).pushed push
        = { c₀.pushed push with
            writerctx := c.writerctx, written := c₀.written + p, skipped := 0 } := by
      have hstacksize := hc₀.stacksize
      rw [hprog.frame, htake]
      cases push with
      | none => simp [SCtx.rollback, SCtx.pushed, hstacksize]
      | some top =>
        simp [SCtx.rollback, SCtx.pushed, SCtx.push, SCtx.modifyTop, hstacksize,
          Stack.modify_modify]
    have hroom' : ¬ ({ c.rollback with skipped := 0 } : SCtx W).full push := by
      rintro ⟨hsome, hsize⟩
      refine hroom ⟨hsome, ?_⟩
      have hacked : c.acknowledgedStacksize = c₀.stacksize := by
        rw [hprog.acknowledgedStacksize, ← hc₀.stacksize]
        cases push <;> rfl
      exact hacked.symm.trans hsize
    rw [Plan.exec, starting_eq, if_neg hbroken', if_neg hmore', pushThen_eq, if_neg hroom',
      hpushed]

def Blocked (c : SCtx W) : Plan → Prop
  | .write push _ _ =>
    c.broken = true ∨ (c.topframe.kind.fixed = true ∧ c.topframe.missing = 0) ∨ c.full push
  | _ => True

/-- The writer has no say in an operation that writes nothing. -/
theorem Plan.exec_blocked (sink : PartialWriter W) {c : SCtx W} {plan : Plan} (hc : Settled c) (h : Blocked c plan) :
    Plan.exec acceptAll (c.mapWriter sink.out) plan
      = (Plan.exec sink.write c plan).map (mapRes sink.out) := by
  have hc' : Settled (c.mapWriter sink.out) :=
    ⟨hc.written, hc.stacksize, hc.bottom, hc.kinds, hc.counts, hc.below⟩
  have hroll := SCtx.rollback_of_settled hc.stacksize
  have hroll' := SCtx.rollback_of_settled hc'.stacksize
  cases plan with
  | reject status => rfl
  | define p => exact bind_mapRes sink.out _ fun coll => rfl
  | closeFixed => exact closeFrame_mapWriter sink.out c
  | start status =>
    simp only [Plan.exec, starting_eq, hroll, hroll']
    by_cases hbroken : c.broken = true
    · rw [if_pos hbroken, if_pos (by exact hbroken)]
      rfl
    rw [if_neg hbroken, if_neg (by exact hbroken)]
    by_cases hdone : c.topframe.kind.fixed = true ∧ c.topframe.missing = 0
    · rw [if_pos hdone, if_pos (by exact hdone)]
      rfl
    · rw [if_neg hdone, if_neg (by exact hdone)]
      cases status <;> rfl
  | write push segs finish =>
    rw [Plan.exec_write hc', Plan.exec, starting_eq, hroll]
    by_cases hbroken : c.broken = true
    · rw [if_pos hbroken, if_pos (by exact hbroken)]
      rfl
    rw [if_neg hbroken, if_neg (by exact hbroken)]
    by_cases hdone : c.topframe.kind.fixed = true ∧ c.topframe.missing = 0
    · rw [if_pos hdone, if_pos (by exact hdone)]
      rfl
    have hfull : c.full push := by
      rcases h with h | h | h
      · exact absurd h hbroken
      · exact absurd h hdone
      · exact h
    rw [if_neg hdone, if_neg (by exact hdone), if_pos (by exact hfull), pushThen_eq,
      if_pos (by exact hfull)]
    simp [tryThenO, abandon, hc.written, mapRes, SCtx.mapWriter]

/-- One call: it is interrupted again, or it ends as the operation ends with a
writer that takes everything. -/
theorem Pending.step
    (finish : Finish) (hc₀ : Settled c₀)
    (hbroken : c₀.broken = false)
    (hmore : ¬ (c₀.topframe.kind.fixed = true ∧ c₀.topframe.missing = 0))
    (hroom : ¬ c₀.full push) (hc : Pending sink c₀ push segs c) (hok : Undisturbed c) :
    (∃ c', Plan.exec sink.write c (.write push segs finish) = some (.eagain, c')
      ∧ Pending sink c₀ push segs c')
    ∨ (Plan.exec sink.write c (.write push segs finish)).map (mapRes sink.out)
      = finish.run (((c₀.mapWriter sink.out).pushed push).wrote segs.flatten) := by
  obtain ⟨w, p, hp, hw, hexec⟩ := hc.exec_eq finish hc₀ hbroken hmore hroom hok
  rw [hexec]
  have hack : (c₀.pushed push).acknowledged = c₀.written := by
    rw [hc₀.written]
    cases push <;> rfl
  have hoffered := writeSegs_offered sink { c₀.pushed push with
    writerctx := w, written := c₀.written + p, skipped := 0 } segs p
    (by simp only [hack]; omega) hp
  generalize writeSegs sink.write _ segs = r at hoffered
  obtain ⟨st, c₃⟩ := r
  rcases hoffered with ⟨hst, hprog, hskipped⟩ | ⟨hst, k, hk, hprog⟩
  · refine .inr ?_
    simp only at hst hprog hskipped
    subst hst
    show (finish.run c₃).map (mapRes sink.out) = _
    rw [← Finish.run_mapWriter]
    congr 1
    have hout := hprog.out
    simp only [hw, append_assoc, take_append_drop] at hout
    have hlen : p + (segs.flatten.drop p).length = segs.flatten.length := by
      rw [length_drop]
      omega
    rw [hprog.frame]
    simp only [SCtx.mapWriter, hout, hskipped]
    cases push <;>
      simp only [SCtx.pushed, SCtx.push, SCtx.modifyTop, SCtx.wrote, Int.add_assoc,
        ← Nat.cast_add, hlen, Int.zero_add]
  · refine .inl ⟨c₃, ?_, .inr ⟨p + k, hk, ?_, ?_⟩⟩
    · simp only at hst
      subst hst
      rfl
    · have hlen : ((segs.flatten.drop p).take k).length = k := by
        rw [length_take, length_drop]
        omega
      have hlen' : (segs.flatten.take (p + k)).length = p + k := by
        rw [length_take]
        omega
      have hframe := hprog.frame
      rw [hlen] at hframe
      have hwritten : (c₀.pushed push).written = c₀.written := by cases push <;> rfl
      rw [hlen', hwritten, Nat.cast_add, ← Int.add_assoc]
      exact hframe
    · have hwriter : (c₀.pushed push).writerctx = c₀.writerctx := by cases push <;> rfl
      rw [hprog.out, hwriter]
      show sink.out w ++ _ = _
      rw [hw, append_assoc, take_add]

/-- Retried until it is done, an operation ends as if the writer had taken
everything. -/
theorem retried_eq [CFloat] {c₀ : SCtx W} {op : Op} {r : Option (Res W)} (hc₀ : Settled c₀)
    (h : Lib.Retried (fun c => op.apply sink.write c) .eagain Undisturbed c₀ r) :
    r.map (mapRes sink.out) = op.apply acceptAll (c₀.mapWriter sink.out) := by
  have hc₀' : Settled (c₀.mapWriter sink.out) :=
    ⟨hc₀.written, hc₀.stacksize, hc₀.bottom, hc₀.kinds, hc₀.counts, hc₀.below⟩
  have hall : op.apply acceptAll (c₀.mapWriter sink.out)
      = (opPlan c₀.topframe c₀.classcoll op).bind
          (Plan.exec acceptAll (c₀.mapWriter sink.out)) := Op.apply_eq _ _ _
  let target := op.apply acceptAll (c₀.mapWriter sink.out)
  have hrule {I : SCtx W → Prop} (hI : I c₀)
      (hstep : ∀ c, I c → Undisturbed c →
        (∀ c', op.apply sink.write c = some (.eagain, c') → I c')
        ∧ ((∀ c', op.apply sink.write c ≠ some (.eagain, c')) →
          (op.apply sink.write c).map (mapRes sink.out) = target)) :
      r.map (mapRes sink.out) = target :=
    Lib.Retried.rule (Q := fun r => r.map (mapRes sink.out) = target) hstep h hI
  cases hplan : opPlan c₀.topframe c₀.classcoll op with
  | none =>
    refine hrule (I := fun c => c = c₀) rfl fun c hc _ => ?_
    subst hc
    have hstep : op.apply sink.write c = none := by
      rw [Op.apply_eq, hplan]
      rfl
    refine ⟨fun c' hagain => ?_, fun _ => ?_⟩
    · rw [hstep] at hagain
      cases hagain
    · show _ = op.apply acceptAll (c.mapWriter sink.out)
      rw [hstep, hall, hplan]
      rfl
  | some plan =>
    have hsound := opPlan_sound hplan
    rw [hplan, Option.bind_some] at hall
    by_cases hblocked : Blocked c₀ plan
    · have hexec := Plan.exec_blocked sink hc₀ hblocked
      refine hrule (I := fun c => c = c₀) rfl fun c hc _ => ?_
      subst hc
      have hstep : op.apply sink.write c = Plan.exec sink.write c plan := by
        rw [Op.apply_eq, hplan]
        rfl
      refine ⟨fun c' hagain => ?_, fun _ => ?_⟩
      · exfalso
        rw [← hstep, hagain] at hexec
        exact (Plan.exec_settled hc₀' hsound hexec).1 rfl
      · show _ = op.apply acceptAll (c.mapWriter sink.out)
        rw [hstep, hall, hexec]
    · cases plan with
      | write push segs finish =>
        have hbroken : c₀.broken = false := by
          cases hb : c₀.broken with
          | false => rfl
          | true => exact absurd (Or.inl hb) hblocked
        have hmore : ¬ (c₀.topframe.kind.fixed = true ∧ c₀.topframe.missing = 0) :=
          fun h => hblocked (.inr (.inl h))
        have hroom : ¬ c₀.full push := fun h => hblocked (.inr (.inr h))
        have hdone : target = finish.run (((c₀.mapWriter sink.out).pushed push).wrote
            segs.flatten) := by
          have hbroken' : ¬ (c₀.mapWriter sink.out).broken = true := by
            show ¬ c₀.broken = true
            simp [hbroken]
          show op.apply acceptAll (c₀.mapWriter sink.out) = _
          rw [hall, Plan.exec_write hc₀', if_neg hbroken',
            if_neg (by exact hmore), if_neg (by exact hroom)]
        refine hrule (I := Pending sink c₀ push segs) (.inl rfl) fun c hc hok => ?_
        have hstep : op.apply sink.write c = Plan.exec sink.write c (.write push segs finish) := by
          rw [Op.apply_eq, hc.opPlan_eq hc₀ hok hplan]
          rfl
        rw [hstep, hdone]
        rcases hc.step finish hc₀ hbroken hmore hroom hok with ⟨c', hagain, hc'⟩ | heq
        · refine ⟨fun c'' h => ?_, fun h => absurd hagain (h c')⟩
          rw [hagain] at h
          obtain rfl : c' = c'' := by simpa using h
          exact hc'
        · refine ⟨fun c' h => ?_, fun _ => heq⟩
          exfalso
          rw [h] at heq
          have hfinal : Plan.exec acceptAll (c₀.mapWriter sink.out) (.write push segs finish)
              = some (.eagain, c'.mapWriter sink.out) := by
            rw [← hall]
            exact hdone.trans heq.symm
          exact (Plan.exec_settled hc₀' hsound hfinal).1 rfl
      | _ => exact absurd trivial hblocked

/-! ## Whole sessions -/

/-- A session: each operation is retried until it is done, `ok` holds before each
call.  The outcome is what the operations returned and the last context, or
`none` when the code did something without a meaning. -/
inductive Session [CFloat] (wr : Writer W) (ok : SCtx W → Prop) :
    SCtx W → List Op → Option (List Status × SCtx W) → Prop
  | nil (c : SCtx W) : Session wr ok c [] (some ([], c))
  | fault {c : SCtx W} {op : Op} (ops : List Op) :
      Lib.Retried (fun c => op.apply wr c) .eagain ok c none → Session wr ok c (op :: ops) none
  | cons {c c' : SCtx W} {op : Op} {ops : List Op} {st : Status}
      {r : Option (List Status × SCtx W)} :
      Lib.Retried (fun c => op.apply wr c) .eagain ok c (some (st, c')) → Session wr ok c' ops r →
      Session wr ok c (op :: ops) (r.map fun r => (st :: r.1, r.2))

theorem session_eq [CFloat] {c : SCtx W} {ops : List Op}
    {r : Option (List Status × SCtx W)} (h : Session sink.write Undisturbed c ops r)
    (hc : Settled c) :
    r.map (fun r => (r.1, r.2.mapWriter sink.out)) = runAll (c.mapWriter sink.out) ops := by
  induction h with
  | nil c => rfl
  | @fault c op ops hretried =>
    have hop := retried_eq hc hretried
    rw [runAll, ← hop]
    rfl
  | @cons c c' op ops st r hretried _ ih =>
    have hop := retried_eq hc hretried
    have hc' : Settled (c.mapWriter sink.out) :=
      ⟨hc.written, hc.stacksize, hc.bottom, hc.kinds, hc.counts, hc.below⟩
    have hsettled : Settled (c'.mapWriter sink.out) := by
      rw [Op.apply_eq] at hop
      obtain ⟨plan, hplan, hexec⟩ := Option.bind_eq_some_iff.mp hop.symm
      exact (Plan.exec_settled hc' (opPlan_sound hplan) hexec).2
    have ih := ih ⟨hsettled.written, hsettled.stacksize, hsettled.bottom, hsettled.kinds,
      hsettled.counts, hsettled.below⟩
    rw [runAll, ← hop]
    show _ = (runAll (c'.mapWriter sink.out) ops).bind _
    rw [← ih]
    cases r <;> rfl

/-- An interrupted session gives the bytes, the codes and the context of an
uninterrupted one, as long as no retry is misled by the frame of the interrupted
attempt. -/
theorem session_eq_runAll [CFloat] (sink : PartialWriter W) (w : W) (memory : Stack)
    (ops : List Op) (r : Option (List Status × SCtx W))
    (h : Session sink.write Undisturbed (bssInit w memory) ops r) :
    r.map (fun r => (r.1, r.2.mapWriter sink.out))
      = runAll (bssInit (sink.out w) memory) ops :=
  session_eq h (bssInit_settled w memory)

end

/-- A number interrupted after its first byte. -/
theorem interrupted_int_resumed :
    ∃ (_ : CFloat) (r : Option (List Status × SCtx (List Nat × List UInt8))),
      Session trickle.write Undisturbed (bssInit ([9, 1], []) blankStack)
        [.list (-1) .global, .int 1000, .close] r
      ∧ r.map (fun r => (r.1, r.2.mapWriter trickle.out))
        = runAll (bssInit [] blankStack) [.list (-1) .global, .int 1000, .close] := by
  let _ : CFloat := hostFloat
  have hsession : Session trickle.write Undisturbed (bssInit ([9, 1], []) blankStack)
      [.list (-1) .global, .int 1000, .close] _ :=
    .cons (.done (.inl rfl) rfl (by simp))
      (.cons (.again (.inl rfl) rfl (.done (.inl rfl) rfl (by simp)))
        (.cons (.done (.inl rfl) rfl (by simp)) (.nil _)))
  exact ⟨hostFloat, _, hsession, session_eq_runAll trickle ([9, 1], []) blankStack _ _ hsession⟩

/-- A list of numbers whose opening is interrupted: the retry finds the context
of the new list and is refused. -/
theorem interrupted_list_refused :
    ¬ ∀ (_ : CFloat) (W : Type) (sink : PartialWriter W) (w : W) (memory : Stack)
        (ops : List Op) (r : Option (List Status × SCtx W)),
      Session sink.write (fun _ => True) (bssInit w memory) ops r →
      r.map (fun r => (r.1, r.2.mapWriter sink.out))
        = runAll (bssInit (sink.out w) memory) ops := by
  intro h
  let _ : CFloat := hostFloat
  have hsession : Session trickle.write (fun _ => True)
      (bssInit ([0], []) blankStack) [.list (-1) .number] _ :=
    .cons (.again trivial rfl (.done trivial rfl (by simp))) (.nil _)
  have heq := h hostFloat _ trickle ([0], []) blankStack [.list (-1) .number] _ hsession
  have hcodes := congrArg (Option.map Prod.fst) heq
  exact absurd hcodes (by decide)

end Mihini.Bysant
