import Mihini.M3da.Sink
import Mihini.Bysant.Reading

/-!
# Envelopes in fragments

What the sink hands over when a sequence of envelopes comes in fragments: the envelopes whose
last byte has come, as long as no fragment brings the last bytes of two.
-/

open Mihini.Bysant List Option

namespace Mihini.M3da.Sink

theorem streamBytes_cons (d : DCtx) (e : Bytes) (es : List (DCtx × Bytes)) :
    streamBytes ((d, e) :: es) = e ++ streamBytes es := rfl

theorem intOfSize_eq {n : Nat} (hn : n < 2 ^ 31) : intOfSize n = n := by
  have h := intOfSize_toNat (show 0 ≤ (n : Int) ∧ (n : Int) < 2 ^ 31 by omega)
  rw [Int.toNat_natCast] at h
  exact h

section
variable [CFloat]

/-! ## Envelopes -/

/-- In the context `d`, the bytes `e` are an element that takes the stack `s` to `s'`. -/
def Reads (d : DCtx) (s : List Slot) (e : Bytes) (s' : List Slot) (d' : DCtx) : Prop :=
  ∀ x, ∃ x', bsdRead d x e (-2) = some ((e.length : Int), x', d') ∧ x'.type ≠ .error ∧
    (x'.type = .classdef → d'.stacksize ≠ 0) ∧ bysant2lua x' s = some (.ok s')

inductive Rest : DCtx → List Slot → List (DCtx × Bytes) → LuaValue → DCtx → Prop
  | last {d d' : DCtx} {s : List Slot} {e : Bytes} {v : LuaValue}
      (h : Reads d s e [.value v] d') (hend : d'.stacksize = 0) : Rest d s [(d, e)] v d'
  | cons {d d₁ d' : DCtx} {s s' : List Slot} {e : Bytes} {es : List (DCtx × Bytes)}
      {v : LuaValue} (h : Reads d s e s' d₁) (hmore : d₁.stacksize ≠ 0)
      (hrest : Rest d₁ s' es v d') : Rest d s ((d, e) :: es) v d'

/-- A serialized envelope: an instance of a class whose identifier is in the opcode, up to the
element that closes it. -/
def Envelope (d : DCtx) (es : List (DCtx × Bytes)) (v : LuaValue) (d' : DCtx) : Prop :=
  d.stacksize = 0 ∧ (∃ assigned, v = .table assigned) ∧ ∃ b s d₁ es₁, es = (d, [b]) :: es₁ ∧ Reads d [] [b] s d₁ ∧
    d₁.stacksize ≠ 0 ∧ Rest d₁ s es₁ v d'

theorem Envelope.rest {d d' : DCtx} {es : List (DCtx × Bytes)} {v : LuaValue}
    (h : Envelope d es v d') : Rest d [] es v d' := by
  obtain ⟨-, -, b, s, d₁, es₁, rfl, hread, hmore, hrest⟩ := h
  exact .cons hread hmore hrest

theorem Envelope.truthy {d d' : DCtx} {es : List (DCtx × Bytes)} {v : LuaValue}
    (h : Envelope d es v d') : v.truthy = true := by
  obtain ⟨assigned, rfl⟩ := h.2.1
  rfl

/-! ## The loop of the deserializer -/

section Loop

variable {d d' : DCtx} {s s' : List Slot} {e pre tail buffer : Bytes}
  {es : List (DCtx × Bytes)} {v : LuaValue} {n : Nat}

/-- One element that is complete. -/
theorem loop_turn (h : Reads d s e s' d') (hbuf : buffer = pre ++ (e ++ tail))
    (hlen : buffer.length < 2 ^ 31) (fuel : Nat) (x : Data) :
    (d'.stacksize ≠ 0 → ∃ x', deserializeLoop buffer (fuel + 1) d x s pre.length =
      deserializeLoop buffer fuel d' x' s' (pre ++ e).length) ∧
    (d'.stacksize = 0 → s' = [.value v] →
      deserializeLoop buffer (fuel + 1) d x s pre.length =
        some (.value v ((pre ++ e).length + 1), d')) := by
  obtain ⟨x', hread, herr, hclass, hlua⟩ := h x
  have hdrop : buffer.drop pre.length = e ++ tail := by
    rw [hbuf, drop_left]
  have hsize : intOfSize (buffer.length - pre.length) = ((e ++ tail).length : Int) := by
    rw [intOfSize_eq (by omega), hbuf, length_append, Nat.add_sub_cancel_left]
  have hchecked : bsdRead d x (e ++ tail) ((e ++ tail).length : Int) =
      some ((e.length : Int), x', d') :=
    bsdRead_unchecked (by omega) hread tail (by simp)
  have hpos : ¬ (e.length : Int) < 0 := by omega
  have hoffset : pre.length + e.length = (pre ++ e).length := length_append.symm
  constructor
  · intro hmore
    refine ⟨x', ?_⟩
    have hgo : 0 < d'.stacksize ∨ x'.type = .classdef := Or.inl (Nat.pos_of_ne_zero hmore)
    rw [deserializeLoop, hdrop, hsize, hchecked]
    simp only [bind_eq_bind, bind_some, if_neg hpos, hlua, if_pos hgo,
      Int.toNat_natCast, hoffset]
  · rintro hend rfl
    have hstop : ¬ (0 < d'.stacksize ∨ x'.type = .classdef) := by
      rintro (hlt | hc)
      · omega
      · exact hclass hc hend
    rw [deserializeLoop, hdrop, hsize, hchecked]
    simp only [bind_eq_bind, bind_some, if_neg hpos, hlua, if_neg hstop,
      Int.toNat_natCast, hoffset]

/-- An element of which a part is missing. -/
theorem loop_waits (h : Reads d s e s' d') (hn : n < e.length)
    (hsafe : n = 0 ∨ Resumable d e n) (hbuf : buffer = pre ++ e.take n)
    (hlen : buffer.length < 2 ^ 31) (fuel : Nat) (x : Data) :
    deserializeLoop buffer (fuel + 1) d x s pre.length =
      some (.suspended ⟨s, pre.length⟩, d) := by
  obtain ⟨x', hread, herr, -, -⟩ := h x
  have hdrop : buffer.drop pre.length = e.take n := by
    rw [hbuf, drop_left]
  have hsize : intOfSize (buffer.length - pre.length) = (n : Int) := by
    rw [intOfSize_eq (by omega), hbuf, length_append, length_take]
    omega
  obtain ⟨w, x₂, hwait, hw⟩ : ∃ w x₂, bsdRead d x (e.take n) n = some (-w, x₂, d) ∧ 0 < w := by
    rcases Nat.eq_zero_or_pos n with rfl | hpos
    · exact bsdRead_nothing hread herr (by omega)
    · have hresumable : Resumable d e n := by
        rcases hsafe with hzero | hresumable
        · omega
        · exact hresumable
      obtain ⟨w, x₂, hwait, hw, -⟩ := (bsdRead_take hread herr hpos hn).mpr hresumable
      exact ⟨w, x₂, hwait, by omega⟩
  have hneg : -w < 0 := by omega
  rw [deserializeLoop, hdrop, hsize, hwait]
  simp only [bind_eq_bind, bind_some, if_pos hneg]

variable {fuel : Nat}

/-- All elements are there. -/
theorem loop_rest (h : Rest d s es v d') (hbuf : buffer = pre ++ (streamBytes es ++ tail))
    (hlen : buffer.length < 2 ^ 31) (hfuel : es.length ≤ fuel) (x : Data) :
    deserializeLoop buffer fuel d x s pre.length =
      some (.value v ((pre ++ streamBytes es).length + 1), d') := by
  induction h generalizing pre fuel x with
  | @last d d' s e v h hend =>
    obtain ⟨fuel, rfl⟩ : ∃ f, fuel = f + 1 := ⟨fuel - 1, by simp at hfuel; omega⟩
    have hbytes : streamBytes [(d, e)] = e := append_nil e
    rw [hbytes] at hbuf ⊢
    exact (loop_turn h hbuf hlen fuel x).2 hend rfl
  | @cons d d₁ d' s s' e es v h hmore hrest ih =>
    rw [length_cons] at hfuel
    obtain ⟨fuel, rfl⟩ : ∃ f, fuel = f + 1 := ⟨fuel - 1, by omega⟩
    rw [streamBytes_cons, append_assoc] at hbuf
    obtain ⟨x', hturn⟩ := (loop_turn (v := v) h hbuf hlen fuel x).1 hmore
    rw [hturn, ih (by rw [hbuf, append_assoc]) (by omega), streamBytes_cons,
      append_assoc]

/-- Where the deserializer stops when only the first `n` bytes of the elements are there: the
others are read from there on later. -/
structure Stopped (es : List (DCtx × Bytes)) (v : LuaValue) (d' : DCtx) (n : Nat) (s₁ : List Slot)
    (o : Nat) (d₁ : DCtx) (es₁ : List (DCtx × Bytes)) : Prop where
  open_ : d₁.stacksize ≠ 0
  rest : Rest d₁ s₁ es₁ v d'
  le : o ≤ n
  drop : (streamBytes es).drop o = streamBytes es₁
  length : es₁.length ≤ es.length
  cut : ∀ m, o ≤ m → SafeCut es m → SafeCut es₁ (m - o)

theorem loop_cut (h : Rest d s es v d') (hd : d.stacksize ≠ 0)
    (hn : n < (streamBytes es).length) (hsafe : SafeCut es n)
    (hbuf : buffer = pre ++ (streamBytes es).take n) (hlen : buffer.length < 2 ^ 31)
    (hfuel : es.length ≤ fuel) (x : Data) :
    ∃ s₁ o d₁ es₁, deserializeLoop buffer fuel d x s pre.length =
      some (.suspended ⟨s₁, pre.length + o⟩, d₁) ∧ Stopped es v d' n s₁ o d₁ es₁ := by
  induction h generalizing pre n fuel x with
  | @last d d' s e v h hend =>
    obtain ⟨fuel, rfl⟩ : ∃ f, fuel = f + 1 := ⟨fuel - 1, by simp at hfuel; omega⟩
    have hbytes : streamBytes [(d, e)] = e := append_nil e
    rw [hbytes] at hbuf hn
    rw [SafeCut, if_pos hn] at hsafe
    refine ⟨s, 0, d, [(d, e)], loop_waits h hn hsafe hbuf hlen fuel x, ?_⟩
    exact ⟨hd, .last h hend, Nat.zero_le _, rfl, Nat.le_refl _, fun _ _ hm => hm⟩
  | @cons d d₁ d' s s' e es v h hmore hrest ih =>
    rw [length_cons] at hfuel
    obtain ⟨fuel, rfl⟩ : ∃ f, fuel = f + 1 := ⟨fuel - 1, by omega⟩
    rw [streamBytes_cons] at hbuf hn
    rw [SafeCut] at hsafe
    by_cases hlt : n < e.length
    · rw [if_pos hlt] at hsafe
      rw [take_append_of_le_length (Nat.le_of_lt hlt)] at hbuf
      refine ⟨s, 0, d, (d, e) :: es, loop_waits h hlt hsafe hbuf hlen fuel x, ?_⟩
      exact ⟨hd, .cons h hmore hrest, Nat.zero_le _, rfl, Nat.le_refl _, fun _ _ hm => hm⟩
    · rw [if_neg hlt] at hsafe
      rw [length_append] at hn
      have htake : (e ++ streamBytes es).take n = e ++ (streamBytes es).take (n - e.length) := by
        rw [take_append, take_of_length_le (by omega)]
      rw [htake] at hbuf
      obtain ⟨x', hturn⟩ := (loop_turn (v := v) h hbuf hlen fuel x).1 hmore
      obtain ⟨s₁, o, d₂, es₁, hloop, hstop⟩ := ih hmore (by omega) hsafe
        (show buffer = (pre ++ e) ++ (streamBytes es).take (n - e.length) by
          rw [hbuf, append_assoc]) (Nat.le_of_succ_le_succ hfuel) x'
      refine ⟨s₁, e.length + o, d₂, es₁, ?_, ?_⟩
      · rw [hturn, hloop, length_append, Nat.add_assoc]
      · refine ⟨hstop.open_, hstop.rest, ?_, ?_, ?_, ?_⟩
        · have := hstop.le
          omega
        · rw [streamBytes_cons, drop_append, drop_of_length_le (by omega),
            Nat.add_sub_cancel_left, nil_append]
          exact hstop.drop
        · exact Nat.le_succ_of_le hstop.length
        · intro m hm hcut
          rw [SafeCut, if_neg (by omega)] at hcut
          have hnext := hstop.cut (m - e.length) (by omega) hcut
          rw [Nat.sub_sub] at hnext
          exact hnext

/-- An envelope of which at least the first byte is there. -/
theorem loop_envelope (h : Envelope d es v d') (hpos : 1 ≤ n) (hn : n < (streamBytes es).length)
    (hsafe : SafeCut es n) (hbuf : buffer = (streamBytes es).take n)
    (hlen : buffer.length < 2 ^ 31) (hfuel : es.length ≤ fuel) (x : Data) :
    ∃ s₁ o d₁ es₁, deserializeLoop buffer fuel d x [] 0 = some (.suspended ⟨s₁, o⟩, d₁) ∧
      Stopped es v d' n s₁ o d₁ es₁ := by
  obtain ⟨-, -, b, s, d₁, es₁, rfl, hread, hmore, hrest⟩ := h
  rw [length_cons] at hfuel
  obtain ⟨fuel, rfl⟩ : ∃ f, fuel = f + 1 := ⟨fuel - 1, by omega⟩
  rw [streamBytes_cons, length_append, length_singleton] at hn
  rw [SafeCut, length_singleton, if_neg (by omega)] at hsafe
  have htake : (streamBytes ((d, [b]) :: es₁)).take n =
      [] ++ ([b] ++ (streamBytes es₁).take (n - 1)) := by
    rw [streamBytes_cons, take_append, take_of_length_le hpos]
    rfl
  rw [htake] at hbuf
  obtain ⟨x', hturn⟩ := (loop_turn (v := v) hread hbuf hlen fuel x).1 hmore
  obtain ⟨s₁, o, d₂, es₂, hloop, hstop⟩ := loop_cut hrest hmore (by omega) hsafe
    (show buffer = [b] ++ (streamBytes es₁).take (n - 1) from hbuf) hlen
    (Nat.le_of_succ_le_succ hfuel) x'
  refine ⟨s₁, 1 + o, d₂, es₂, ?_, ?_⟩
  · rw [show (0 : Nat) = ([] : Bytes).length from rfl, hturn]
    exact hloop
  · refine ⟨hstop.open_, hstop.rest, ?_, ?_, ?_, ?_⟩
    · have := hstop.le
      omega
    · rw [streamBytes_cons, Nat.add_comm]
      exact hstop.drop
    · exact Nat.le_succ_of_le hstop.length
    · intro m hm hcut
      rw [SafeCut, length_singleton, if_neg (by omega)] at hcut
      have hnext := hstop.cut (m - 1) (by omega) hcut
      rw [Nat.sub_sub] at hnext
      exact hnext

end Loop

/-! ## The sink -/

/-- The sink has the first `n` bytes of an envelope. -/
inductive Pending (es : List (DCtx × Bytes)) (v : LuaValue) (d' : DCtx) : SinkState → Nat → Prop
  | fresh {d : DCtx} {n : Nat} (h : Envelope d es v d') (hn : n < (streamBytes es).length) :
    Pending es v d' ⟨d, (streamBytes es).take n, none⟩ n
  | resumes {d : DCtx} {s : List Slot} {es₁ : List (DCtx × Bytes)} {o n : Nat}
      (h : Stopped es v d' n s o d es₁) (hv : v.truthy = true)
      (hn : n < (streamBytes es).length) : Pending es v d' ⟨d, (streamBytes es).take n, some ⟨s, o⟩⟩ n

section Calls

variable {d d' : DCtx} {es : List (DCtx × Bytes)} {v : LuaValue} {n m : Nat} {st : SinkState}
  {srcData tail : Bytes} {fuel : Nat}

/-- A fragment that does not complete the envelope. -/
theorem sink_waits (h : Pending es v d' st n) (hnm : n < m) (hm : m < (streamBytes es).length)
    (hsrc : (streamBytes es).take n ++ srcData = (streamBytes es).take m) (hsafe : SafeCut es m)
    (hlen : m < 2 ^ 31) (hfuel : es.length ≤ fuel) (x : Data) :
    ∃ st', sink fuel st x srcData = some (.waits, st') ∧ Pending es v d' st' m := by
  have hsize : ((streamBytes es).take m).length = m := by
    rw [length_take]
    omega
  have hbytes : ¬ ((streamBytes es).take m).length = 0 := by omega
  cases h with
  | @fresh d n h hn =>
    have hzero := h.1
    obtain ⟨s₁, o, d₁, es₁, hloop, hstop⟩ :=
      loop_envelope h (by omega) hm hsafe rfl (by omega) hfuel x
    refine ⟨⟨d₁, (streamBytes es).take m, some ⟨s₁, o⟩⟩, ?_, .resumes hstop h.truthy hm⟩
    unfold sink deserialize
    simp only [hsrc, hzero, ne_eq, not_true_eq_false, if_false, if_neg hbytes, hloop,
      bind_eq_bind, bind_some]
  | @resumes d s es₁ o n h hv hn =>
    have hle := h.le
    have hdrop : (streamBytes es).take m =
        (streamBytes es).take o ++ (streamBytes es₁).take (m - o) := by
      rw [← h.drop]
      have hsplit := take_append_drop o ((streamBytes es).take m)
      rw [take_take, Nat.min_eq_left (by omega), drop_take] at hsplit
      exact hsplit.symm
    have hlong : (streamBytes es₁).length = (streamBytes es).length - o := by
      rw [← h.drop, length_drop]
    have hpre : ((streamBytes es).take o).length = o := by
      rw [length_take]
      omega
    obtain ⟨s₁, o₁, d₁, es₂, hloop, hstop⟩ := loop_cut h.rest h.open_ (by omega)
      (h.cut m (by omega) hsafe) hdrop (by omega) (Nat.le_trans h.length hfuel) x
    rw [hpre] at hloop
    have hstop' : Stopped es v d' m s₁ (o + o₁) d₁ es₂ := by
      refine ⟨hstop.open_, hstop.rest, ?_, ?_, Nat.le_trans hstop.length h.length, ?_⟩
      · have := hstop.le
        omega
      · rw [← hstop.drop, ← h.drop, drop_drop]
      · intro p hp hcut
        have hnext := hstop.cut (p - o) (by omega) (h.cut p (by omega) hcut)
        rw [Nat.sub_sub] at hnext
        exact hnext
    refine ⟨⟨d₁, (streamBytes es).take m, some ⟨s₁, o + o₁⟩⟩, ?_, .resumes hstop' hv hm⟩
    unfold sink deserialize
    simp only [hsrc, if_neg h.open_, if_neg hbytes, hloop, bind_eq_bind,
      bind_some]

/-- A fragment that completes the envelope. -/
theorem sink_completes (h : Pending es v d' st n)
    (hsrc : (streamBytes es).take n ++ srcData = streamBytes es ++ tail)
    (hlen : (streamBytes es ++ tail).length < 2 ^ 31) (hfuel : es.length ≤ fuel) (x : Data) :
    sink fuel st x srcData = some (.envelope v, ⟨d', tail, none⟩) := by
  have hdone : (streamBytes es ++ tail).drop ((streamBytes es).length + 1 - 1) = tail := by
    rw [Nat.add_sub_cancel, drop_left]
  cases h with
  | @fresh d n h hn =>
    have hzero := h.1
    have hbytes : ¬ (streamBytes es ++ tail).length = 0 := by
      rw [length_append]
      omega
    have hloop := loop_rest h.rest (nil_append (streamBytes es ++ tail)).symm hlen hfuel x
    rw [length_nil, nil_append] at hloop
    unfold sink deserialize
    simp only [hsrc, hzero, ne_eq, not_true_eq_false, if_false, if_neg hbytes, hloop,
      bind_eq_bind, bind_some, if_pos h.truthy, hdone]
  | @resumes d s es₁ o n h hv hn =>
    have hbytes : ¬ (streamBytes es ++ tail).length = 0 := by
      rw [length_append]
      omega
    have hle := h.le
    have hall : streamBytes es = (streamBytes es).take o ++ streamBytes es₁ := by
      rw [← h.drop, take_append_drop]
    have hpre : ((streamBytes es).take o).length = o := by
      rw [length_take]
      omega
    have hloop := loop_rest h.rest
      (show streamBytes es ++ tail = (streamBytes es).take o ++ (streamBytes es₁ ++ tail) by
        rw [← append_assoc, ← hall])
      hlen (Nat.le_trans h.length hfuel) x
    rw [← hall, hpre] at hloop
    unfold sink deserialize
    simp only [hsrc, if_neg h.open_, if_neg hbytes, hloop, bind_eq_bind,
      bind_some, if_pos hv, hdone]

end Calls

/-! ## Sequences of envelopes -/

inductive Envelopes : DCtx → List (List (DCtx × Bytes) × LuaValue) → DCtx → Prop
  | nil (d : DCtx) : Envelopes d [] d
  | cons {d d₁ d' : DCtx} {es : List (DCtx × Bytes)} {v : LuaValue}
      {envs : List (List (DCtx × Bytes) × LuaValue)} (h : Envelope d es v d₁)
      (hrest : Envelopes d₁ envs d') : Envelopes d ((es, v) :: envs) d'

end

def envelopeBytes (envs : List (List (DCtx × Bytes) × LuaValue)) : Bytes :=
  (envs.map fun env => streamBytes env.1).flatten

def received : List (List (DCtx × Bytes) × LuaValue) → Nat → List LuaValue
  | [], _ => []
  | (es, v) :: envs, n =>
    if (streamBytes es).length ≤ n then v :: received envs (n - (streamBytes es).length) else []

/-- How many of the first `n` bytes are those of an envelope that ends later. -/
def leftover : List (List (DCtx × Bytes) × LuaValue) → Nat → Nat
  | [], n => n
  | (es, _) :: envs, n =>
    if (streamBytes es).length ≤ n then leftover envs (n - (streamBytes es).length) else n

/-- The envelopes that do not end in the first `n` bytes. -/
def remaining : List (List (DCtx × Bytes) × LuaValue) → Nat →
    List (List (DCtx × Bytes) × LuaValue)
  | [], _ => []
  | (es, v) :: envs, n =>
    if (streamBytes es).length ≤ n then remaining envs (n - (streamBytes es).length)
    else (es, v) :: envs

/-- The envelope that the position `n` falls in may be cut there. -/
def SafeEnd : List (List (DCtx × Bytes) × LuaValue) → Nat → Prop
  | [], _ => True
  | (es, _) :: envs, n =>
    if (streamBytes es).length ≤ n then SafeEnd envs (n - (streamBytes es).length)
    else SafeCut es n

/-- The fragment from `lo` to `hi` brings the last byte of one envelope at most; when it brings
none, its end is a position where the decoder can wait; and its size fits in an `int`. -/
structure Fair (envs : List (List (DCtx × Bytes) × LuaValue)) (lo hi : Nat) : Prop where
  one : (received envs hi).length ≤ (received envs lo).length + 1
  cut : (received envs hi).length = (received envs lo).length → SafeEnd envs hi
  short : leftover envs lo + (hi - lo) < 2 ^ 31

section Runs

variable {es : List (DCtx × Bytes)} {v : LuaValue}
  {envs : List (List (DCtx × Bytes) × LuaValue)} {lo hi : Nat}

theorem Fair.next (h : Fair ((es, v) :: envs) lo hi) (hlo : (streamBytes es).length ≤ lo)
    (hhi : lo ≤ hi) :
    Fair envs (lo - (streamBytes es).length) (hi - (streamBytes es).length) := by
  obtain ⟨hone, hcut, hshort⟩ := h
  rw [received, received, if_pos hlo, if_pos (Nat.le_trans hlo hhi)] at hone hcut
  rw [SafeEnd, if_pos (Nat.le_trans hlo hhi)] at hcut
  rw [leftover, if_pos hlo] at hshort
  refine ⟨Nat.le_of_succ_le_succ hone, fun heq => hcut ?_, ?_⟩
  · rw [length_cons, length_cons, heq]
  · omega

variable [CFloat]

/-- The sink has the first `n` bytes of a sequence of envelopes, and none of them is complete. -/
inductive Waiting (d' : DCtx) :
    SinkState → List (List (DCtx × Bytes) × LuaValue) → Nat → Prop
  | idle : Waiting d' ⟨d', [], none⟩ [] 0
  | pending {d₁ : DCtx} {es : List (DCtx × Bytes)} {v : LuaValue} {st : SinkState} {n : Nat}
      {envs : List (List (DCtx × Bytes) × LuaValue)} (h : Pending es v d₁ st n)
      (hrest : Envelopes d₁ envs d') : Waiting d' st ((es, v) :: envs) n

variable {d d' : DCtx}

theorem Envelope.pos (h : Envelope d es v d') : 0 < (streamBytes es).length := by
  obtain ⟨-, -, b, s, d₁, es₁, rfl, -⟩ := h
  rw [streamBytes_cons, length_append, length_singleton]
  omega

theorem Envelopes.waiting (h : Envelopes d envs d') {tail : Bytes}
    (htail : tail = (envelopeBytes envs).take tail.length)
    (hnone : received envs tail.length = []) :
    Waiting d' ⟨d, tail, none⟩ envs tail.length := by
  cases h with
  | nil d =>
    have hnil : tail = [] := by
      rw [htail]
      exact take_nil
    subst hnil
    exact .idle
  | @cons d d₁ d' es v envs h hrest =>
    have hlt : tail.length < (streamBytes es).length := by
      by_contra hge
      rw [received, if_pos (by omega)] at hnone
      cases hnone
    have heq : tail = (streamBytes es).take tail.length := by
      have hsplit : envelopeBytes ((es, v) :: envs) = streamBytes es ++ envelopeBytes envs := rfl
      rw [hsplit, take_append_of_le_length (by omega)] at htail
      exact htail
    refine .pending ?_ hrest
    have hfresh := Pending.fresh h hlt
    rw [← heq] at hfresh
    exact hfresh

inductive Fed (fuel : Nat) (junk : Nat → Data) :
    SinkState → List Bytes → List LuaValue → SinkState → Prop
  | nil (s : SinkState) : Fed fuel junk s [] [] s
  | waits {s s₁ s' : SinkState} {frag : Bytes} {frags : List Bytes} {vs : List LuaValue}
      (h : sink fuel s (junk frags.length) frag = some (.waits, s₁))
      (hrest : Fed fuel junk s₁ frags vs s') : Fed fuel junk s (frag :: frags) vs s'
  | envelope {s s₁ s' : SinkState} {frag : Bytes} {frags : List Bytes} {v : LuaValue}
      {vs : List LuaValue} (h : sink fuel s (junk frags.length) frag = some (.envelope v, s₁))
      (hrest : Fed fuel junk s₁ frags vs s') : Fed fuel junk s (frag :: frags) (v :: vs) s'

variable {frags : List Bytes} {fuel : Nat}

theorem Fed.sinks {junk : Nat → Data} {s s' : SinkState}
    {vs : List LuaValue} (h : Fed fuel junk s frags vs s') :
    sinks fuel junk s frags = some (vs, s') := by
  induction h with
  | nil s => rfl
  | waits h hrest ih =>
    rw [Sink.sinks, h, bind_eq_bind, bind_some]
    simp only [ih, bind_eq_bind, bind_some]
  | envelope h hrest ih =>
    rw [Sink.sinks, h, bind_eq_bind, bind_some]
    simp only [ih, bind_eq_bind, bind_some]

/-- The envelopes that have come are handed over, each with the fragment that brings its last
byte, and the sink keeps the bytes of the next one. -/
theorem sinks_received (junk : Nat → Data) {d' : DCtx} {st : SinkState} {n : Nat}
    (h : Waiting d' st envs n) (hfuel : ∀ env ∈ envs, env.1.length ≤ fuel)
    (hbytes : (envelopeBytes envs).take n ++ frags.flatten =
      (envelopeBytes envs).take (n + frags.flatten.length))
    (hfrags : ∀ frag ∈ frags, frag ≠ [])
    (hfair : ∀ i < frags.length,
      Fair envs (n + (frags.take i).flatten.length) (n + (frags.take (i + 1)).flatten.length)) :
    ∃ st', Fed fuel junk st frags (received envs (n + frags.flatten.length)) st' ∧
      Waiting d' st' (remaining envs (n + frags.flatten.length))
        (leftover envs (n + frags.flatten.length)) := by
  induction frags generalizing st envs n with
  | nil =>
    rw [flatten_nil, length_nil, Nat.add_zero]
    cases h with
    | idle => exact ⟨_, .nil _, .idle⟩
    | @pending d₁ es v st n envs h hrest =>
      have hn : ¬ (streamBytes es).length ≤ n := by
        cases h with
        | fresh _ hn => omega
        | resumes _ _ hn => omega
      rw [received, remaining, leftover, if_neg hn, if_neg hn, if_neg hn]
      exact ⟨st, .nil st, .pending h hrest⟩
  | cons frag frags ih =>
    have hfrag : 0 < frag.length := length_pos_iff.mpr (hfrags frag mem_cons_self)
    have hrestFrags : ∀ f ∈ frags, f ≠ [] := fun f hf => hfrags f (mem_cons_of_mem _ hf)
    rw [flatten_cons, length_append] at hbytes ⊢
    cases h with
    | idle =>
      have hlen := congrArg List.length hbytes
      rw [show envelopeBytes [] = [] from rfl, take_nil, take_nil, nil_append,
        length_append, length_nil] at hlen
      omega
    | @pending d₁ es v st n envs h hrest =>
      have hn : n < (streamBytes es).length := by
        cases h with
        | fresh _ hn => exact hn
        | resumes _ _ hn => exact hn
      have hsplit : envelopeBytes ((es, v) :: envs) = streamBytes es ++ envelopeBytes envs := rfl
      have hmem := hfuel (es, v) mem_cons_self
      have hfirst := hfair 0 (by simp)
      simp only [take_zero, flatten_nil, length_nil, Nat.add_zero,
        take_succ_cons, flatten_cons, append_nil] at hfirst
      obtain ⟨hone, hcut, hshort⟩ := hfirst
      rw [leftover, if_neg (by omega)] at hshort
      rw [received.eq_def _ n] at hone hcut
      simp only [if_neg (show ¬ (streamBytes es).length ≤ n by omega)] at hone hcut
      rw [received, SafeEnd] at hcut
      rw [received] at hone
      -- the bytes up to the end of the first fragment
      have hhead : (envelopeBytes ((es, v) :: envs)).take n ++ frag =
          (envelopeBytes ((es, v) :: envs)).take (n + frag.length) := by
        have htake := congrArg (List.take (n + frag.length)) hbytes
        have hnlen : ((envelopeBytes ((es, v) :: envs)).take n).length = n := by
          rw [length_take, hsplit, length_append]
          omega
        rw [← append_assoc, take_append_of_le_length (by
          rw [length_append, hnlen]), take_of_length_le (by
          rw [length_append, hnlen]), take_take,
          Nat.min_eq_left (by omega)] at htake
        exact htake
      by_cases hlt : n + frag.length < (streamBytes es).length
      · -- the envelope is not complete
        have hno : ¬ (streamBytes es).length ≤ n + frag.length := by omega
        rw [if_neg hno, if_neg hno] at hcut
        have hsrc : (streamBytes es).take n ++ frag =
            (streamBytes es).take (n + frag.length) := by
          rw [hsplit, take_append_of_le_length (by omega),
            take_append_of_le_length (by omega)] at hhead
          exact hhead
        obtain ⟨st', hsink, hpending⟩ := sink_waits h (by omega) hlt hsrc (hcut rfl) (by omega)
          hmem (junk frags.length)
        have hbytes' : (envelopeBytes ((es, v) :: envs)).take (n + frag.length) ++
            frags.flatten =
            (envelopeBytes ((es, v) :: envs)).take (n + frag.length + frags.flatten.length) := by
          rw [← hhead, append_assoc, Nat.add_assoc]
          exact hbytes
        obtain ⟨st₂, hfed, hwait⟩ := ih (.pending hpending hrest) hfuel hbytes' hrestFrags (by
          intro i hi
          have := hfair (i + 1) (by simpa using hi)
          simp only [take_succ_cons, flatten_cons, length_append] at this
          rw [Nat.add_assoc, Nat.add_assoc]
          exact this)
        rw [Nat.add_assoc] at hfed hwait
        exact ⟨st₂, .waits hsink hfed, hwait⟩
      · -- the envelope is complete
        have hyes : (streamBytes es).length ≤ n + frag.length := by omega
        rw [if_pos hyes] at hone
        have htail : (envelopeBytes ((es, v) :: envs)).take n ++ frag =
            streamBytes es ++ (envelopeBytes envs).take (n + frag.length -
              (streamBytes es).length) := by
          rw [hhead, hsplit, take_append, take_of_length_le hyes]
        have hsrc : (streamBytes es).take n ++ frag = streamBytes es ++
            (envelopeBytes envs).take (n + frag.length - (streamBytes es).length) := by
          rw [hsplit, take_append_of_le_length (by omega)] at htail
          exact htail
        generalize htl : (envelopeBytes envs).take (n + frag.length - (streamBytes es).length) =
          tail at hsrc
        have hlens := congrArg List.length hsrc
        rw [length_append, length_append, length_take,
          Nat.min_eq_left (by omega)] at hlens
        have htlen : tail.length = n + frag.length - (streamBytes es).length := by omega
        have hsink := sink_completes h hsrc (by rw [length_append]; omega) hmem
          (junk frags.length)
        have hnone : received envs tail.length = [] := by
          rw [htlen]
          apply eq_nil_of_length_eq_zero
          rw [length_cons] at hone
          simp only [length_nil] at hone
          omega
        have hwait := hrest.waiting (show tail = (envelopeBytes envs).take tail.length by
          rw [htlen, htl]) hnone
        have hbytes' : (envelopeBytes envs).take tail.length ++ frags.flatten =
            (envelopeBytes envs).take (tail.length + frags.flatten.length) := by
          have hdrop := congrArg (List.drop (streamBytes es).length) hbytes
          rw [← append_assoc, htail, htl, append_assoc, drop_left, hsplit,
            take_append, take_of_length_le (by omega), drop_left] at hdrop
          rw [htlen, htl, hdrop]
          congr 1
          omega
        obtain ⟨st₂, hfed, hwait⟩ := ih hwait (fun env he => hfuel env (mem_cons_of_mem _ he))
          hbytes' hrestFrags (by
            intro i hi
            have hnext := hfair (i + 1) (by simpa using hi)
            simp only [take_succ_cons, flatten_cons, length_append] at hnext
            have hmono : (frags.take i).flatten.length ≤ (frags.take (i + 1)).flatten.length := by
              rw [take_add, flatten_append, length_append]
              omega
            have hfair' := hnext.next (by omega) (by omega)
            rw [htlen]
            have h1 : n + (frag.length + (frags.take i).flatten.length) -
                (streamBytes es).length = n + frag.length - (streamBytes es).length +
                  (frags.take i).flatten.length := by omega
            have h2 : n + (frag.length + (frags.take (i + 1)).flatten.length) -
                (streamBytes es).length = n + frag.length - (streamBytes es).length +
                  (frags.take (i + 1)).flatten.length := by omega
            rw [h1, h2] at hfair'
            exact hfair')
        have h3 : n + (frag.length + frags.flatten.length) - (streamBytes es).length =
            tail.length + frags.flatten.length := by omega
        rw [received, remaining, leftover, if_pos (by omega), if_pos (by omega),
          if_pos (by omega), h3]
        exact ⟨st₂, .envelope hsink hfed, hwait⟩

theorem Envelopes.idle (h : Envelopes d envs d') :
    Waiting d' ⟨d, [], none⟩ envs 0 := by
  refine h.waiting
    (show ([] : Bytes) = (envelopeBytes envs).take ([] : Bytes).length from rfl) ?_
  cases h with
  | nil d => rfl
  | cons h hrest =>
    have hpos := h.pos
    rw [received, if_neg]
    rw [length_nil]
    omega

/-- The first fragments of a sequence of envelopes, for a sink that has no bytes yet. -/
theorem Envelopes.fed (h : Envelopes d envs d')
    (hbytes : frags.flatten = (envelopeBytes envs).take frags.flatten.length)
    (hfrags : ∀ frag ∈ frags, frag ≠ [])
    (hfair : ∀ i < frags.length,
      Fair envs (frags.take i).flatten.length (frags.take (i + 1)).flatten.length)
    (hfuel : ∀ env ∈ envs, env.1.length ≤ fuel) (junk : Nat → Data) :
    ∃ st, Fed fuel junk ⟨d, [], none⟩ frags (received envs frags.flatten.length) st ∧
      Waiting d' st (remaining envs frags.flatten.length)
        (leftover envs frags.flatten.length) := by
  have hstart : (envelopeBytes envs).take 0 ++ frags.flatten =
      (envelopeBytes envs).take (0 + frags.flatten.length) := by
    rw [take_zero, nil_append, Nat.zero_add]
    exact hbytes
  have hall := sinks_received junk h.idle hfuel hstart hfrags (by
    intro i hi
    rw [Nat.zero_add, Nat.zero_add]
    exact hfair i hi)
  rw [Nat.zero_add] at hall
  exact hall

end Runs

section

variable [CFloat]

def afterElement (d : DCtx) (s : List Slot) (e : Bytes) : List Slot × DCtx :=
  match bsdRead d blankData e (-2) with
  | some (_, x, d') =>
    match bysant2lua x s with
    | some (.ok s') => (s', d')
    | _ => (s, d)
  | none => (s, d)

def elements : DCtx → List Slot → List Bytes → List (DCtx × Bytes)
  | _, _, [] => []
  | d, s, e :: es => (d, e) :: elements (afterElement d s e).2 (afterElement d s e).1 es

def contextAfter : DCtx → List Slot → List Bytes → DCtx
  | d, _, [] => d
  | d, s, e :: es => contextAfter (afterElement d s e).2 (afterElement d s e).1 es

theorem Rest.step {d d' : DCtx} {s : List Slot} {e : Bytes} {es : List Bytes} {v : LuaValue}
    (h : Reads d s e (afterElement d s e).1 (afterElement d s e).2)
    (hmore : (afterElement d s e).2.stacksize ≠ 0)
    (hrest : Rest (afterElement d s e).2 (afterElement d s e).1
      (elements (afterElement d s e).2 (afterElement d s e).1 es) v d') :
    Rest d s (elements d s (e :: es)) v d' :=
  .cons h hmore hrest

end

/-- The class `Envelope` of `M.classes`. -/
def envelopeClass : BsClass where
  classid := 0
  classname := some [69, 110, 118, 101, 108, 111, 112, 101]
  mode := .managed
  fields := [⟨some [104, 101, 97, 100, 101, 114], .listOrMap⟩,
    ⟨some [112, 97, 121, 108, 111, 97, 100], .unsignedOrString⟩,
    ⟨some [102, 111, 111, 116, 101, 114], .listOrMap⟩]

def deserializer : DCtx :=
  (bsdAddClass (bsdInit blankStack) ⟨0, envelopeClass⟩).getD (bsdInit blankStack)

def sampleElements : List Bytes := [[0x60], [0x83], [], [0x01], [0x83], [], []]

def sampleValue : LuaValue :=
  .table [(.string [102, 111, 111, 116, 101, 114], .table []),
    (.string [112, 97, 121, 108, 111, 97, 100], .string []),
    (.string [104, 101, 97, 100, 101, 114], .table []),
    (classField, .string [69, 110, 118, 101, 108, 111, 112, 101])]

section

local instance : CFloat := oneAndAHalf

def secondContext : DCtx := contextAfter deserializer [] sampleElements

theorem envelope_first :
    Envelope deserializer (elements deserializer [] sampleElements) sampleValue
      secondContext := by
  refine ⟨rfl, ⟨_, rfl⟩, 0x60, (afterElement deserializer [] [0x60]).1,
    (afterElement deserializer [] [0x60]).2, _, rfl, fun x => ⟨_, rfl, nofun, nofun, rfl⟩,
    nofun, ?_⟩
  refine .step (fun x => ⟨_, rfl, nofun, nofun, rfl⟩) nofun ?_
  refine .step (fun x => ⟨_, rfl, nofun, nofun, rfl⟩) nofun ?_
  refine .step (fun x => ⟨_, rfl, nofun, nofun, rfl⟩) nofun ?_
  refine .step (fun x => ⟨_, rfl, nofun, nofun, rfl⟩) nofun ?_
  refine .step (fun x => ⟨_, rfl, nofun, nofun, rfl⟩) nofun ?_
  exact .last (fun x => ⟨_, rfl, nofun, nofun, rfl⟩) rfl

end

end Mihini.M3da.Sink
