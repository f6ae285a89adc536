import Mathlib.Data.List.MinMax
import Mathlib.Data.Real.Basic
import Mathlib.Tactic.Linarith
import Mathlib.Tactic.NormNum
import Mihini.Ntp.Core

/-!
# Synchronization of the clock

`local_synchronize` of `src/agent/agent/time.lua`, and how far the clock is from that of the server
afterwards.
-/

namespace Mihini.Ntp

open List

/-! ## The exchanges of a synchronization -/

/-- The variables of `local_synchronize`; a timestamp that is not set is zero in the packet. -/
structure Sync where
  best : Option (Stamp × Stamp)
  oriTs : Stamp
  rcvTs : Stamp

/-- What `local_synchronize` does with the results of `ntp.processpackets`. -/
def Sync.processed (s : Sync) : Processed → Sync
  | .ok offset delay org rec =>
    match s.best with
    | none => ⟨some (delay, offset), org, rec⟩
    | some (bestDelay, bestOffset) =>
      if getbestdelay bestDelay delay = delay then ⟨some (delay, offset), org, rec⟩
      else ⟨some (bestDelay, bestOffset), org, rec⟩
  | .set _ _ => ⟨s.best, 0, 0⟩
  | .insane _ => ⟨s.best, 0, 0⟩

def Sync.exchange (s : Sync) (e : Exchange) : Sync :=
  s.processed (processpackets e.received (e.request s.oriTs s.rcvTs) e.response)

/-- What the clock is set to at the end, when it is at `now`. -/
def localSynchronize (exchanges : List Exchange) (now : Timeval) : Option Timeval :=
  (exchanges.foldl Sync.exchange ⟨none, 0, 0⟩).best.map fun b => settime now b.2

def bestExchange (exchanges : List Exchange) : Option Exchange :=
  exchanges.reverse.argmin fun e => e.delay.natAbs

theorem getbestdelay_eq_iff {bestDelay delay : Stamp} :
    getbestdelay bestDelay delay = delay ↔ ¬ bestDelay.toInt.natAbs < delay.toInt.natAbs := by
  unfold getbestdelay
  split
  next h =>
    refine iff_of_false (fun heq => ?_) (not_not.mpr h)
    rw [heq] at h
    exact Nat.lt_irrefl _ h
  next h => exact iff_of_true rfl h

def Keeps (best : Option (Stamp × Stamp)) (e : Exchange) : Prop :=
  ∃ delay offset, best = some (delay, offset) ∧ delay.toInt = e.delay ∧ offset.toInt = e.offset

theorem exchange_of_exact {s : Sync} {e : Exchange} (h : e.Exact) :
    (s.best = none → Keeps (s.exchange e).best e) ∧
      ∀ b, Keeps s.best b →
        Keeps (s.exchange e).best (if b.delay.natAbs < e.delay.natAbs then b else e) := by
  obtain ⟨offset, delay, org, rec, hok, hoffset, hdelay⟩ := h
  have hexchange : s.exchange e = s.processed (.ok offset delay org rec) :=
    congrArg s.processed ((e.processpackets_request s.oriTs s.rcvTs).trans hok)
  rw [hexchange]
  unfold Sync.processed
  dsimp only
  constructor
  · intro hnone
    rw [hnone]
    exact ⟨delay, offset, rfl, hdelay, hoffset⟩
  · intro b ⟨bestDelay, bestOffset, hbest, hbestDelay, hbestOffset⟩
    rw [hbest]
    dsimp only
    have hkept : getbestdelay bestDelay delay = delay ↔ ¬ b.delay.natAbs < e.delay.natAbs := by
      rw [getbestdelay_eq_iff, hbestDelay, hdelay]
    by_cases hlt : b.delay.natAbs < e.delay.natAbs
    · rw [if_pos hlt, if_neg fun heq => hkept.mp heq hlt]
      exact ⟨bestDelay, bestOffset, rfl, hbestDelay, hbestOffset⟩
    · rw [if_neg hlt, if_pos (hkept.mpr hlt)]
      exact ⟨delay, offset, rfl, hdelay, hoffset⟩

/-- The loop keeps the delay and the offset of the best exchange. -/
theorem keeps_bestExchange {exchanges : List Exchange} (h : ∀ e ∈ exchanges, e.Exact) :
    match bestExchange exchanges with
    | none => (exchanges.foldl Sync.exchange ⟨none, 0, 0⟩).best = none
    | some b => Keeps (exchanges.foldl Sync.exchange ⟨none, 0, 0⟩).best b := by
  induction exchanges using List.reverseRecOn with
  | nil => rfl
  | append_singleton exchanges e ih =>
    have hkept := ih fun e' he' => h e' (mem_append_left _ he')
    have hexact : e.Exact := h e (mem_append_right _ mem_cons_self)
    have hfirst := (exchange_of_exact (s := exchanges.foldl Sync.exchange ⟨none, 0, 0⟩) hexact).1
    have hnext := (exchange_of_exact (s := exchanges.foldl Sync.exchange ⟨none, 0, 0⟩) hexact).2
    unfold bestExchange at hkept ⊢
    rw [reverse_append, reverse_singleton, singleton_append, argmin_cons,
      foldl_append, foldl_cons, foldl_nil]
    cases hbest : exchanges.reverse.argmin fun e => e.delay.natAbs with
    | none =>
      rw [hbest] at hkept
      exact hfirst hkept
    | some b =>
      rw [hbest] at hkept
      have hkeeps := hnext b hkept
      dsimp only
      split_ifs at hkeeps ⊢ <;> exact hkeeps

/-! ## Clocks -/

noncomputable def Timeval.seconds (tv : Timeval) : ℝ := tv.sec + tv.usec / 10 ^ 6

/-- A clock whose seconds since 1970 are `x` is read to the microsecond. -/
def Timeval.Reads (tv : Timeval) (x : ℝ) : Prop := tv.seconds ≤ x ∧ x < tv.seconds + 1 / 10 ^ 6

def Reads (stamp : Int) (x : ℝ) : Prop :=
  (stamp : ℝ) / 2 ^ 32 ≤ x + ntpTimeBase ∧ x + ntpTimeBase < (stamp + 1) / 2 ^ 32

/-- The exchange with a server whose clock is `θ` seconds ahead: the request takes `out` seconds and the
response `back` seconds. -/
structure Exchange.Timed (e : Exchange) (θ t1 t4 out back : ℝ) : Prop where
  out_nonneg : 0 ≤ out
  back_nonneg : 0 ≤ back
  sent : e.sent.Reads t1
  receive : Reads e.receive (t1 + out + θ)
  transmit : Reads e.transmit (t4 - back + θ)
  received : e.received.Reads t4

theorem ntp_le_seconds (tv : Timeval) :
    (tv.ntp : ℝ) ≤ (tv.seconds + ntpTimeBase) * 2 ^ 32 ∧
      (tv.seconds + ntpTimeBase) * 2 ^ 32 < tv.ntp + 1 := by
  have hle : tv.ntp * 10 ^ 6 ≤ ((tv.sec + ntpTimeBase) * 10 ^ 6 + tv.usec) * 2 ^ 32 := by
    unfold Timeval.ntp
    omega
  have hlt : ((tv.sec + ntpTimeBase) * 10 ^ 6 + tv.usec) * 2 ^ 32 < (tv.ntp + 1) * 10 ^ 6 := by
    unfold Timeval.ntp
    omega
  have hle' : (tv.ntp : ℝ) * 10 ^ 6 ≤ ((tv.sec + ntpTimeBase) * 10 ^ 6 + tv.usec) * 2 ^ 32 := by
    exact_mod_cast hle
  have hlt' : ((tv.sec + ntpTimeBase) * 10 ^ 6 + tv.usec : ℝ) * 2 ^ 32 < (tv.ntp + 1) * 10 ^ 6 := by
    exact_mod_cast hlt
  unfold Timeval.seconds
  constructor <;> linarith

theorem Timeval.Reads.ntp {tv : Timeval} {x : ℝ} (h : tv.Reads x) :
    (tv.ntp : ℝ) / 2 ^ 32 ≤ x + ntpTimeBase ∧
      x + ntpTimeBase < (tv.ntp + 1) / 2 ^ 32 + 1 / 10 ^ 6 := by
  obtain ⟨hle, hlt⟩ := ntp_le_seconds tv
  obtain ⟨hreads, hreads'⟩ := h
  constructor <;> linarith

/-- The offset differs from that of the clocks by at most half the delay and the rounding. -/
theorem Exchange.Timed.offset {e : Exchange} {θ t1 t4 out back : ℝ}
    (h : e.Timed θ t1 t4 out back) :
    (e.offset : ℝ) / 2 ^ 32 ≤ θ + e.delay / 2 / 2 ^ 32 + 1 / 2 ^ 32 + 1 / 10 ^ 6 ∧
      θ - e.delay / 2 / 2 ^ 32 - 2 / 2 ^ 32 ≤ (e.offset : ℝ) / 2 ^ 32 := by
  obtain ⟨hsent, hsent'⟩ := h.sent.ntp
  obtain ⟨hreceived, hreceived'⟩ := h.received.ntp
  obtain ⟨hreceive, hreceive'⟩ := h.receive
  obtain ⟨htransmit, htransmit'⟩ := h.transmit
  have hout := h.out_nonneg
  have hback := h.back_nonneg
  have hle : 2 * e.offset ≤ (e.receive - e.sent.ntp) + (e.transmit - e.received.ntp) := by
    unfold Exchange.offset
    omega
  have hlt : (e.receive - e.sent.ntp) + (e.transmit - e.received.ntp) ≤ 2 * e.offset + 1 := by
    unfold Exchange.offset
    omega
  have hle' : 2 * (e.offset : ℝ) ≤ (e.receive - e.sent.ntp) + (e.transmit - e.received.ntp) := by
    exact_mod_cast hle
  have hlt' : (e.receive - e.sent.ntp : ℝ) + (e.transmit - e.received.ntp) ≤ 2 * e.offset + 1 := by
    exact_mod_cast hlt
  have hdelay : (e.delay : ℝ) = (e.received.ntp - e.sent.ntp) - (e.transmit - e.receive) := by
    unfold Exchange.delay
    push_cast
    ring
  rw [hdelay]
  constructor <;> linarith

theorem seconds_internalSetntptime (x : Int) :
    (internalSetntptime (BitVec.ofInt 64 x)).seconds ≤ (x % 2 ^ 64 : Int) / 2 ^ 32 - ntpTimeBase ∧
      (x % 2 ^ 64 : Int) / 2 ^ 32 - ntpTimeBase <
        (internalSetntptime (BitVec.ofInt 64 x)).seconds + 1 / 10 ^ 6 := by
  obtain ⟨hsec, husec⟩ := internalSetntptime_ofInt x
  generalize internalSetntptime (BitVec.ofInt 64 x) = tv at hsec husec ⊢
  have hlow : x % 2 ^ 32 = x % 2 ^ 64 % 2 ^ 32 := by omega
  rw [hlow] at husec
  generalize x % 2 ^ 64 = r at hsec husec ⊢
  have hle : ((tv.sec + ntpTimeBase) * 10 ^ 6 + tv.usec) * 2 ^ 32 ≤ r * 10 ^ 6 := by omega
  have hlt : r * 10 ^ 6 < ((tv.sec + ntpTimeBase) * 10 ^ 6 + tv.usec + 1) * 2 ^ 32 := by omega
  have hle' : ((tv.sec + ntpTimeBase) * 10 ^ 6 + tv.usec : ℝ) * 2 ^ 32 ≤ r * 10 ^ 6 := by
    exact_mod_cast hle
  have hlt' : (r : ℝ) * 10 ^ 6 < ((tv.sec + ntpTimeBase) * 10 ^ 6 + tv.usec + 1) * 2 ^ 32 := by
    exact_mod_cast hlt
  unfold Timeval.seconds
  constructor <;> linarith

/-! ## Main result -/

/-- `settimeofday` takes the value, which is off the clock of the server at `x + θ` by at most half the
delay, besides the rounding. -/
def Timeval.Within (tv : Timeval) (x θ : ℝ) (delay : Int) : Prop :=
  0 ≤ tv.sec ∧
    |tv.seconds - (x + θ)| ≤ |(delay : ℝ)| / 2 / 2 ^ 32 + 2 / 10 ^ 6 + 3 / 2 ^ 32

/-- The clock and the offset of the exchange give a date from 1970 to the end of the first era, in
2036. -/
def Dated (now : Timeval) (e : Exchange) : Prop :=
  ntpTimeBase * 2 ^ 32 ≤ now.ntp + e.offset ∧ now.ntp + e.offset < 2 ^ 64

section

variable {e : Exchange} {now : Timeval} {x θ t1 t4 out back : ℝ}

theorem settime_eq {offset : Stamp} (hoffset : offset.toInt = e.offset) :
    settime now offset = internalSetntptime (BitVec.ofInt 64 (now.ntp + e.offset)) := by
  rw [settime, internalGetntptime_eq, BitVec.ofInt_add, ← hoffset, BitVec.ofInt_toInt]

/-- Before the cut to 64 bits the new time is as close to that of the server as it should be. -/
theorem sum_close (htimed : e.Timed θ t1 t4 out back) (hnow : now.Reads x) :
    ((now.ntp + e.offset : Int) : ℝ) / 2 ^ 32 - ntpTimeBase ≤
        x + θ + |(e.delay : ℝ)| / 2 / 2 ^ 32 + 1 / 10 ^ 6 + 1 / 2 ^ 32 ∧
      x + θ - |(e.delay : ℝ)| / 2 / 2 ^ 32 - 1 / 10 ^ 6 - 3 / 2 ^ 32 <
        ((now.ntp + e.offset : Int) : ℝ) / 2 ^ 32 - ntpTimeBase := by
  obtain ⟨hle, hlt⟩ := htimed.offset
  obtain ⟨hnow, hnow'⟩ := hnow.ntp
  have habs := le_abs_self (e.delay : ℝ)
  push_cast
  constructor <;> linarith

theorem within_iff {offset : Stamp} (hoffset : offset.toInt = e.offset)
    (htimed : e.Timed θ t1 t4 out back) (hnow : now.Reads x) (hdelay : e.delay.natAbs < 2 ^ 63) :
    (settime now offset).Within x θ e.delay ↔ Dated now e := by
  obtain ⟨hclose, hclose'⟩ := sum_close htimed hnow
  rw [settime_eq hoffset]
  unfold Timeval.Within Dated
  obtain ⟨hset, hset'⟩ := seconds_internalSetntptime (now.ntp + e.offset)
  rw [(internalSetntptime_ofInt (now.ntp + e.offset)).1]
  generalize (internalSetntptime (BitVec.ofInt 64 (now.ntp + e.offset))).seconds = new at hset hset' ⊢
  generalize now.ntp + e.offset = sum at hclose hclose' hset hset' ⊢
  constructor
  · intro ⟨hsec, hwithin⟩
    obtain ⟨hlow, hhigh⟩ := abs_le.mp hwithin
    have hsize : |(e.delay : ℝ)| < 2 ^ 63 := by
      rw [← Int.cast_abs, Int.abs_eq_natAbs]
      exact_mod_cast hdelay
    -- A change of the era would be far more than what the two times are apart.
    have hlt : ((sum - sum % 2 ^ 64 : Int) : ℝ) < 2 ^ 64 := by
      push_cast at hset hset' ⊢
      linarith
    have hgt : -2 ^ 64 < ((sum - sum % 2 ^ 64 : Int) : ℝ) := by
      push_cast at hset hset' ⊢
      linarith
    have hlt' : sum - sum % 2 ^ 64 < 2 ^ 64 := by exact_mod_cast hlt
    have hgt' : -2 ^ 64 < sum - sum % 2 ^ 64 := by exact_mod_cast hgt
    unfold ntpTimeBase at hsec ⊢
    omega
  · intro ⟨hle, hlt⟩
    have hera : sum % 2 ^ 64 = sum := by
      unfold ntpTimeBase at hle
      omega
    rw [hera] at hset hset' ⊢
    refine ⟨?_, abs_le.mpr ⟨?_, ?_⟩⟩
    · unfold ntpTimeBase at hle ⊢
      omega
    · linarith
    · linarith

end

/-- The offsets and the delays are right and the clock is set within half the least delay exactly when
the clocks are near in every exchange and the new date is before the end of the first era. -/
theorem clock_synchronized {exchanges : List Exchange} {e : Exchange} {now : Timeval} {x θ : ℝ}
    (hbest : bestExchange exchanges = some e)
    (htimed : ∀ e ∈ exchanges, ∃ t1 t4 out back, e.Timed θ t1 t4 out back) (hnow : now.Reads x) :
    ((∀ e ∈ exchanges, e.Exact) ∧
        ∃ tv, localSynchronize exchanges now = some tv ∧ tv.Within x θ e.delay) ↔
      (∀ e ∈ exchanges, e.Near) ∧ Dated now e := by
  have hexact : (∀ e ∈ exchanges, e.Exact) ↔ ∀ e ∈ exchanges, e.Near :=
    forall₂_congr fun e _ => Exchange.exact_iff
  rw [hexact]
  refine and_congr_right fun hnear => ?_
  have hmem : e ∈ exchanges := mem_reverse.mp (argmin_mem hbest)
  obtain ⟨t1, t4, out, back, hclocks⟩ := htimed e hmem
  have hkeeps := keeps_bestExchange (hexact.mpr hnear)
  rw [hbest] at hkeeps
  obtain ⟨delay, offset, hkept, -, hoffset⟩ := hkeeps
  have hset : localSynchronize exchanges now = some (settime now offset) := by
    rw [localSynchronize, hkept]
    rfl
  rw [← within_iff hoffset hclocks hnow (hnear e hmem).lt.2]
  constructor
  · intro ⟨tv, htv, hwithin⟩
    rw [hset] at htv
    rw [Option.some.inj htv]
    exact hwithin
  · intro hwithin
    exact ⟨settime now offset, hset, hwithin⟩

def answered (sent : Timeval) (server : Int) (received : Timeval) : Exchange :=
  ⟨sent, server, server, received, 0x24, 1, rfl, rfl, by decide⟩

def late : Exchange :=
  answered ⟨1000, 0, by decide⟩ ((ntpTimeBase + 1003) * 2 ^ 32) ⟨1002, 0, by decide⟩

theorem clock_synchronized_late :
    (∀ e ∈ [late], e.Exact) ∧
      ∃ tv, localSynchronize [late] ⟨1003, 0, by decide⟩ = some tv ∧ tv.Within 1003 2 late.delay := by
  refine (clock_synchronized rfl ?_ ?_).mpr ⟨?_, ?_⟩
  · intro e he
    rw [mem_singleton.mp he]
    refine ⟨1000, 1002, 1, 1, ⟨by norm_num, by norm_num, ?_, ?_, ?_, ?_⟩⟩
    all_goals
      norm_num [late, answered, Timeval.Reads, Reads, Timeval.seconds, ntpTimeBase]
  · norm_num [Timeval.Reads, Timeval.seconds]
  · intro e he
    rw [mem_singleton.mp he]
    unfold Exchange.Near Near
    decide
  · unfold Dated
    decide

/-- When the server is half a second past the end of the era and the client a second before it, the clock
is set to 1900; and so it is some seconds later, when both are past it, by a right offset. -/
theorem clock_set_back :
    (answered ⟨2085978495, 0, by decide⟩ (2 ^ 64 + 2 ^ 31) ⟨2085978495, 0, by decide⟩).processed =
        .set ⟨-2208988800, 500000, by decide⟩ (-maxTsDiff) ∧
      (answered ⟨2085978500, 0, by decide⟩ (2 ^ 64 + 5 * 2 ^ 32) ⟨2085978500, 0, by decide⟩).offset =
        2 ^ 32 ∧
      localSynchronize [answered ⟨2085978500, 0, by decide⟩ (2 ^ 64 + 5 * 2 ^ 32)
        ⟨2085978500, 0, by decide⟩] ⟨2085978500, 0, by decide⟩ =
        some ⟨-2208988795, 0, by decide⟩ := by
  decide

end Mihini.Ntp
