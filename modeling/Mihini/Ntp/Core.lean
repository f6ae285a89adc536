import Mathlib.Algebra.Order.Group.Unbundled.Int
import Mathlib.Data.BitVec
import Mathlib.Tactic.Ring

/-!
# NTP packets

`src/luafwk/ntp/ntp.c` and `src/luafwk/ntp/ntp_time.c`: timestamps in 64 bits, the offset and the delay
of an exchange, and the tests before them.  Time is counted in units of `2 ^ -32` s from 1900.
-/

namespace Mihini.Ntp

/-! ## Timestamps -/

abbrev Stamp := BitVec 64

structure Timeval where
  sec : Int
  usec : Nat
  usec_lt : usec < 10 ^ 6
  deriving DecidableEq

def ntpTimeBase : Nat := 2208988800

/-- `internal_getntptime`, when the clock of the system is at `tv`.  The division by `1e6` is exact
enough in floating point to be cut like this one. -/
def internalGetntptime (tv : Timeval) : Stamp :=
  BitVec.ofInt 64 (tv.sec + ntpTimeBase) <<< 32 + BitVec.ofNat 64 (tv.usec * 2 ^ 32 / 10 ^ 6)

def internalSetntptime (time : Stamp) : Timeval where
  sec := (time >>> 32 - BitVec.ofNat 64 ntpTimeBase).toInt
  usec := (time.toNat % 2 ^ 32) * 10 ^ 6 / 2 ^ 32
  usec_lt := by omega

/-! ## Packets -/

structure Packet where
  header : UInt8
  stratum : UInt8
  originate : Stamp
  receive : Stamp
  transmit : Stamp
  deriving DecidableEq

/-- `l_buildNTPpacket`, with the timestamps of the packet to respond to. -/
def buildNTPpacket (now : Timeval) (org rec : Stamp) : Packet :=
  ⟨35, 0, org, rec, internalGetntptime now⟩

def maxTsDiff : Int := 1072958400

def tsDiff (t1 t2 : Stamp) : Bool :=
  let tmp := (t1 >>> 32 - t2 >>> 32).toInt
  let tmp := if tmp < 0 then -tmp else tmp
  maxTsDiff ≤ tmp

inductive Processed where
  | ok (offset delay org rec : Stamp)
  | set (tv : Timeval) (offset : Int)
  | insane (message : String)
  deriving DecidableEq

def processpackets (now : Timeval) (pkt1 pkt2 : Packet) : Processed :=
  let t4 := internalGetntptime now
  let t1 := pkt1.transmit
  let t2 := pkt2.receive
  let t3 := pkt2.transmit
  if pkt2.originate ≠ t1 then
    .insane "Originate timestamp in server NTP packet is not equal to T1, packet sanity check failed"
  else if t3 = 0 then .insane "T3 == 0 in server NTP packet, packet sanity check failed"
  else if pkt2.header &&& 0x07 ≠ 0x04 then
    .insane "mode!=4 in server NTP packet, packet sanity check failed"
  else if pkt2.header &&& 0x38 ≠ 0x20 then
    .insane "version!=4 in server NTP packet, packet sanity check failed"
  else if pkt2.stratum = 0 then
    .insane "stratum == 0 in server NTP packet (kiss o death message), packet sanity check failed"
  else if tsDiff t1 t2 || tsDiff t3 t4 then
    .set (internalSetntptime t3) (if t4 < t3 then maxTsDiff else -maxTsDiff)
  else .ok (BitVec.sshiftRight (t2 - t1 + (t3 - t4)) 1) (t4 - t1 - (t3 - t2)) t3 t4

def getbestdelay (delay1 delay2 : Stamp) : Stamp :=
  if delay1.toInt.natAbs < delay2.toInt.natAbs then delay1 else delay2

/-- `l_settime`: the clock at `now` gets the result. -/
def settime (now : Timeval) (off : Stamp) : Timeval :=
  internalSetntptime (internalGetntptime now + off)

/-! ## Exchanges -/

def Timeval.ntp (tv : Timeval) : Int :=
  (tv.sec + ntpTimeBase) * 2 ^ 32 + (tv.usec * 2 ^ 32 / 10 ^ 6 : Nat)

/-- A request and the response of a server, with the times of the server as they are before they are
cut to 64 bits. -/
structure Exchange where
  sent : Timeval
  receive : Int
  transmit : Int
  received : Timeval
  header : UInt8
  stratum : UInt8
  mode : header &&& 0x07 = 0x04
  version : header &&& 0x38 = 0x20
  stratum_ne : stratum ≠ 0

namespace Exchange

def request (e : Exchange) (org rec : Stamp) : Packet := buildNTPpacket e.sent org rec

def response (e : Exchange) : Packet :=
  ⟨e.header, e.stratum, internalGetntptime e.sent, BitVec.ofInt 64 e.receive,
    BitVec.ofInt 64 e.transmit⟩

def processed (e : Exchange) : Processed := processpackets e.received (e.request 0 0) e.response

def delay (e : Exchange) : Int := (e.received.ntp - e.sent.ntp) - (e.transmit - e.receive)

def offset (e : Exchange) : Int :=
  ((e.receive - e.sent.ntp) + (e.transmit - e.received.ntp)) / 2

def Exact (e : Exchange) : Prop :=
  ∃ offset delay org rec, e.processed = .ok offset delay org rec ∧
    offset.toInt = e.offset ∧ delay.toInt = e.delay

end Exchange

/-- Two times are in one era of `2 ^ 32` s, and their seconds less than 34 years apart. -/
def Near (a b : Int) : Prop :=
  a / 2 ^ 64 = b / 2 ^ 64 ∧ (a / 2 ^ 32 - b / 2 ^ 32).natAbs < maxTsDiff

/-- The times of the clocks are near, and the response is not sent at the first instant of an era. -/
def Exchange.Near (e : Exchange) : Prop :=
  Ntp.Near e.sent.ntp e.receive ∧ Ntp.Near e.transmit e.received.ntp ∧ e.transmit % 2 ^ 64 ≠ 0

/-! ## Arithmetic -/

theorem ofInt_sub (a b : Int) : BitVec.ofInt 64 a - BitVec.ofInt 64 b = BitVec.ofInt 64 (a - b) := by
  refine BitVec.eq_of_toInt_eq ?_
  rw [BitVec.toInt_sub, BitVec.toInt_ofInt, BitVec.toInt_ofInt, BitVec.toInt_ofInt]
  simp

theorem internalGetntptime_eq (tv : Timeval) : internalGetntptime tv = BitVec.ofInt 64 tv.ntp := by
  refine BitVec.eq_of_toNat_eq ?_
  rw [internalGetntptime, Timeval.ntp, BitVec.toNat_add, BitVec.toNat_shiftLeft, BitVec.toNat_ofInt,
    BitVec.toNat_ofInt, BitVec.toNat_ofNat, Nat.shiftLeft_eq]
  generalize tv.usec * 2 ^ 32 / 10 ^ 6 = u
  generalize tv.sec + (ntpTimeBase : Int) = x
  omega

theorem toNat_ofInt_shift (a : Int) :
    ((BitVec.ofInt 64 a >>> 32).toNat : Int) = a % 2 ^ 64 / 2 ^ 32 := by
  rw [BitVec.toNat_ushiftRight, BitVec.toNat_ofInt, Nat.shiftRight_eq_div_pow]
  omega

theorem tsDiff_eq_false_iff (a b : Int) :
    tsDiff (BitVec.ofInt 64 a) (BitVec.ofInt 64 b) = false ↔
      (a % 2 ^ 64 / 2 ^ 32 - b % 2 ^ 64 / 2 ^ 32).natAbs < maxTsDiff := by
  have ha := toNat_ofInt_shift a
  have hb := toNat_ofInt_shift b
  have hdiff : (BitVec.ofInt 64 a >>> 32 - BitVec.ofInt 64 b >>> 32).toInt =
      a % 2 ^ 64 / 2 ^ 32 - b % 2 ^ 64 / 2 ^ 32 := by
    rw [BitVec.toInt_sub, BitVec.toInt_eq_toNat_of_lt (by omega), BitVec.toInt_eq_toNat_of_lt (by omega),
      ha, hb]
    exact Int.bmod_eq_of_le (by omega) (by omega)
  unfold tsDiff
  rw [hdiff, decide_eq_false_iff_not]
  split <;> omega

theorem internalSetntptime_ofInt (x : Int) :
    (internalSetntptime (BitVec.ofInt 64 x)).sec = x % 2 ^ 64 / 2 ^ 32 - ntpTimeBase ∧
      ((internalSetntptime (BitVec.ofInt 64 x)).usec : Int) = x % 2 ^ 32 * 10 ^ 6 / 2 ^ 32 := by
  have hsec := toNat_ofInt_shift x
  constructor
  · show (BitVec.ofInt 64 x >>> 32 - BitVec.ofNat 64 ntpTimeBase).toInt = _
    have hbase : (BitVec.ofNat 64 ntpTimeBase).toInt = ntpTimeBase := rfl
    rw [BitVec.toInt_sub, hbase, BitVec.toInt_eq_toNat_of_lt (by omega), hsec]
    unfold ntpTimeBase
    exact Int.bmod_eq_of_le (by omega) (by omega)
  · show (((BitVec.ofInt 64 x).toNat % 2 ^ 32 * 10 ^ 6 / 2 ^ 32 : Nat) : Int) = _
    have hlow : (((BitVec.ofInt 64 x).toNat % 2 ^ 32 : Nat) : Int) = x % 2 ^ 32 := by
      rw [BitVec.toNat_ofInt]
      omega
    rw [Int.natCast_ediv, Int.natCast_mul, hlow]
    rfl

theorem ofInt_eq_zero_iff (a : Int) : BitVec.ofInt 64 a = 0 ↔ a % 2 ^ 64 = 0 := by
  rw [← BitVec.toNat_inj, BitVec.toNat_ofInt]
  show _ = 0 ↔ _
  omega

namespace Exchange

variable (e : Exchange)

theorem processpackets_request (org rec : Stamp) :
    processpackets e.received (e.request org rec) e.response = e.processed := by
  unfold processed processpackets request buildNTPpacket
  dsimp only

theorem processed_eq : e.processed =
    if e.transmit % 2 ^ 64 = 0 then
      .insane "T3 == 0 in server NTP packet, packet sanity check failed"
    else if tsDiff (BitVec.ofInt 64 e.sent.ntp) (BitVec.ofInt 64 e.receive) ||
        tsDiff (BitVec.ofInt 64 e.transmit) (BitVec.ofInt 64 e.received.ntp) then
      .set (internalSetntptime (BitVec.ofInt 64 e.transmit))
        (if BitVec.ofInt 64 e.received.ntp < BitVec.ofInt 64 e.transmit then maxTsDiff else -maxTsDiff)
    else
      .ok (BitVec.sshiftRight (BitVec.ofInt 64
          ((e.receive - e.sent.ntp) + (e.transmit - e.received.ntp))) 1)
        (BitVec.ofInt 64 e.delay) (BitVec.ofInt 64 e.transmit) (BitVec.ofInt 64 e.received.ntp) := by
  have hoffset : BitVec.ofInt 64 e.receive - BitVec.ofInt 64 e.sent.ntp +
      (BitVec.ofInt 64 e.transmit - BitVec.ofInt 64 e.received.ntp) =
      BitVec.ofInt 64 ((e.receive - e.sent.ntp) + (e.transmit - e.received.ntp)) := by
    rw [ofInt_sub, ofInt_sub, BitVec.ofInt_add]
  have hdelay : BitVec.ofInt 64 e.received.ntp - BitVec.ofInt 64 e.sent.ntp -
      (BitVec.ofInt 64 e.transmit - BitVec.ofInt 64 e.receive) = BitVec.ofInt 64 e.delay := by
    rw [ofInt_sub, ofInt_sub, ofInt_sub]
    rfl
  unfold processed processpackets request response buildNTPpacket
  dsimp only
  rw [if_neg (not_not.mpr rfl), if_neg (not_not.mpr e.mode), if_neg (not_not.mpr e.version),
    if_neg e.stratum_ne, internalGetntptime_eq, internalGetntptime_eq, hoffset, hdelay]
  exact if_congr (ofInt_eq_zero_iff e.transmit) rfl rfl

end Exchange

/-- The sum and the difference of two differences of times fit in 64 bits, when each of them passes the
test, exactly when the times are in one era. -/
theorem bmod_iff {a b c d : Int}
    (hab : (a % 2 ^ 64 / 2 ^ 32 - b % 2 ^ 64 / 2 ^ 32).natAbs < maxTsDiff)
    (hcd : (c % 2 ^ 64 / 2 ^ 32 - d % 2 ^ 64 / 2 ^ 32).natAbs < maxTsDiff) :
    ((((b - a) + (c - d)).bmod (2 ^ 64) / 2 = ((b - a) + (c - d)) / 2 ∧
      ((d - a) - (c - b)).bmod (2 ^ 64) = (d - a) - (c - b)) ↔
      a / 2 ^ 64 = b / 2 ^ 64 ∧ c / 2 ^ 64 = d / 2 ^ 64) := by
  unfold maxTsDiff at hab hcd
  constructor
  · intro ⟨hsum, hdiff⟩
    have hexpand := Int.bmod_add_bdiv ((b - a) + (c - d)) (2 ^ 64)
    have hle := Int.le_bmod (x := (d - a) - (c - b)) (m := 2 ^ 64) (by decide)
    have hlt := Int.bmod_lt (x := (d - a) - (c - b)) (m := 2 ^ 64) (by decide)
    rw [hdiff] at hle hlt
    have hzero : ((b - a) + (c - d)).bdiv (2 ^ 64) = 0 := by omega
    have hle' := Int.le_bmod (x := (b - a) + (c - d)) (m := 2 ^ 64) (by decide)
    have hlt' := Int.bmod_lt (x := (b - a) + (c - d)) (m := 2 ^ 64) (by decide)
    omega
  · intro ⟨h, h'⟩
    rw [Int.bmod_eq_of_le (by omega) (by omega), Int.bmod_eq_of_le (by omega) (by omega)]
    exact ⟨rfl, rfl⟩

theorem near_iff {a b : Int} : Near a b ↔ a / 2 ^ 64 = b / 2 ^ 64 ∧
    (a % 2 ^ 64 / 2 ^ 32 - b % 2 ^ 64 / 2 ^ 32).natAbs < maxTsDiff := by
  unfold Near maxTsDiff
  omega

namespace Exchange

variable {e : Exchange}

theorem processed_ok_iff {offset delay org rec : Stamp} :
    e.processed = .ok offset delay org rec ↔
      (e.sent.ntp % 2 ^ 64 / 2 ^ 32 - e.receive % 2 ^ 64 / 2 ^ 32).natAbs < maxTsDiff ∧
      (e.transmit % 2 ^ 64 / 2 ^ 32 - e.received.ntp % 2 ^ 64 / 2 ^ 32).natAbs < maxTsDiff ∧
      e.transmit % 2 ^ 64 ≠ 0 ∧
      offset = BitVec.sshiftRight (BitVec.ofInt 64
        ((e.receive - e.sent.ntp) + (e.transmit - e.received.ntp))) 1 ∧
      delay = BitVec.ofInt 64 e.delay ∧ org = BitVec.ofInt 64 e.transmit ∧
      rec = BitVec.ofInt 64 e.received.ntp := by
  rw [processed_eq, ← tsDiff_eq_false_iff, ← tsDiff_eq_false_iff]
  by_cases hzero : e.transmit % 2 ^ 64 = 0
  · rw [if_pos hzero]
    exact iff_of_false nofun fun h => h.2.2.1 hzero
  rw [if_neg hzero]
  cases hsent : tsDiff (BitVec.ofInt 64 e.sent.ntp) (BitVec.ofInt 64 e.receive) with
  | true => exact iff_of_false nofun fun h => Bool.noConfusion h.1
  | false =>
    cases hreceived : tsDiff (BitVec.ofInt 64 e.transmit) (BitVec.ofInt 64 e.received.ntp) with
    | true => exact iff_of_false nofun fun h => Bool.noConfusion h.2.1
    | false =>
      constructor
      · intro h
        obtain ⟨rfl, rfl, rfl, rfl⟩ := Processed.ok.inj h
        exact ⟨rfl, rfl, hzero, rfl, rfl, rfl, rfl⟩
      · intro ⟨_, _, _, hoffset, hdelay, horg, hrec⟩
        rw [hoffset, hdelay, horg, hrec]
        rfl

theorem toInt_offset (s : Int) :
    (BitVec.sshiftRight (BitVec.ofInt 64 s) 1).toInt = s.bmod (2 ^ 64) / 2 := by
  rw [BitVec.toInt_sshiftRight, BitVec.toInt_ofInt, Int.shiftRight_eq_div_pow]
  rfl

/-- An exchange is exact when the times of the clocks are near, and only then. -/
theorem exact_iff : e.Exact ↔ e.Near := by
  rw [Exact, Exchange.Near, near_iff, near_iff]
  constructor
  · intro ⟨offset, delay, org, rec, hok, hoffset, hdelay⟩
    obtain ⟨hsent, hreceived, hzero, rfl, rfl, -, -⟩ := processed_ok_iff.mp hok
    rw [toInt_offset] at hoffset
    rw [BitVec.toInt_ofInt] at hdelay
    obtain ⟨hera, hera'⟩ := (bmod_iff hsent hreceived).mp ⟨hoffset, hdelay⟩
    exact ⟨⟨hera, hsent⟩, ⟨hera', hreceived⟩, hzero⟩
  · intro ⟨⟨hera, hsent⟩, ⟨hera', hreceived⟩, hzero⟩
    obtain ⟨hoffset, hdelay⟩ := (bmod_iff hsent hreceived).mpr ⟨hera, hera'⟩
    refine ⟨_, _, _, _, processed_ok_iff.mpr ⟨hsent, hreceived, hzero, rfl, rfl, rfl, rfl⟩, ?_, ?_⟩
    · rw [toInt_offset]
      exact hoffset
    · rw [BitVec.toInt_ofInt]
      exact hdelay

theorem Near.lt (h : e.Near) :
    e.offset.natAbs < 2 ^ 62 ∧ e.delay.natAbs < 2 ^ 63 := by
  obtain ⟨⟨_, hsent⟩, ⟨_, hreceived⟩, _⟩ := h
  unfold offset delay
  unfold maxTsDiff at hsent hreceived
  omega

end Exchange

end Mihini.Ntp
