import Mathlib.Data.List.Basic
import Mathlib.Logic.Function.Iterate

/-!
# Reflected cyclic redundancy checks

The shift register of a reflected CRC, its linearity, and what a table of the remainders of
the 256 bytes is good for: eight shifts are one shift by a byte and one entry.
-/

namespace Mihini.Lib.Crc

variable {w n : Nat} (poly : BitVec w)

def shift (c : BitVec w) : BitVec w := if c.getLsbD 0 then (c >>> 1) ^^^ poly else c >>> 1

def shifts : Nat → BitVec w → BitVec w
  | 0, c => c
  | k + 1, c => shift poly (shifts k c)

def update (c : BitVec w) (b : BitVec 8) : BitVec w := shifts poly 8 (c ^^^ b.setWidth w)

theorem shift_xor (a b : BitVec w) : shift poly (a ^^^ b) = shift poly a ^^^ shift poly b := by
  rw [shift, shift, shift, BitVec.getLsbD_xor, BitVec.ushiftRight_xor_distrib]
  cases a.getLsbD 0 <;> cases b.getLsbD 0 <;>
    simp only [Bool.xor_false, Bool.xor_true, Bool.not_false, Bool.not_true, reduceIte,
      Bool.false_eq_true]
  · exact BitVec.xor_assoc _ _ _
  · rw [BitVec.xor_assoc, BitVec.xor_comm (b >>> 1), ← BitVec.xor_assoc]
  · rw [BitVec.xor_comm (b >>> 1), BitVec.xor_assoc, ← BitVec.xor_assoc poly, BitVec.xor_self,
      BitVec.zero_xor]

theorem shifts_xor (k : Nat) (a b : BitVec w) :
    shifts poly k (a ^^^ b) = shifts poly k a ^^^ shifts poly k b := by
  induction k with
  | zero => rfl
  | succ k ih => rw [shifts, ih, shift_xor, shifts, shifts]

theorem shifts_zero (k : Nat) : shifts poly k 0#w = 0#w := by
  rw [← BitVec.xor_self (x := 0#w), shifts_xor, BitVec.xor_self, BitVec.xor_self]

theorem toNat_shift (c : BitVec w) :
    (shift poly c).toNat = c.toNat / 2 ^^^ c.toNat % 2 * poly.toNat := by
  have hlow : (c >>> 1).toNat = c.toNat / 2 := BitVec.toNat_ushiftRight c 1
  rw [shift, BitVec.getLsbD, Nat.testBit_zero]
  rcases Nat.mod_two_eq_zero_or_one c.toNat with h | h
  · rw [h, if_neg (by decide), hlow, Nat.zero_mul, Nat.xor_zero]
  · rw [h, if_pos (by decide), BitVec.toNat_xor, hlow, Nat.one_mul]

theorem toNat_shifts (k : Nat) (c : BitVec w) : (shifts poly k c).toNat =
    (fun m => m / 2 ^^^ m % 2 * poly.toNat)^[k] c.toNat := by
  induction k with
  | zero => rfl
  | succ k ih => rw [shifts, toNat_shift, ih, Function.iterate_succ_apply']

/-- A register moves down as long as the bits that leave it are clear. -/
theorem shifts_clear {c : BitVec w} {k : Nat} (h : ∀ i < k, c.getLsbD i = false) :
    shifts poly k c = c >>> k := by
  induction k with
  | zero => rw [shifts, BitVec.ushiftRight_zero]
  | succ k ih =>
    have hlow : (c >>> k).getLsbD 0 = false := by
      rw [BitVec.getLsbD_ushiftRight]
      exact h k k.lt_succ_self
    rw [shifts, ih fun i hi => h i (Nat.lt_succ_of_lt hi), shift, hlow, if_neg Bool.false_ne_true,
      BitVec.shiftRight_add]

theorem shifts_append (poly : BitVec (n + 8)) (hi : BitVec n) (lo : BitVec 8) :
    shifts poly 8 (hi ++ lo) = shifts poly 8 (0#n ++ lo) ^^^ hi.setWidth (n + 8) := by
  have hsplit : hi ++ lo = (0#n ++ lo) ^^^ (hi ++ 0#8) := by
    rw [BitVec.xor_append, BitVec.zero_xor, BitVec.xor_zero]
  have hclear : shifts poly 8 (hi ++ 0#8) = (hi ++ 0#8) >>> 8 := by
    refine shifts_clear poly fun i hlt => ?_
    rw [BitVec.getLsbD_append, if_pos hlt, BitVec.getLsbD_zero]
  rw [hsplit, shifts_xor, hclear]
  congr 1
  refine BitVec.eq_of_getLsbD_eq fun i hlt => ?_
  rw [BitVec.getLsbD_ushiftRight, BitVec.getLsbD_append, if_neg (by omega),
    Nat.add_sub_cancel_left, BitVec.getLsbD_setWidth, decide_eq_true hlt, Bool.true_and]

/-- A register leaves nothing behind its own bytes, the low one first. -/
theorem update_residue (poly : BitVec 16) (hi lo : BitVec 8) :
    update poly (update poly (hi ++ lo) lo) hi = 0#16 := by
  have hbyte (b : BitVec 8) : b.setWidth 16 = 0#8 ++ b := BitVec.setWidth_eq_append (by decide)
  have hlow : update poly (hi ++ lo) lo = hi.setWidth 16 := by
    rw [update, hbyte lo, BitVec.xor_append, BitVec.xor_self, BitVec.xor_zero, shifts_append]
    exact (congrArg (· ^^^ _) (shifts_zero poly 8)).trans BitVec.zero_xor
  rw [hlow, update, BitVec.xor_self, shifts_zero]

/-! ## Differences -/

variable {poly}

theorem eq_zero_of_shift (hp : poly.msb = true) {c : BitVec w} (h : shift poly c = 0#w) : c = 0#w := by
  have hlow : c.getLsbD 0 = false := by
    by_contra hset
    rw [shift, if_pos (Bool.not_eq_false _ ▸ hset), BitVec.xor_eq_zero_iff] at h
    rw [← h, BitVec.msb_ushiftRight] at hp
    simp at hp
  rw [shift, hlow, if_neg Bool.false_ne_true] at h
  refine BitVec.eq_of_getLsbD_eq fun i _ => ?_
  cases i with
  | zero => rw [hlow, BitVec.getLsbD_zero]
  | succ i =>
    rw [Nat.add_comm, ← BitVec.getLsbD_ushiftRight, h, BitVec.getLsbD_zero, BitVec.getLsbD_zero]

theorem shifts_inj (hp : poly.msb = true) {k : Nat} {a b : BitVec w} :
    shifts poly k a = shifts poly k b ↔ a = b := by
  refine ⟨fun h => BitVec.xor_eq_zero_iff.mp ?_, fun h => by rw [h]⟩
  replace h : shifts poly k (a ^^^ b) = 0#w := by rw [shifts_xor, h, BitVec.xor_self]
  induction k with
  | zero => exact h
  | succ k ih => exact ih (eq_zero_of_shift hp h)

theorem foldl_update_inj (hp : poly.msb = true) {bytes : List (BitVec 8)} {c c' : BitVec w} :
    bytes.foldl (update poly) c = bytes.foldl (update poly) c' ↔ c = c' := by
  induction bytes generalizing c c' with
  | nil => rfl
  | cons b bytes ih =>
    rw [List.foldl_cons, List.foldl_cons, ih, update, update, shifts_inj hp, BitVec.xor_left_inj]

/-- Two bytes fill the register. -/
theorem update_update (poly c : BitVec 16) (a b : BitVec 8) :
    update poly (update poly c a) b = shifts poly 8 (shifts poly 8 (c ^^^ (b ++ a))) := by
  have hsplit : b ++ a = a.setWidth 16 ^^^ (b ++ 0#8) := by
    rw [show a.setWidth 16 = 0#8 ++ a from BitVec.setWidth_eq_append (by decide), BitVec.xor_append,
      BitVec.zero_xor, BitVec.xor_zero]
  have hzero : shifts poly 8 (0#8 ++ 0#8) = 0#16 := shifts_zero poly 8
  rw [hsplit, ← BitVec.xor_assoc, shifts_xor, shifts_append, update, update, hzero, BitVec.zero_xor]

end Mihini.Lib.Crc
