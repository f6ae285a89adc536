import Mathlib.Data.Nat.Basic

/-!
# Positions in a ring

The cells of a ring of a given size, counted back from the next one to be written.
-/

namespace Mihini.Lib.Ring

variable {size w k : Nat}

def back (size w k : Nat) : Nat := (w + size - k) % size

def next (size w : Nat) : Nat := (w + 1) % size

theorem next_lt (hsize : 0 < size) : next size w < size := Nat.mod_lt _ hsize

theorem back_eq (hw : w < size) (hpos : 0 < k) (hk : k ≤ size) :
    back size w k = if k ≤ w then w - k else w + size - k := by
  unfold back
  by_cases h : k ≤ w
  · rw [if_pos h, show w + size - k = w - k + size by omega, Nat.add_mod_right,
      Nat.mod_eq_of_lt (by omega)]
  · rw [if_neg h, Nat.mod_eq_of_lt (by omega)]

theorem next_eq (hw : w < size) : next size w = if w + 1 = size then 0 else w + 1 := by
  unfold next
  by_cases h : w + 1 = size
  · rw [if_pos h, h, Nat.mod_self]
  · rw [if_neg h, Nat.mod_eq_of_lt (by omega)]

theorem back_ne (hw : w < size) (hpos : 0 < k) (hk : k < size) : back size w k ≠ w := by
  rw [back_eq hw hpos (by omega)]
  split <;> omega

theorem back_size (hw : w < size) : back size w size = w := by
  rw [back_eq hw (by omega) (Nat.le_refl _), if_neg (by omega), Nat.add_sub_cancel]

theorem back_next_one (hw : w < size) : back size (next size w) 1 = w := by
  rw [back_eq (next_lt (by omega)) (by omega) (by omega), next_eq hw]
  by_cases h : w + 1 = size
  · rw [if_pos h, if_neg (by omega)]
    omega
  · rw [if_neg h, if_pos (by omega), Nat.add_sub_cancel]

theorem back_next (hw : w < size) (hpos : 0 < k) (hk : k < size) :
    back size (next size w) (k + 1) = back size w k := by
  rw [back_eq (next_lt (by omega)) (by omega) (by omega), back_eq hw hpos (by omega), next_eq hw]
  by_cases h : w + 1 = size
  · rw [if_pos h, if_neg (by omega), if_pos (by omega)]
    omega
  · rw [if_neg h]
    split <;> split <;> omega

theorem back_zero (hpos : 0 < k) (hk : k ≤ size) : back size 0 k = size - k := by
  rw [back_eq (by omega) hpos hk, if_neg (by omega), Nat.zero_add]

end Mihini.Lib.Ring
