import Mathlib.Data.List.Basic

/-!
# Lua strings

The positions of `string.sub`, which count from the end when they are negative.
-/

namespace Mihini.Lib.LuaString

variable {α : Type}

def position (length : Nat) (i : Int) : Int :=
  if i < 0 then max (length + i + 1) 0 else i

/-- `s:sub(i, j)` -/
def sub (s : List α) (i j : Int) : List α :=
  (s.take (min (position s.length j) s.length).toNat).drop ((max (position s.length i) 1).toNat - 1)

theorem sub_from (s : List α) (n : Nat) : sub s (n + 1) (-1) = s.drop n := by
  have hfirst : (max (position s.length ((n : Int) + 1)) 1).toNat - 1 = n := by
    unfold position
    omega
  have hlast : (min (position s.length (-1)) s.length).toNat = s.length := by
    unfold position
    omega
  rw [sub, hfirst, hlast, List.take_length]

theorem sub_to (s : List α) {n : Nat} (hn : n ≤ s.length) :
    sub s 1 (-n - 1) = s.take (s.length - n) := by
  have hfirst : (max (position s.length 1) 1).toNat - 1 = 0 := by
    unfold position
    omega
  have hlast : (min (position s.length (-(n : Int) - 1)) s.length).toNat = s.length - n := by
    unfold position
    omega
  rw [sub, hfirst, hlast, List.drop_zero]

/-- The last items; zero is not taken for none of them, since it counts from the start. -/
theorem sub_last (s : List α) {n : Nat} (hn : n ≤ s.length) :
    sub s (-n) (-1) = if n = 0 then s else s.drop (s.length - n) := by
  have hlast : (min (position s.length (-1)) s.length).toNat = s.length := by
    unfold position
    omega
  rw [sub, hlast, List.take_length]
  by_cases h : n = 0
  · have hfirst : (max (position s.length (-(n : Int))) 1).toNat - 1 = 0 := by
      unfold position
      omega
    rw [if_pos h, hfirst, List.drop_zero]
  · have hfirst : (max (position s.length (-(n : Int))) 1).toNat - 1 = s.length - n := by
      unfold position
      omega
    rw [if_neg h, hfirst]

end Mihini.Lib.LuaString
