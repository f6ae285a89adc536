import Mathlib.Data.List.GetD
import Mathlib.Data.Nat.Bitwise

/-!
# Octet strings as streams of bits

The bits of an octet string counted from the low bit of its first octet, and the octets of
a given stream.
-/

namespace Mihini.Lib

open List

def bitAt (l : List Nat) (n : Nat) : Bool := (l.getD (n / 8) 0).testBit (n % 8)

/-- The `m` octets that hold the bits of `f` from bit `8 * start` on. -/
def octetsOf (f : Nat → Bool) (start m : Nat) : List Nat :=
  (List.range m).map fun j => Nat.ofBits fun i : Fin 8 => f (8 * (start + j) + i)

theorem length_octetsOf (f : Nat → Bool) (start m : Nat) : (octetsOf f start m).length = m := by
  rw [octetsOf, length_map, length_range]

theorem octetsOf_lt {f : Nat → Bool} {start m : Nat} {b : Nat} (hb : b ∈ octetsOf f start m) :
    b < 256 := by
  obtain ⟨j, -, rfl⟩ := mem_map.mp hb
  exact Nat.ofBits_lt_two_pow _

theorem bitAt_octetsOf {f : Nat → Bool} {l : List Nat} {m n : Nat} (rest : List Nat)
    (hle : 8 * l.length ≤ n) (hlt : n < 8 * (l.length + m)) :
    bitAt (l ++ (octetsOf f l.length m ++ rest)) n = f n := by
  have hj : n / 8 - l.length < (octetsOf f l.length m).length := by
    rw [length_octetsOf]
    omega
  rw [bitAt, getD_append_right _ _ _ _ (by omega), getD_append _ _ _ _ hj,
    getD_eq_getElem _ _ hj]
  simp only [octetsOf, getElem_map, getElem_range]
  rw [Nat.testBit_ofBits_lt _ _ (by omega)]
  congr 1
  simp only
  omega

end Mihini.Lib
