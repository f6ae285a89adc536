import Mathlib.Tactic.Ring
import Mathlib.Tactic.Positivity

/-!
# Big-endian bytes

The byte a C program gets when it masks an integer to eight bits, the big-endian
byte strings built from it, and the unsigned and two's complement readings back.
Integers are unbounded here, so one statement serves every word width.
-/

namespace Lib.Bytes

/-- The low eight bits of an integer, as a conversion to `uint8_t` keeps them. -/
def byte (x : Int) : UInt8 := UInt8.ofNat (x % 256).toNat

theorem byte_toNat (x : Int) : ((byte x).toNat : Int) = x % 256 := by
  have h0 : 0 ≤ x % 256 := Int.emod_nonneg x (by omega)
  have h1 : x % 256 < 256 := Int.emod_lt_of_pos x (by omega)
  rw [byte, UInt8.toNat_ofNat']
  omega

theorem byte_toNat_of_lt {x : Int} (h0 : 0 ≤ x) (h1 : x < 256) :
    ((byte x).toNat : Int) = x := by
  rw [byte_toNat, Int.emod_eq_of_lt h0 h1]

theorem byte_natCast (b : UInt8) : byte (b.toNat : Int) = b := by
  have hb := b.toNat_lt
  have h : (((b.toNat : Int) % 256).toNat) = b.toNat := by omega
  rw [byte, h, UInt8.ofNat_toNat]

/-- The `n` low bytes of `x`, most significant first.  Division rounds down, so
a negative `x` contributes its two's complement bytes. -/
def beBytes : Nat → Int → List UInt8
  | 0, _ => []
  | n + 1, x => byte (x / 256 ^ n) :: beBytes n x

def beValue (l : List UInt8) : Int :=
  l.foldl (fun acc b => acc * 256 + b.toNat) 0

theorem beBytes_length (n : Nat) (x : Int) : (beBytes n x).length = n := by
  induction n with
  | zero => rfl
  | succ n ih => rw [beBytes, List.length_cons, ih]

theorem emod_mul_eq {a b : Int} (ha : 0 < a) (hb : 0 < b) (x : Int) :
    x % (a * b) = x % a + a * (x / a % b) := by
  have hlow := Int.emod_nonneg x (by omega : a ≠ 0)
  have hlow' := Int.emod_lt_of_pos x ha
  have hdig := Int.emod_nonneg (x / a) (by omega : b ≠ 0)
  have hdig' : x / a % b ≤ b - 1 := by have := Int.emod_lt_of_pos (x / a) hb; omega
  have hx : x = x % a + a * (x / a % b) + a * b * (x / a / b) := by
    have h1 := Int.emod_add_mul_ediv x a
    have h2 := Int.emod_add_mul_ediv (x / a) b
    calc x = x % a + a * (x / a) := h1.symm
      _ = x % a + a * (x / a % b + b * (x / a / b)) := by rw [h2]
      _ = x % a + a * (x / a % b) + a * b * (x / a / b) := by ring
  have hprod : a * (x / a % b) ≤ a * (b - 1) := Int.mul_le_mul_of_nonneg_left hdig' ha.le
  have hnn : 0 ≤ a * (x / a % b) := Int.mul_nonneg ha.le hdig
  conv_lhs => rw [hx]
  rw [Int.add_mul_emod_self_left]
  exact Int.emod_eq_of_lt (by omega) (by rw [Int.mul_sub, Int.mul_one] at hprod; omega)

theorem foldl_beBytes (n : Nat) (x acc : Int) :
    (beBytes n x).foldl (fun (acc : Int) b => acc * 256 + b.toNat) acc
      = acc * 256 ^ n + x % 256 ^ n := by
  induction n generalizing acc with
  | zero => simp [beBytes, Int.emod_one]
  | succ n ih =>
    rw [beBytes, List.foldl_cons, ih, byte_toNat]
    have hpow : (256 : Int) ^ (n + 1) = 256 ^ n * 256 := by ring
    rw [hpow, emod_mul_eq (by positivity) (by omega)]
    ring

theorem beValue_beBytes (n : Nat) (x : Int) : beValue (beBytes n x) = x % 256 ^ n := by
  rw [beValue, foldl_beBytes]
  ring

/-- The signed reading of an unsigned word of `2 * half` values. -/
def toSigned (half u : Int) : Int := if u < half then u else u - 2 * half

theorem toSigned_emod {half x : Int} (h0 : -half ≤ x) (h1 : x < half) :
    toSigned half (x % (2 * half)) = x := by
  unfold toSigned
  rcases lt_or_ge x 0 with hx | hx
  · have he : x % (2 * half) = x + 2 * half := by
      rw [← Int.add_mul_emod_self_left x (2 * half) 1, Int.mul_one]
      exact Int.emod_eq_of_lt (by omega) (by omega)
    rw [he, if_neg (by omega)]
    omega
  · rw [Int.emod_eq_of_lt hx (by omega), if_pos h1]

end Lib.Bytes
