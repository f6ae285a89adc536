import Mathlib.Data.List.Basic

/-!
# Numerals

Numbers written in a base up to 16, in upper case, and read in either case.
-/

namespace Mihini.Lib

def digitValue (c : Char) : Option Nat := "0123456789ABCDEF".toList.idxOf? c.toUpper

def digitIn (b : Nat) (c : Char) : Option Nat := (digitValue c).filter (· < b)

def ofNumeral (b : Nat) (s : List Char) : Option Nat :=
  if s = [] then none else s.foldlM (fun n c => (digitIn b c).map (b * n + ·)) 0

def toNumeral (b n : Nat) : List Char := (Nat.toDigits b n).map Char.toUpper

theorem digitValue_digitChar : ∀ d < 16, digitValue (Nat.digitChar d).toUpper = some d := by decide

theorem digitIn_digitChar {b d : Nat} (hb : b ≤ 16) (hd : d < b) :
    digitIn b (Nat.digitChar d).toUpper = some d := by
  rw [digitIn, digitValue_digitChar d (Nat.lt_of_lt_of_le hd hb)]
  exact Option.filter_some_pos (decide_eq_true hd)

theorem toNumeral_ne_nil (b n : Nat) : toNumeral b n ≠ [] :=
  fun h => Nat.toDigits_ne_nil (List.map_eq_nil_iff.mp h)

theorem ofNumeral_toNumeral {b : Nat} (hb : 1 < b) (hb' : b ≤ 16) (n : Nat) :
    ofNumeral b (toNumeral b n) = some n := by
  rw [ofNumeral, if_neg (toNumeral_ne_nil b n), toNumeral]
  induction n using Nat.strongRecOn with
  | ind n ih =>
    by_cases hlt : n < b
    · rw [Nat.toDigits_of_lt_base hlt]
      show (digitIn b (Nat.digitChar n).toUpper).map (b * 0 + ·) >>= pure = _
      rw [digitIn_digitChar hb' hlt, Nat.mul_zero]
      show some (0 + n) = some n
      rw [Nat.zero_add]
    · have hle : b ≤ n := Nat.not_lt.mp hlt
      have hrest := ih (n / b) (Nat.div_lt_self (by omega) hb)
      have hmod : n % b < b := Nat.mod_lt n (by omega)
      rw [Nat.toDigits_of_base_le hb hle, List.map_append, List.foldlM_append, hrest]
      show (digitIn b (Nat.digitChar (n % b)).toUpper).map (b * (n / b) + ·) >>= pure = _
      rw [digitIn_digitChar hb' hmod]
      exact congrArg some (Nat.div_add_mod n b)

theorem isSome_digitIn_of_mem {b n : Nat} {s : List Char} (h : ofNumeral b s = some n) {c : Char}
    (hc : c ∈ s) : (digitIn b c).isSome = true := by
  rw [ofNumeral, if_neg (List.ne_nil_of_mem hc)] at h
  generalize 0 = acc at h
  induction s generalizing acc with
  | nil => cases hc
  | cons d s ih =>
    rw [List.foldlM_cons] at h
    cases hd : digitIn b d with
    | none =>
      rw [hd] at h
      cases h
    | some v =>
      rw [hd] at h
      cases hc with
      | head => rw [hd]; rfl
      | tail _ hc => exact ih hc _ h

theorem ofNumeral_of_mem {b : Nat} {s : List Char} {c : Char} (hc : c ∈ s)
    (hdigit : digitValue c = none) : ofNumeral b s = none := by
  cases h : ofNumeral b s with
  | none => rfl
  | some n =>
    have hsome := isSome_digitIn_of_mem h hc
    rw [digitIn, hdigit] at hsome
    cases hsome

theorem not_mem_toNumeral {b : Nat} (hb : 1 < b) (hb' : b ≤ 16) (n : Nat) {c : Char}
    (hdigit : digitValue c = none) : c ∉ toNumeral b n := by
  intro hc
  have hread := ofNumeral_toNumeral hb hb' n
  rw [ofNumeral_of_mem hc hdigit] at hread
  cases hread

end Mihini.Lib
