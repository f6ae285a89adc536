/-!
# Binary search as the C library does it

`bsearch` halves an index interval and asks a comparison function where the key
lies.  Nothing here assumes that the array is sorted or that the comparison is
an order: the search is a deterministic function of the comparisons it makes,
and that is all two arrays searched in lock step need.
-/

namespace Lib

variable {α β : Type}

/-- One search of `xs[l, u)`.  The outer `none` is a probe outside the array and
the inner one is an absent key.  `fuel` bounds the number of halvings. -/
def bsearchFrom (cmp : α → Int) (xs : List α) : Nat → Nat → Nat → Option (Option Nat)
  | 0, _, _ => some none
  | fuel + 1, l, u =>
    if l < u then
      let idx := (l + u) / 2
      match xs[idx]? with
      | none => none
      | some x =>
        if cmp x < 0 then bsearchFrom cmp xs fuel l idx
        else if 0 < cmp x then bsearchFrom cmp xs fuel (idx + 1) u
        else some (some idx)
    else some none

/-- The index `bsearch` finds among the first `n` entries of `xs`. -/
def bsearch (cmp : α → Int) (xs : List α) (n : Nat) : Option (Option Nat) :=
  bsearchFrom cmp xs n 0 n

variable {cmp : α → Int} {xs : List α}

theorem bsearchFrom_congr {cmp' : β → Int} {ys : List β}
    (h : ∀ i : Nat, xs[i]?.map cmp = ys[i]?.map cmp') (fuel l u : Nat) :
    bsearchFrom cmp xs fuel l u = bsearchFrom cmp' ys fuel l u := by
  induction fuel generalizing l u with
  | zero => rfl
  | succ fuel ih =>
    have hi := h ((l + u) / 2)
    unfold bsearchFrom
    by_cases hlu : l < u
    · simp only [hlu, if_true]
      cases hx : xs[(l + u) / 2]? with
      | none =>
        rw [hx] at hi
        cases hy : ys[(l + u) / 2]? with
        | none => rfl
        | some y => rw [hy] at hi; cases hi
      | some x =>
        rw [hx] at hi
        cases hy : ys[(l + u) / 2]? with
        | none => rw [hy] at hi; cases hi
        | some y =>
          rw [hy] at hi
          have hc : cmp x = cmp' y := by simpa using hi
          simp only [hc, ih]
    · simp only [hlu, if_false]

theorem bsearch_congr {cmp' : β → Int} {ys : List β}
    (h : ∀ i : Nat, xs[i]?.map cmp = ys[i]?.map cmp') (n : Nat) :
    bsearch cmp xs n = bsearch cmp' ys n :=
  bsearchFrom_congr h n 0 n

theorem bsearchFrom_found {fuel l u i : Nat}
    (h : bsearchFrom cmp xs fuel l u = some (some i)) :
    ∃ x, xs[i]? = some x ∧ cmp x = 0 := by
  induction fuel generalizing l u with
  | zero => cases h
  | succ fuel ih =>
    unfold bsearchFrom at h
    by_cases hlu : l < u
    · simp only [hlu, if_true] at h
      cases hx : xs[(l + u) / 2]? with
      | none => rw [hx] at h; cases h
      | some x =>
        simp only [hx] at h
        by_cases hneg : cmp x < 0
        · rw [if_pos hneg] at h; exact ih h
        rw [if_neg hneg] at h
        by_cases hpos : 0 < cmp x
        · rw [if_pos hpos] at h; exact ih h
        · rw [if_neg hpos] at h
          simp only [Option.some.injEq] at h
          subst h
          exact ⟨x, hx, by omega⟩
    · rw [if_neg hlu] at h; cases h

theorem bsearch_found {n i : Nat}
    (h : bsearch cmp xs n = some (some i)) : ∃ x, xs[i]? = some x ∧ cmp x = 0 :=
  bsearchFrom_found h

/-- The search of an array on which the comparison falls misses nothing. -/
theorem bsearchFrom_absent
    (hsorted : xs.Pairwise fun a b => cmp a ≤ 0 → cmp b < 0) {fuel l u : Nat} (hfuel : u ≤ l + fuel)
    (hu : u ≤ xs.length) (hl : ∀ i (h : i < xs.length), i < l → 0 < cmp xs[i])
    (hr : ∀ i (h : i < xs.length), u ≤ i → cmp xs[i] < 0) :
    ∃ found, bsearchFrom cmp xs fuel l u = some found ∧ (found = none → ∀ x ∈ xs, cmp x ≠ 0) := by
  have hdone : ∀ l u, u ≤ l → (∀ i (h : i < xs.length), i < l → 0 < cmp xs[i]) →
      (∀ i (h : i < xs.length), u ≤ i → cmp xs[i] < 0) → ∀ x ∈ xs, cmp x ≠ 0 := by
    intro l u hle hl hr x hx
    obtain ⟨i, hi, rfl⟩ := List.mem_iff_getElem.mp hx
    by_cases hil : i < l
    · have := hl i hi hil
      omega
    · have := hr i hi (by omega)
      omega
  rw [List.pairwise_iff_getElem] at hsorted
  induction fuel generalizing l u with
  | zero => exact ⟨none, rfl, fun _ => hdone l u hfuel hl hr⟩
  | succ fuel ih =>
    unfold bsearchFrom
    by_cases hlu : l < u
    · have hidx : (l + u) / 2 < xs.length := by omega
      simp only [if_pos hlu, List.getElem?_eq_getElem hidx]
      by_cases hneg : cmp xs[(l + u) / 2] < 0
      · rw [if_pos hneg]
        have hr' : ∀ i (h : i < xs.length), (l + u) / 2 ≤ i → cmp xs[i] < 0 := by
          intro i hi hle
          rcases Nat.lt_or_eq_of_le hle with hlt | rfl
          · exact hsorted _ i hidx hi hlt (Int.le_of_lt hneg)
          · exact hneg
        exact ih (by omega) (by omega) hl hr'
      · rw [if_neg hneg]
        by_cases hpos : 0 < cmp xs[(l + u) / 2]
        · rw [if_pos hpos]
          have hl' : ∀ i (h : i < xs.length), i < (l + u) / 2 + 1 → 0 < cmp xs[i] := by
            intro i hi hlt
            rcases Nat.lt_or_eq_of_le (Nat.le_of_lt_succ hlt) with hlt' | rfl
            · have := hsorted i _ hi hidx hlt'
              omega
            · exact hpos
          exact ih (by omega) hu hl' hr
        · rw [if_neg hpos]
          exact ⟨_, rfl, nofun⟩
    · rw [if_neg hlu]
      exact ⟨none, rfl, fun _ => hdone l u (by omega) hl hr⟩

end Lib
