import Mathlib.Data.List.Basic

/-!
# Lua tables used as arrays

A table with natural keys, the length operator as the borders it may return, and the
library functions that move cells.
-/

namespace Mihini.Lib

variable {α : Type}

def LuaArray (α : Type) := Nat → Option α

namespace LuaArray

def empty : LuaArray α := fun _ => none

def ofList (l : List α) : LuaArray α
  | 0 => none
  | i + 1 => l[i]?

/-- `t[i] = x` -/
def set (t : LuaArray α) (i : Nat) (x : α) : LuaArray α := fun j =>
  if j = i then some x else t j

/-- The values `#t` may have: with holes there are several of them. -/
def IsBorder (t : LuaArray α) (n : Nat) : Prop :=
  (n = 0 ∨ (t n).isSome) ∧ t (n + 1) = none

instance (t : LuaArray α) (n : Nat) : Decidable (t.IsBorder n) :=
  inferInstanceAs (Decidable ((_ ∨ _) ∧ _))

/-- `table.insert(t, 1, x)` when `#t` is `n`. -/
def insertFirst (t : LuaArray α) (n : Nat) (x : α) : LuaArray α := fun i =>
  if i = 1 then some x
  else if 1 < i ∧ i ≤ n + 1 then t (i - 1)
  else t i

/-- `table.insert(t, pos, x)` when `#t` is `n`. -/
def insertAt (t : LuaArray α) (n pos : Nat) (x : α) : LuaArray α := fun i =>
  if i = pos then some x
  else if pos < i ∧ i ≤ n + 1 then t (i - 1)
  else t i

/-- `table.remove(t, 1)` when `#t` is `n`. -/
def removeFirst (t : LuaArray α) (n : Nat) : LuaArray α := fun i =>
  if 1 ≤ i ∧ i < n then t (i + 1)
  else if i = n then none
  else t i

/-- The cells `skip + 1, ..., last` moved to `1, ..., last - skip` of a new table. -/
def window (t : LuaArray α) (skip last : Nat) : LuaArray α := fun i =>
  if 0 < i ∧ i + skip ≤ last then t (i + skip) else none

theorem empty_eq_ofList : (empty : LuaArray α) = ofList [] := by
  funext i
  cases i <;> rfl

theorem ofList_succ (l : List α) (i : Nat) : ofList l (i + 1) = l[i]? := rfl

theorem isBorder_ofList {l : List α} {n : Nat} (h : IsBorder (ofList l) n) : n = l.length := by
  obtain ⟨hlast, hnext⟩ := h
  rw [ofList_succ, List.getElem?_eq_none_iff] at hnext
  rcases hlast with rfl | hlast
  · omega
  · cases n with
    | zero => omega
    | succ n =>
      have : n < l.length := by simpa [ofList_succ] using hlast
      omega

theorem set_ofList_end (l : List α) (x : α) :
    set (ofList l) (l.length + 1) x = ofList (l ++ [x]) := by
  funext i
  cases i with
  | zero => rfl
  | succ i =>
    by_cases hi : i = l.length
    · subst hi
      simp [set, ofList_succ]
    · rw [set, if_neg (by omega), ofList_succ, ofList_succ, List.getElem?_append]
      split
      · rfl
      · rw [List.getElem?_eq_none (by omega), List.getElem?_eq_none (by simp; omega)]

theorem set_ofList (l : List α) {i : Nat} (hi : i < l.length) (x : α) :
    set (ofList l) (i + 1) x = ofList (l.set i x) := by
  funext j
  cases j with
  | zero => rfl
  | succ j =>
    by_cases hj : j = i
    · subst hj
      simp [set, ofList_succ, hi]
    · rw [set, if_neg (by omega), ofList_succ, ofList_succ,
        List.getElem?_set_ne (Ne.symm hj)]

theorem insertFirst_ofList (l : List α) (x : α) :
    insertFirst (ofList l) l.length x = ofList (x :: l) := by
  funext i
  match i with
  | 0 => rfl
  | 1 => rfl
  | i + 2 =>
    rw [insertFirst, if_neg (by omega)]
    split
    · rfl
    · rw [ofList_succ, ofList_succ, List.getElem?_cons_succ,
        List.getElem?_eq_none (by omega), List.getElem?_eq_none (by omega)]

theorem insertAt_ofList (l : List α) {p : Nat} (hp : p ≤ l.length) (x : α) :
    insertAt (ofList l) l.length (p + 1) x = ofList (l.insertIdx p x) := by
  funext i
  cases i with
  | zero =>
    rw [insertAt, if_neg (by omega), if_neg (by omega)]
    rfl
  | succ i =>
    rw [ofList_succ (l.insertIdx p x), List.getElem?_insertIdx, insertAt]
    rcases Nat.lt_trichotomy i p with hlt | heq | hgt
    · rw [if_neg (by omega), if_neg (by omega), if_pos hlt]
      rfl
    · rw [if_pos (by omega), if_neg (by omega), if_pos heq, if_pos (by omega)]
    · rw [if_neg (show ¬ i + 1 = p + 1 by omega), if_neg (show ¬ i < p by omega),
        if_neg (show ¬ i = p by omega)]
      obtain ⟨j, rfl⟩ : ∃ j, i = j + 1 := ⟨i - 1, by omega⟩
      split
      · rfl
      · rw [ofList_succ, List.getElem?_eq_none (by omega), Nat.add_sub_cancel,
          List.getElem?_eq_none (by omega)]

theorem removeFirst_ofList (x : α) (l : List α) :
    removeFirst (ofList (x :: l)) (x :: l).length = ofList l := by
  funext i
  cases i with
  | zero =>
    rw [removeFirst, if_neg (by omega)]
    split
    · rfl
    · rfl
  | succ i =>
    rw [ofList_succ l, removeFirst, List.length_cons]
    by_cases hi : i < l.length
    · rw [if_pos (by omega), ofList_succ, List.getElem?_cons_succ]
    have hnone : l[i]? = none := List.getElem?_eq_none (by omega)
    rw [if_neg (by omega), hnone]
    by_cases heq : i = l.length
    · rw [if_pos (by omega)]
    · rw [if_neg (by omega), ofList_succ]
      exact List.getElem?_eq_none (by simp; omega)

theorem window_ofList (l : List α) (skip : Nat) :
    window (ofList l) skip l.length = ofList (l.drop skip) := by
  funext i
  cases i with
  | zero => simp [window, ofList]
  | succ i =>
    rw [window, ofList_succ, List.getElem?_drop]
    split
    · rw [show i + 1 + skip = skip + i + 1 by omega, ofList_succ]
    · rw [List.getElem?_eq_none (by omega)]

end LuaArray

end Mihini.Lib
