import Mathlib.Data.Vector.Defs
import Mathlib.Data.List.Basic
import Mathlib.Data.List.GetD
import Mathlib.Data.Nat.Basic

/-!
# Cipher block chaining

Strings cut into blocks, and a block cipher chained over them.
-/

namespace Mihini.Lib

open List hiding Vector

variable {α β : Type}

/-! ## Blocks -/

namespace Blocks

variable {n : Nat}

/-- The blocks of a string.  The last one is filled up with what `pad` gives for the places after
the end. -/
def cut (n : Nat) (pad : Nat → α) (m : List α) : List (Vector α n) :=
  (List.range ((m.length + n - 1) / n)).map fun k =>
    Vector.ofFn fun i => m.getD (n * k + i) (pad (n * k + i - m.length))

def join (blocks : List (Vector α n)) : List α := blocks.flatMap Vector.toList

theorem join_append (a b : List (Vector α n)) : join (a ++ b) = join a ++ join b :=
  flatMap_append

theorem length_join (blocks : List (Vector α n)) : (join blocks).length = n * blocks.length := by
  induction blocks with
  | nil => rfl
  | cons v blocks ih =>
    rw [length_cons, Nat.mul_succ, ← ih]
    show (v.toList ++ join blocks).length = _
    rw [length_append, Vector.length_toList, Nat.add_comm]

variable (pad : Nat → α)

theorem cut_cons (hn : 0 < n) (v : Vector α n) (m : List α) :
    cut n pad (v.toList ++ m) = v :: cut n pad m := by
  have hlen : (v.toList ++ m).length = n + m.length := by
    rw [length_append, Vector.length_toList]
  have hcount : (n + m.length + n - 1) / n = (m.length + n - 1) / n + 1 := by
    rw [← Nat.add_div_right _ hn]
    congr 1
    omega
  unfold cut
  rw [hlen, hcount, range_succ_eq_map, map_cons, map_map]
  congr 1
  · ext i hi
    rw [Vector.getElem_ofFn, Nat.mul_zero, Nat.zero_add, getD_append _ _ _ _ (by simpa using hi),
      getD_eq_getElem _ _ (by simpa using hi), Vector.getElem_toList]
  · apply map_congr_left
    intro k _
    ext i hi
    have hright : v.toList.length ≤ n * (k + 1) + i := by
      rw [Vector.length_toList, Nat.mul_succ]
      omega
    have hplace : n * (k + 1) + i - v.toList.length = n * k + i := by
      rw [Vector.length_toList, Nat.mul_succ]
      omega
    have hpad : n * (k + 1) + i - (n + m.length) = n * k + i - m.length := by
      rw [Nat.mul_succ]
      omega
    show (Vector.ofFn _)[i] = (Vector.ofFn _)[i]
    rw [Vector.getElem_ofFn, Vector.getElem_ofFn, Nat.succ_eq_add_one,
      getD_append_right _ _ _ _ hright, hplace, hpad]

theorem cut_append (hn : 0 < n) (blocks : List (Vector α n)) (m : List α) :
    cut n pad (join blocks ++ m) = blocks ++ cut n pad m := by
  induction blocks with
  | nil => rfl
  | cons v blocks ih =>
    show cut n pad ((v.toList ++ join blocks) ++ m) = _
    rw [append_assoc, cut_cons pad hn, ih]
    rfl

theorem cut_join (hn : 0 < n) (blocks : List (Vector α n)) : cut n pad (join blocks) = blocks := by
  have h := cut_append pad hn blocks []
  rw [append_nil] at h
  rw [h]
  show blocks ++ List.map _ (List.range ((0 + n - 1) / n)) = blocks
  rw [Nat.div_eq_of_lt (by omega)]
  exact append_nil blocks

theorem exists_join {m : List α} (h : n ∣ m.length) : ∃ blocks : List (Vector α n), m = join blocks := by
  obtain ⟨q, hq⟩ := h
  induction q generalizing m with
  | zero =>
    rw [eq_nil_of_length_eq_zero hq]
    exact ⟨[], rfl⟩
  | succ q ih =>
    rw [Nat.mul_succ] at hq
    obtain ⟨blocks, hblocks⟩ := ih (m := m.drop n) (by rw [length_drop]; omega)
    refine ⟨⟨(m.take n).toArray, by simp; omega⟩ :: blocks, ?_⟩
    show m = m.take n ++ join blocks
    rw [← hblocks, take_append_drop]

end Blocks

/-! ## Chaining -/

structure BlockCipher (β : Type) where
  encrypt : β → β
  decrypt : β → β
  combine : β → β → β
  decrypt_encrypt : ∀ b, decrypt (encrypt b) = b
  combine_combine : ∀ a b, combine (combine a b) b = a

namespace BlockCipher

variable (c : BlockCipher β)

def chain (iv : β) : List β → List β
  | [] => []
  | b :: bs => c.encrypt (c.combine b iv) :: chain (c.encrypt (c.combine b iv)) bs

def next (iv : β) : List β → β
  | [] => iv
  | b :: bs => next (c.encrypt (c.combine b iv)) bs

def unchain (iv : β) : List β → List β
  | [] => []
  | b :: bs => c.combine (c.decrypt b) iv :: unchain b bs

theorem chain_append (iv : β) (a b : List β) :
    c.chain iv (a ++ b) = c.chain iv a ++ c.chain (c.next iv a) b := by
  induction a generalizing iv with
  | nil => rfl
  | cons x a ih =>
    rw [cons_append, chain, ih]
    rfl

@[simp] theorem length_chain (iv : β) (a : List β) : (c.chain iv a).length = a.length := by
  induction a generalizing iv with
  | nil => rfl
  | cons x a ih => rw [chain, length_cons, ih, length_cons]

theorem unchain_chain (iv : β) (a : List β) : c.unchain iv (c.chain iv a) = a := by
  induction a generalizing iv with
  | nil => rfl
  | cons x a ih => rw [chain, unchain, c.decrypt_encrypt, c.combine_combine, ih]

end BlockCipher

end Mihini.Lib
