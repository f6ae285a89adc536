import Mathlib.Data.List.Perm.Basic

/-!
# Checks that may fail

`Except` programs that are sequences of assertions, and the orders in which the entries of a
table may be traversed.
-/

namespace Mihini.Lib

variable {α β ε : Type}

/-- An order in which `pairs` may give the entries of a table. -/
structure Order where
  pairs : {α : Type} → List α → List α
  perm : ∀ {α : Type} (l : List α), (pairs l).Perm l

theorem Order.mem (o : Order) {l : List α} {x : α} : x ∈ o.pairs l ↔ x ∈ l := (o.perm l).mem_iff

namespace Checks

/-- `assert(condition, text)` -/
def require (condition : Bool) (e : ε) : Except ε Unit :=
  if condition then .ok () else .error e

@[simp] theorem require_ok {condition : Bool} {e : ε} :
    require condition e = .ok () ↔ condition = true := by
  cases condition <;> simp [require]

theorem bind_ok_iff {x : Except ε α} {f : α → Except ε β} {b : β} :
    (x >>= f) = .ok b ↔ ∃ a, x = .ok a ∧ f a = .ok b := by
  cases x <;> simp [bind, Except.bind]

theorem forM_ok {f : α → Except ε Unit} {l : List α} :
    l.forM f = .ok () ↔ ∀ x ∈ l, f x = .ok () := by
  induction l with
  | nil => exact ⟨fun _ _ hx => absurd hx List.not_mem_nil, fun _ => rfl⟩
  | cons x l ih =>
    show (f x >>= fun _ => l.forM f) = _ ↔ _
    rw [bind_ok_iff, List.forall_mem_cons]
    constructor
    · intro h
      obtain ⟨⟨⟩, hx, hl⟩ := h
      exact ⟨hx, ih.mp hl⟩
    · intro h
      exact ⟨(), h.1, ih.mpr h.2⟩

end Checks

end Mihini.Lib
