import Mathlib.Data.Nat.Notation

/-!
# Loops that use something up

A loop whose turns either go on with less, or end it with a result.
-/

namespace Mihini.Lib

variable {σ ρ : Type}

/-- At most `n` turns. -/
def loopFor (turn : σ → σ ⊕ ρ) : Nat → σ → Option ρ
  | 0, _ => none
  | n + 1, s =>
    match turn s with
    | .inl s' => loopFor turn n s'
    | .inr r => some r

def loop (size : σ → Nat) (turn : σ → σ ⊕ ρ) (s : σ) : Option ρ := loopFor turn (size s + 1) s

/-- A loop ends with what is true of the result of its last turn, and goes back from each turn to the
turn before. -/
theorem loop_rule {ι : Type} (size : σ → Nat) (turn : σ → σ ⊕ ρ) {I : ι → σ → Prop}
    {Q : ι → σ → ρ → Prop}
    (hturn : ∀ i s, I i s →
      (∃ s' j, turn s = .inl s' ∧ size s' < size s ∧ I j s' ∧ ∀ r, Q j s' r → Q i s r) ∨
        ∃ r, turn s = .inr r ∧ Q i s r)
    {i : ι} {s : σ} (h : I i s) : ∃ r, loop size turn s = some r ∧ Q i s r := by
  suffices hfor : ∀ n i s, size s < n → I i s → ∃ r, loopFor turn n s = some r ∧ Q i s r from
    hfor _ i s (Nat.lt_succ_self _) h
  intro n
  induction n with
  | zero => exact fun _ _ hlt => absurd hlt (Nat.not_lt_zero _)
  | succ n ih =>
    intro i s hlt hs
    rw [loopFor]
    rcases hturn i s hs with ⟨s', j, heq, hless, hs', hback⟩ | ⟨r, heq, hr⟩
    · obtain ⟨r, hloop, hr⟩ := ih j s' (by omega) hs'
      rw [heq]
      exact ⟨r, hloop, hback r hr⟩
    · rw [heq]
      exact ⟨r, rfl, hr⟩

end Mihini.Lib
