import Mathlib.Logic.Relation

/-!
# Runs of a transition function

The states a transition function reaches when every event meets a condition on the
state it happens in.
-/

namespace Mihini.Lib

variable {σ ε : Type} {step : σ → ε → σ} {P Q : σ → ε → Prop}

/-- `s'` is reached from `s` by events that all meet `P` where they happen. -/
def Runs (step : σ → ε → σ) (P : σ → ε → Prop) : σ → σ → Prop :=
  Relation.ReflTransGen fun s s' => ∃ e, P s e ∧ step s e = s'

namespace Runs

theorem refl (s : σ) : Runs step P s s := Relation.ReflTransGen.refl

theorem tail {s s' : σ} (h : Runs step P s s') {e : ε} (he : P s' e) :
    Runs step P s (step s' e) :=
  Relation.ReflTransGen.tail h ⟨e, he, rfl⟩

/-- What holds at the start and is kept by every event holds in every state reached. -/
theorem invariant {I : σ → Prop} (hstep : ∀ s e, P s e → I s → I (step s e)) {s s' : σ}
    (h : Runs step P s s') (hs : I s) : I s' := by
  induction h with
  | refl => exact hs
  | tail _ hlast ih =>
    obtain ⟨e, he, rfl⟩ := hlast
    exact hstep _ e he ih

theorem mono (hPQ : ∀ s e, P s e → Q s e) {s s' : σ} (h : Runs step P s s') :
    Runs step Q s s' :=
  Relation.ReflTransGen.mono (fun _ _ ⟨e, he, heq⟩ => ⟨e, hPQ _ e he, heq⟩) _ _ h

end Runs

/-- The events of a list meet `P` one after the other. -/
def Along (step : σ → ε → σ) (P : σ → ε → Prop) : σ → List ε → Prop
  | _, [] => True
  | s, e :: es => P s e ∧ Along step P (step s e) es

instance [∀ s e, Decidable (P s e)] : (s : σ) → (es : List ε) → Decidable (Along step P s es)
  | _, [] => isTrue trivial
  | s, e :: es =>
    have : Decidable (Along step P (step s e) es) := instDecidableAlong (step s e) es
    inferInstanceAs (Decidable (P s e ∧ Along step P (step s e) es))

theorem Along.runs {s : σ} {es : List ε} (h : Along step P s es) :
    Runs step P s (es.foldl step s) := by
  induction es generalizing s with
  | nil => exact .refl s
  | cons e es ih => exact Relation.ReflTransGen.head ⟨e, h.1, rfl⟩ (ih h.2)

end Mihini.Lib
