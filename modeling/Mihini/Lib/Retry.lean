/-!
# Calls that are retried until they are done

A step that returns the code `again` is called again from the state it left.
`Retried step again ok s r` says that this ends with `r`, and that `ok` held of
the state before each call.
-/

namespace Lib

variable {σ ρ : Type}

inductive Retried (step : σ → Option (ρ × σ)) (again : ρ) (ok : σ → Prop) :
    σ → Option (ρ × σ) → Prop
  | done {s : σ} {r : Option (ρ × σ)} :
      ok s → step s = r → (∀ s', r ≠ some (again, s')) → Retried step again ok s r
  | again {s s' : σ} {r : Option (ρ × σ)} :
      ok s → step s = some (again, s') → Retried step again ok s' r → Retried step again ok s r

namespace Retried

variable {step : σ → Option (ρ × σ)} {again : ρ} {ok : σ → Prop}

/-- The invariant rule: `I` holds of every state a call starts from, and a call
that is not interrupted ends in `Q`. -/
theorem rule {I : σ → Prop} {Q : Option (ρ × σ) → Prop}
    (hstep : ∀ s, I s → ok s → (∀ s', step s = some (again, s') → I s')
      ∧ ((∀ s', step s ≠ some (again, s')) → Q (step s)))
    {s : σ} {r : Option (ρ × σ)} (h : Retried step again ok s r) (hs : I s) : Q r := by
  induction h with
  | @done s r hok hr hfinal =>
    subst hr
    exact (hstep s hs hok).2 hfinal
  | @again s s' r hok hagain _ ih => exact ih ((hstep s hs hok).1 s' hagain)

end Retried

end Lib
