/-!
One action after another.

A reader of tokens, a generator of code and a step of the machine all end in one of two
ways, and have a state to show for it either way.  Two of them in sequence are judged by
what the first one does: if it fails, so does the sequence, in the state where it failed.
-/

namespace WordC

section Sequence

variable {ε σ α β : Type} {x : EStateM ε σ α} {f : α → EStateM ε σ β} {s s' : σ}

theorem bind_of_ok {a : α} (h : x s = .ok a s') : (x >>= f) s = f a s' := by
  change EStateM.bind x f s = f a s'
  rw [EStateM.bind, h]

theorem bind_of_error {e : ε} (h : x s = .error e s') : (x >>= f) s = .error e s' := by
  change EStateM.bind x f s = .error e s'
  rw [EStateM.bind, h]

/-- A sequence succeeds through both of its actions. -/
theorem bind_ok {b : β} (h : (x >>= f) s = .ok b s') :
    ∃ a s₁, x s = .ok a s₁ ∧ f a s₁ = .ok b s' := by
  cases hx : x s with
  | ok a s₁ => exact ⟨a, s₁, rfl, (bind_of_ok hx).symm.trans h⟩
  | error e s₁ => cases (bind_of_error hx).symm.trans h

/-- A sequence fails in one of its actions. -/
theorem bind_error {e : ε} (h : (x >>= f) s = .error e s') :
    x s = .error e s' ∨ ∃ a s₁, x s = .ok a s₁ ∧ f a s₁ = .error e s' := by
  cases hx : x s with
  | ok a s₁ => exact .inr ⟨a, s₁, rfl, (bind_of_ok hx).symm.trans h⟩
  | error e' s₁ =>
    cases (bind_of_error hx).symm.trans h
    exact .inl rfl

end Sequence

end WordC
