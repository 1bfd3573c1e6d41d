set_option autoImplicit false

/-! # Results that may be errors

How changing the error of a result acts on each kind of result, and what a success of two steps says
about both. -/

namespace GossipStore

variable {ε ε' α : Type}

theorem mapError_error (f : ε → ε') (e : ε) :
    (Except.error e : Except ε α).mapError f = .error (f e) := rfl

theorem mapError_ok (f : ε → ε') (x : α) : (Except.ok x : Except ε α).mapError f = .ok x := rfl

/-- Two steps succeed one after the other. -/
theorem exists_of_bind_eq_ok {β γ : Type} {x : Except ε β} {f : β → Except ε γ} {c : γ}
    (h : x >>= f = .ok c) : ∃ b, x = .ok b ∧ f b = .ok c := by
  cases x with
  | error e => cases h
  | ok b => exact ⟨b, rfl, h⟩

end GossipStore
