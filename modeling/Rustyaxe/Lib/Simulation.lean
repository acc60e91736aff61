import Mathlib.Logic.Basic

/-!
# Simulations of partial computations

Two computations that may fail to return, one of which simulates the other: neither returns, or
both do, with related results (`Option.Rel`).  `rel_bind` composes them.
-/

set_option autoImplicit false

namespace Simulation

variable {α β γ δ : Type} {R : α → β → Prop} {S : γ → δ → Prop}

/-- **Two computations one after the other.** -/
theorem rel_bind {o : Option α} {o' : Option β} {k : α → Option γ} {k' : β → Option δ}
    (h : Option.Rel R o o') (hk : ∀ a b, R a b → Option.Rel S (k a) (k' b)) :
    Option.Rel S (o.bind k) (o'.bind k') := by
  cases h with
  | none => exact .none
  | some h => exact hk _ _ h

/-- A step that only the second one takes. -/
theorem rel_bind_right {T : α → δ → Prop} {o : Option α} {o' : Option β} {k' : β → Option δ}
    (h : Option.Rel R o o') (hk : ∀ a b, R a b → Option.Rel T (some a) (k' b)) :
    Option.Rel T o (o'.bind k') := by
  cases h with
  | none => exact .none
  | some h => exact hk _ _ h

/-- What the second computation returns is related to what the first one does. -/
theorem rel_right {o : Option α} {b : β} (h : Option.Rel R o (some b)) : ∃ a, o = some a ∧ R a b := by
  cases h with
  | some h => exact ⟨_, rfl, h⟩

end Simulation
