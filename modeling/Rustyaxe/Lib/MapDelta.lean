import Mathlib.Data.Option.Basic

/-!
# Differences of finite maps

A difference of two maps is itself a map: it has an entry where the two differ, which is the new
value, or a marker if the key is to be deleted.  A marker that is a value of the new map would be
read back as a deletion; that is the only thing that can go wrong (`apply_delta`).
-/

set_option autoImplicit false

namespace MapDelta

variable {κ α : Type} [DecidableEq α] (marker : α)

/-- What turns `m` into `n`. -/
def delta (m n : κ → Option α) (key : κ) : Option α :=
  if m key = n key then none else some ((n key).getD marker)

/-- Carry a difference out. -/
def apply (m d : κ → Option α) (key : κ) : Option α :=
  match d key with
  | none => m key
  | some v => if v = marker then none else some v

theorem delta_eq_none_iff {m n : κ → Option α} {key : κ} :
    delta marker m n key = none ↔ m key = n key := by
  rw [delta]
  split <;> simp_all

/-- **Carrying a difference out gives the new map**, if the marker is not among its values. -/
theorem apply_delta {m n : κ → Option α} (h : ∀ key, n key ≠ some marker) :
    apply marker m (delta marker m n) = n := by
  funext key
  rw [apply, delta]
  by_cases heq : m key = n key
  · rw [if_pos heq, heq]
  · rw [if_neg heq]
    cases hn : n key with
    | none => simp
    | some v =>
      have hv : v ≠ marker := fun hv ↦ h key (hv ▸ hn)
      simp [hv]

end MapDelta
