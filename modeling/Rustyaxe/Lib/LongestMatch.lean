import Mathlib.Data.List.Basic

/-!
# Removing codes from a text

A text has codes in it, and other elements.  Reading from the left, a code is taken as long as
possible: `Longest code u s` says that `u` is the longest code at the start of `u ++ s`.
`Removed code plain s t` says that `t` is what is left of `s` without its codes, in order.  There is
at most one such `t`, if no code begins with an element that is kept (`Removed.unique`).
-/

set_option autoImplicit false

namespace LongestMatch

variable {α : Type} (code : List α → Prop) (plain : α → Prop)

/-- `u` is the longest code at the start of `u ++ s`. -/
structure Longest (u s : List α) : Prop where
  isCode : code u
  length_le : ∀ u', code u' → u' <+: u ++ s → u'.length ≤ u.length

/-- `t` is what is left of `s` without its codes. -/
inductive Removed : List α → List α → Prop where
  | nil : Removed [] []
  | keep {a : α} {s t : List α} : plain a → Removed s t → Removed (a :: s) (a :: t)
  | skip {u s t : List α} : Longest code u s → Removed s t → Removed (u ++ s) t

variable {code plain}

theorem Longest.unique {u u' s s' : List α} (h : Longest code u s) (h' : Longest code u' s')
    (heq : u ++ s = u' ++ s') : u = u' ∧ s = s' := by
  have hle : u.length ≤ u'.length := h'.length_le u h.isCode (heq ▸ List.prefix_append u s)
  have hge : u'.length ≤ u.length := h.length_le u' h'.isCode (heq ▸ List.prefix_append u' s')
  exact List.append_inj heq (Nat.le_antisymm hle hge)

namespace Removed

theorem forall_plain {s t : List α} (h : Removed code plain s t) : ∀ a ∈ t, plain a := by
  induction h with
  | nil => exact fun a ha ↦ absurd ha List.not_mem_nil
  | keep ha _ ih => exact List.forall_mem_cons.mpr ⟨ha, ih⟩
  | skip _ _ ih => exact ih

/-- **There is one way to remove the codes.** -/
theorem unique (hcode : ∀ u, code u → ∃ a v, u = a :: v ∧ ¬ plain a) {s t t' : List α}
    (h : Removed code plain s t) (h' : Removed code plain s t') : t = t' := by
  induction h generalizing t' with
  | nil =>
    generalize hs : ([] : List α) = s at h'
    cases h' with
    | nil => rfl
    | keep => cases hs
    | skip hu _ =>
      obtain ⟨a, v, rfl, -⟩ := hcode _ hu.isCode
      cases hs
  | @keep a s t ha _ ih =>
    generalize hs : a :: s = s' at h'
    cases h' with
    | nil => cases hs
    | keep _ hrest =>
      obtain ⟨rfl, rfl⟩ := List.cons.inj hs
      rw [ih hrest]
    | skip hu _ =>
      obtain ⟨b, v, rfl, hb⟩ := hcode _ hu.isCode
      exact absurd ((List.cons.inj hs).1 ▸ ha) hb
  | @skip u s t hu _ ih =>
    generalize hs : u ++ s = s' at h'
    cases h' with
    | nil =>
      obtain ⟨b, v, rfl, -⟩ := hcode _ hu.isCode
      cases hs
    | keep ha _ =>
      obtain ⟨b, v, rfl, hb⟩ := hcode _ hu.isCode
      exact absurd ((List.cons.inj hs).1 ▸ ha) hb
    | skip hu' hrest =>
      obtain ⟨-, rfl⟩ := hu.unique hu' hs
      exact ih hrest

end Removed

end LongestMatch
