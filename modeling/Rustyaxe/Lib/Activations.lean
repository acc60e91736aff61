import Mathlib.Data.List.GetD

/-!
# Nested activations that hand out lists

The calls of one procedure are numbered in their order, and those that have not returned nest like
a stack.  Each call has a plan, a list that it hands out item by item; between two items other
calls may come, go, or stay on top of it.  The log has what has been handed out, with the numbers
of the calls.

`Balanced` is the invariant: what a call has handed out, followed by what it has left, is its plan.
Calling, handing out and returning keep it, and nothing else happens to the stack.
-/

set_option autoImplicit false

namespace Activations

variable {α : Type}

/-- What call `n` has handed out. -/
def handed (log : List (ℕ × α)) (n : ℕ) : List α :=
  log.filterMap fun x ↦ if x.1 = n then some x.2 else none

/-- What call `n` has left. -/
def left (stack : List (ℕ × List α)) (n : ℕ) : List α :=
  stack.flatMap fun x ↦ if x.1 = n then x.2 else []

@[simp] theorem handed_nil (n : ℕ) : handed ([] : List (ℕ × α)) n = [] := rfl

@[simp] theorem left_nil (n : ℕ) : left ([] : List (ℕ × List α)) n = [] := rfl

theorem handed_concat (log : List (ℕ × α)) (m : ℕ) (a : α) (n : ℕ) :
    handed (log ++ [(m, a)]) n = handed log n ++ if m = n then [a] else [] := by
  rw [handed, List.filterMap_append, handed]
  split <;> simp [*]

theorem left_cons (m : ℕ) (as : List α) (stack : List (ℕ × List α)) (n : ℕ) :
    left ((m, as) :: stack) n = (if m = n then as else []) ++ left stack n := rfl

theorem left_ne_nil_iff {stack : List (ℕ × List α)} :
    (∃ n, left stack n ≠ []) ↔ ∃ x ∈ stack, x.2 ≠ [] := by
  constructor
  · rintro ⟨n, h⟩
    obtain ⟨a, ha⟩ := List.exists_mem_of_ne_nil _ h
    obtain ⟨x, hx, ha⟩ := List.mem_flatMap.mp ha
    refine ⟨x, hx, fun hnil ↦ ?_⟩
    rw [hnil, ite_self] at ha
    exact List.not_mem_nil ha
  · rintro ⟨x, hx, hne⟩
    obtain ⟨a, ha⟩ := List.exists_mem_of_ne_nil _ hne
    refine ⟨x.1, List.ne_nil_of_mem (a := a) (List.mem_flatMap.mpr ⟨x, hx, ?_⟩)⟩
    rwa [if_pos rfl]

/-- What a call has handed out, followed by what it has left, is its plan. -/
def Balanced (plan : List (List α)) (stack : List (ℕ × List α)) (log : List (ℕ × α)) : Prop :=
  ∀ n, handed log n ++ left stack n = plan.getD n []

variable {plan : List (List α)} {stack : List (ℕ × List α)} {log : List (ℕ × α)}

theorem Balanced.nil : Balanced ([] : List (List α)) [] [] := fun _ ↦ rfl

/-- Nobody has handed out anything under a number that is not taken. -/
theorem Balanced.fresh (h : Balanced plan stack log) {n : ℕ} (hn : plan.length ≤ n) :
    handed log n = [] ∧ left stack n = [] := by
  have hnil : plan.getD n [] = [] := List.getD_eq_default plan [] hn
  exact List.append_eq_nil_iff.mp ((h n).trans hnil)

/-- **A call** takes the next number. -/
theorem Balanced.call (h : Balanced plan stack log) (as : List α) :
    Balanced (plan ++ [as]) ((plan.length, as) :: stack) log := by
  intro n
  rw [left_cons]
  by_cases hn : plan.length = n
  · obtain ⟨hlog, hstack⟩ := h.fresh (Nat.le_of_eq hn)
    rw [if_pos hn, hlog, hstack, List.nil_append, List.append_nil, ← hn]
    simp
  · rw [if_neg hn, List.nil_append, h n]
    by_cases hlt : n < plan.length
    · rw [List.getD_append _ _ _ _ hlt]
    · have hle : (plan ++ [as]).length ≤ n := by
        rw [List.length_append, List.length_singleton]
        omega
      rw [List.getD_eq_default _ _ (Nat.le_of_not_lt hlt), List.getD_eq_default _ _ hle]

/-- **The innermost call hands out an item.** -/
theorem Balanced.handOut {m : ℕ} {a : α} {as : List α}
    (h : Balanced plan ((m, a :: as) :: stack) log) :
    Balanced plan ((m, as) :: stack) (log ++ [(m, a)]) := by
  intro n
  rw [← h n, handed_concat, left_cons, left_cons]
  by_cases hn : m = n
  · simp [hn]
  · simp [hn]

/-- **The innermost call returns** when it has nothing left. -/
theorem Balanced.finish {m : ℕ} (h : Balanced plan ((m, []) :: stack) log) :
    Balanced plan stack log := by
  intro n
  rw [← h n, left_cons, ite_self, List.nil_append]

/-- A call that has nothing left has handed out its plan, and only such a call has. -/
theorem Balanced.handed_eq_iff (h : Balanced plan stack log) (n : ℕ) :
    handed log n = plan.getD n [] ↔ left stack n = [] := by
  rw [← h n, List.self_eq_append_right]

end Activations
