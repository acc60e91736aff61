import Mathlib.Data.List.Basic

/-!
# The first of the largest

`firstMax p size` goes through a list and keeps what is larger than anything before it, of the
elements that have a property.  What it ends up with is the first of the largest ones
(`firstMax_eq_some_iff`).
-/

set_option autoImplicit false

namespace FirstMax

variable {α : Type} (p : α → Bool) (size : α → ℕ)

/-- The best element, when `best` is the best one so far. -/
def firstMax : (best : Option α) → List α → Option α
  | best, [] => best
  | best, a :: l =>
    firstMax (if p a && best.all (fun b ↦ size b < size a) then some a else best) l

/-- `b` is the first of the largest elements. -/
def IsFirstMax (l : List α) (b : α) : Prop :=
  ∃ before after, l = before ++ b :: after ∧ p b = true ∧
    (∀ a ∈ before, p a = true → size a < size b) ∧ ∀ a ∈ after, p a = true → size a ≤ size b

variable {p size} {l : List α} {a b c : α}

theorem isFirstMax_cons_of_neg (ha : p a = false) :
    IsFirstMax p size (a :: l) b ↔ IsFirstMax p size l b := by
  constructor
  · rintro ⟨_ | ⟨d, before⟩, after, heq, hb, hbefore, hafter⟩
    · cases heq
      rw [ha] at hb
      cases hb
    · cases heq
      exact ⟨before, after, rfl, hb, (List.forall_mem_cons.mp hbefore).2, hafter⟩
  · rintro ⟨before, after, rfl, hb, hbefore, hafter⟩
    refine ⟨a :: before, after, rfl, hb, List.forall_mem_cons.mpr ⟨fun h ↦ ?_, hbefore⟩, hafter⟩
    rw [ha] at h
    cases h

theorem IsFirstMax.le (h : IsFirstMax p size l b) (ha : a ∈ l) (hp : p a = true) :
    size a ≤ size b := by
  obtain ⟨before, after, rfl, -, hbefore, hafter⟩ := h
  rcases List.mem_append.mp ha with hmem | hmem
  · exact Nat.le_of_lt (hbefore a hmem hp)
  · rcases List.mem_cons.mp hmem with rfl | hmem
    · exact Nat.le_refl _
    · exact hafter a hmem hp

/-- A larger element takes the place of the one before it. -/
theorem isFirstMax_cons_of_lt (hpa : p a = true) (hlt : size c < size a) :
    IsFirstMax p size (c :: a :: l) b ↔ IsFirstMax p size (a :: l) b := by
  constructor
  · rintro ⟨_ | ⟨d, before⟩, after, heq, hb, hbefore, hafter⟩
    · cases heq
      exact absurd (hafter a List.mem_cons_self hpa) (Nat.not_le.mpr hlt)
    · obtain ⟨rfl, hrest⟩ := List.cons_eq_cons.mp heq
      exact ⟨before, after, hrest, hb, (List.forall_mem_cons.mp hbefore).2, hafter⟩
  · intro h
    have hle := h.le List.mem_cons_self hpa
    obtain ⟨before, after, heq, hb, hbefore, hafter⟩ := h
    refine ⟨c :: before, after, by rw [heq]; rfl, hb, ?_, hafter⟩
    exact List.forall_mem_cons.mpr ⟨fun _ ↦ Nat.lt_of_lt_of_le hlt hle, hbefore⟩

/-- An element that is not larger than the one before it is passed over. -/
theorem isFirstMax_cons_of_le (hpc : p c = true) (hle : p a = true → size a ≤ size c) :
    IsFirstMax p size (c :: a :: l) b ↔ IsFirstMax p size (c :: l) b := by
  constructor
  · rintro ⟨_ | ⟨d, _ | ⟨e, before⟩⟩, after, heq, hb, hbefore, hafter⟩
    · cases heq
      exact ⟨[], l, rfl, hb, List.forall_mem_nil _, (List.forall_mem_cons.mp hafter).2⟩
    · cases heq
      exact absurd (hbefore c List.mem_cons_self hpc) (Nat.not_lt.mpr (hle hb))
    · cases heq
      obtain ⟨hc, hrest⟩ := List.forall_mem_cons.mp hbefore
      exact ⟨c :: before, after, rfl, hb,
        List.forall_mem_cons.mpr ⟨hc, (List.forall_mem_cons.mp hrest).2⟩, hafter⟩
  · rintro ⟨_ | ⟨d, before⟩, after, heq, hb, hbefore, hafter⟩
    · cases heq
      exact ⟨[], a :: l, rfl, hb, List.forall_mem_nil _, List.forall_mem_cons.mpr ⟨hle, hafter⟩⟩
    · cases heq
      obtain ⟨hc, hrest⟩ := List.forall_mem_cons.mp hbefore
      refine ⟨c :: a :: before, after, rfl, hb, List.forall_mem_cons.mpr ⟨hc,
        List.forall_mem_cons.mpr ⟨fun hpa ↦ Nat.lt_of_le_of_lt (hle hpa) (hc hpc), hrest⟩⟩, hafter⟩

theorem firstMax_some (hpc : p c = true) :
    firstMax p size (some c) l = some b ↔ IsFirstMax p size (c :: l) b := by
  induction l generalizing c with
  | nil =>
    rw [firstMax, Option.some.injEq]
    constructor
    · rintro rfl
      exact ⟨[], [], rfl, hpc, List.forall_mem_nil _, List.forall_mem_nil _⟩
    · rintro ⟨_ | ⟨d, before⟩, after, heq, -⟩
      · cases heq
        rfl
      · cases before <;> cases heq
  | cons a l ih =>
    rw [firstMax, Option.all_some]
    split
    · next hlarger =>
      obtain ⟨hpa, hlt⟩ := Bool.and_eq_true_iff.mp hlarger
      rw [ih hpa, isFirstMax_cons_of_lt hpa (of_decide_eq_true hlt)]
    · next hnot =>
      rw [ih hpc, isFirstMax_cons_of_le hpc]
      intro hpa
      rw [hpa, Bool.true_and, decide_eq_true_iff] at hnot
      exact Nat.not_lt.mp hnot

/-- **What is found is the first of the largest.** -/
theorem firstMax_eq_some_iff :
    firstMax p size none l = some b ↔ IsFirstMax p size l b := by
  induction l with
  | nil =>
    refine iff_of_false (Option.some_ne_none b ∘ Eq.symm) ?_
    rintro ⟨before, after, heq, -⟩
    cases before <;> cases heq
  | cons a l ih =>
    rw [firstMax, Option.all_none, Bool.and_true]
    cases hpa : p a with
    | true => exact firstMax_some hpa
    | false => rw [isFirstMax_cons_of_neg hpa, ← ih]; rfl

theorem firstMax_eq_none_iff : firstMax p size none l = none ↔ ∀ a ∈ l, p a = false := by
  have hsome : ∀ (c : α) (l : List α), firstMax p size (some c) l ≠ none := by
    intro c l
    induction l generalizing c with
    | nil => exact Option.some_ne_none c
    | cons a l ih =>
      rw [firstMax]
      split
      · exact ih a
      · exact ih c
  induction l with
  | nil => exact iff_of_true rfl (List.forall_mem_nil _)
  | cons a l ih =>
    rw [firstMax, Option.all_none, Bool.and_true, List.forall_mem_cons]
    cases p a with
    | true => exact iff_of_false (hsome a l) fun h ↦ Bool.noConfusion h.1
    | false => exact ih.trans (and_iff_right rfl).symm

end FirstMax
