import Mathlib.Data.List.Basic

/-!
# Packed arrays

An array of slots that holds a list: the items come first, in order, and the slots after them are
empty.  `Packed` relates the two, and the operations of the array are those of the list: filling
the next slot appends, and shifting every later slot down by one erases.
-/

set_option autoImplicit false

namespace PackedArray

variable {α : Type}

/-- `n` slots that hold the items `xs`. -/
def Packed (n : ℕ) (slots : List (Option α)) (xs : List α) : Prop :=
  xs.length ≤ n ∧ slots = xs.map some ++ List.replicate (n - xs.length) none

/-- Shift `k` slots down by one, to the slots from `i` on. -/
def shiftDown (i : ℕ) : ℕ → List (Option α) → List (Option α)
  | 0, slots => slots
  | k + 1, slots => shiftDown (i + 1) k (slots.set i (slots.getD (i + 1) none))

variable {n : ℕ} {slots : List (Option α)} {xs : List α}

theorem Packed.length (h : Packed n slots xs) : slots.length = n := by
  rw [h.2, List.length_append, List.length_map, List.length_replicate]
  exact Nat.add_sub_cancel' h.1

/-- The slots in use. -/
theorem Packed.take (h : Packed n slots xs) : slots.take xs.length = xs.map some := by
  rw [h.2, List.take_append_of_le_length (Nat.le_of_eq (List.length_map _).symm)]
  exact List.take_of_length_le (Nat.le_of_eq (List.length_map _))

theorem Packed.getElem? (h : Packed n slots xs) {i : ℕ} (hi : i < xs.length) :
    slots[i]? = xs[i]?.map some := by
  rw [h.2, List.getElem?_append_left (by rwa [List.length_map]), List.getElem?_map]

/-- **Filling the next slot** appends. -/
theorem Packed.push (h : Packed n slots xs) (hlt : xs.length < n) (a : α) :
    Packed n (slots.set xs.length (some a)) (xs ++ [a]) := by
  refine ⟨by rw [List.length_append]; exact hlt, ?_⟩
  obtain ⟨k, hk⟩ : ∃ k, n - xs.length = k + 1 := ⟨n - xs.length - 1, by omega⟩
  have hk' : n - (xs ++ [a]).length = k := by
    rw [List.length_append, List.length_singleton]
    omega
  rw [h.2, hk, hk', List.set_append_right _ _ (Nat.le_of_eq (List.length_map _)), List.length_map,
    Nat.sub_self, List.replicate_succ, List.set_cons_zero, List.map_append, List.append_assoc]
  rfl

@[simp] theorem length_shiftDown (i k : ℕ) (slots : List (Option α)) :
    (shiftDown i k slots).length = slots.length := by
  induction k generalizing i slots with
  | zero => rfl
  | succ k ih => rw [shiftDown, ih, List.length_set]

/-- What shifting down leaves in a slot. -/
theorem getElem?_shiftDown (i k : ℕ) (slots : List (Option α)) (hlen : i + k < slots.length)
    (j : ℕ) : (shiftDown i k slots)[j]? = if i ≤ j ∧ j < i + k then slots[j + 1]? else slots[j]? := by
  induction k generalizing i slots with
  | zero => rw [shiftDown, if_neg (by omega)]
  | succ k ih =>
    rw [shiftDown, ih (i + 1) _ (by rw [List.length_set]; omega), List.getElem?_set,
      List.getElem?_set]
    have hget : slots[i + 1]? = some (slots.getD (i + 1) none) := by
      rw [List.getD_eq_getElem?_getD, List.getElem?_eq_getElem (by omega), Option.getD_some]
    by_cases hj : j = i
    · subst hj
      rw [if_neg (by omega : ¬ (j + 1 ≤ j ∧ j < j + 1 + k)), if_pos rfl,
        if_pos (by omega : j < slots.length), if_pos (by omega : j ≤ j ∧ j < j + (k + 1)), hget]
    · by_cases hrange : i + 1 ≤ j ∧ j < i + 1 + k
      · rw [if_pos hrange, if_neg (by omega : ¬ i = j + 1), if_pos (by omega)]
      · rw [if_neg hrange, if_neg (Ne.symm hj), if_neg (by omega)]

/-- **Shifting the later slots down** erases. -/
theorem Packed.erase (h : Packed n slots xs) {i : ℕ} (hi : i < xs.length) :
    Packed n ((shiftDown i (xs.length - 1 - i) slots).set (xs.length - 1) none)
      (xs.eraseIdx i) := by
  have hlen := List.length_eraseIdx_of_lt hi
  have hslots := h.length
  have hn := h.1
  refine ⟨by omega, List.ext_getElem? fun j ↦ ?_⟩
  have hempty : ∀ j, xs.length ≤ j → j < n → slots[j]? = some none := fun j hj hjn ↦ by
    rw [h.2, List.getElem?_append_right (by rwa [List.length_map]), List.length_map,
      List.getElem?_replicate, if_pos (by omega)]
  rw [List.getElem?_set]
  by_cases hlast : xs.length - 1 = j
  · -- the slot of the last item is cleared
    have hlt : j < (shiftDown i (xs.length - 1 - i) slots).length := by
      rw [length_shiftDown]
      omega
    rw [if_pos hlast, if_pos (hlast ▸ hlt),
      List.getElem?_append_right (by rw [List.length_map]; omega), List.length_map, List.getElem?_replicate, if_pos (by omega)]
  · rw [if_neg hlast, getElem?_shiftDown i (xs.length - 1 - i) slots (by omega)]
    by_cases hj : j < xs.length - 1
    · rw [List.getElem?_append_left (by rw [List.length_map]; omega), List.getElem?_map,
        List.getElem?_eraseIdx]
      by_cases hji : j < i
      · rw [if_neg (by omega), if_pos hji, h.getElem? (by omega)]
      · rw [if_pos (by omega), if_neg hji, h.getElem? (by omega)]
    · rw [if_neg (by omega), List.getElem?_append_right (by rw [List.length_map]; omega),
        List.length_map, List.getElem?_replicate]
      by_cases hjn : j < n
      · rw [if_pos (by omega), hempty j (by omega) hjn]
      · rw [if_neg (by omega), List.getElem?_eq_none (by omega)]

end PackedArray
