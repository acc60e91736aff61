import Mathlib.Data.List.Nodup
import Mathlib.Data.List.Perm.Basic
import Mathlib.Logic.Function.Basic

/-!
# Lists of what is in a table

A table has cells, some of them empty.  A list is an inventory of it (`Inventory`) if it has the
cells that are not empty, every one of them once.  So when the lists of several owners together are
an inventory, every cell in use has exactly one owner.

Filling an empty cell and emptying one go along with the list, and what an owner does is seen in
its own part of the list, whatever the rest of it is.
-/

set_option autoImplicit false

/-- An owner's part of the list of all owners, and what stays the same when it changes. -/
theorem List.exists_flatMap_set {α β : Type} (f : α → List β) {owners : List α} {i : ℕ} {a : α}
    (h : owners[i]? = some a) : ∃ rest, (owners.flatMap f).Perm (f a ++ rest) ∧
      ∀ b, ((owners.set i b).flatMap f).Perm (f b ++ rest) := by
  induction owners generalizing i with
  | nil => cases h
  | cons c owners ih =>
    cases i with
    | zero =>
      cases Option.some.inj h
      exact ⟨owners.flatMap f, .refl _, fun _ ↦ .refl _⟩
    | succ i =>
      obtain ⟨rest, hbefore, hafter⟩ := ih h
      refine ⟨f c ++ rest, ?_, fun b ↦ ?_⟩
      · exact (hbefore.append_left (f c)).trans (List.perm_append_comm_assoc _ _ _)
      · exact ((hafter b).append_left (f c)).trans (List.perm_append_comm_assoc _ _ _)

/-- The list has the cells that are not empty, every one of them once. -/
structure Inventory {α β : Type} (cells : List α) (t : α → Option β) : Prop where
  nodup : cells.Nodup
  mem_iff : ∀ a, a ∈ cells ↔ (t a).isSome

namespace Inventory

variable {α β : Type} {cells cells' : List α} {t : α → Option β} {a : α}

theorem nil : Inventory [] (fun _ : α ↦ (none : Option β)) :=
  ⟨List.nodup_nil, fun _ ↦ iff_of_false List.not_mem_nil Bool.noConfusion⟩

/-- The order of the list does not matter. -/
theorem perm (h : Inventory cells t) (hperm : cells.Perm cells') : Inventory cells' t :=
  ⟨hperm.nodup_iff.mp h.nodup, fun a ↦ by rw [← hperm.mem_iff, h.mem_iff]⟩

theorem isSome (h : Inventory cells t) (ha : a ∈ cells) : (t a).isSome := (h.mem_iff a).mp ha

/-- No cell is filled and none is emptied. -/
theorem congr (h : Inventory cells t) {t' : α → Option β} (ht : ∀ a, (t' a).isSome = (t a).isSome) :
    Inventory cells t' :=
  ⟨h.nodup, fun a ↦ by rw [ht, h.mem_iff]⟩

variable [DecidableEq α]

/-- An empty cell is filled. -/
theorem fill (h : Inventory cells t) (ha : t a = none) (b : β) :
    Inventory (a :: cells) (Function.update t a (some b)) := by
  have hnot : a ∉ cells := fun hmem ↦ by
    have hsome := h.isSome hmem
    rw [ha] at hsome
    cases hsome
  refine ⟨List.nodup_cons.mpr ⟨hnot, h.nodup⟩, fun c ↦ ?_⟩
  by_cases hc : c = a
  · subst hc
    rw [Function.update_self]
    exact iff_of_true List.mem_cons_self rfl
  · rw [Function.update_of_ne hc, List.mem_cons, or_iff_right hc, h.mem_iff]

/-- The first cell of the list is emptied. -/
theorem empty (h : Inventory (a :: cells) t) :
    Inventory cells (Function.update t a none) := by
  obtain ⟨hnot, hnodup⟩ := List.nodup_cons.mp h.nodup
  refine ⟨hnodup, fun c ↦ ?_⟩
  by_cases hc : c = a
  · subst hc
    rw [Function.update_self]
    exact iff_of_false hnot Bool.noConfusion
  · rw [Function.update_of_ne hc, ← h.mem_iff, List.mem_cons, or_iff_right hc]

end Inventory
