import Mathlib.Data.List.Nodup
import Mathlib.Logic.Function.Basic

/-!
# Moving many cells at once

A table has cells, some of them empty.  Its cells are to be copied to targets, all at once: what is
copied is what was there before, even where one copy's target is another one's source.

One copy after the other does this when everything is first saved in spare cells, which are empty
and none of which is a target: the copies are made from the spare cells, and these are cleared
(`Saved.moved`).  Clearing them without any copies gives back the table (`Saved.restored`).
-/

set_option autoImplicit false

namespace ParallelCopy

variable {ι α β : Type} [DecidableEq α]

/-- Copy cells one after the other, changing what is copied. -/
def copyAll (g : β → β) (source target : ι → α) (t : α → Option β) (items : List ι) :
    α → Option β :=
  items.foldl (fun t i ↦ Function.update t (target i) ((t (source i)).map g)) t

/-- Clear cells one after the other. -/
def clearAll (cell : ι → α) (t : α → Option β) (items : List ι) : α → Option β :=
  items.foldl (fun t i ↦ Function.update t (cell i) none) t

variable {g : β → β} {source spare target cell : ι → α} {t t' : α → Option β} {items : List ι}

theorem clearAll_apply (cell : ι → α) (t : α → Option β) (items : List ι) (a : α) :
    clearAll cell t items a = if a ∈ items.map cell then none else t a := by
  induction items generalizing t with
  | nil => rw [List.map_nil, if_neg List.not_mem_nil]; rfl
  | cons i items ih =>
    rw [clearAll, List.foldl_cons, ← clearAll, ih, Function.update_apply, List.map_cons]
    by_cases ha : a = cell i
    · simp [ha]
    · simp [ha]

/-- A cell that is no target stays as it is. -/
theorem copyAll_of_not_mem {a : α} (ha : a ∉ items.map target) :
    copyAll g source target t items a = t a := by
  induction items generalizing t with
  | nil => rfl
  | cons i items ih =>
    rw [List.map_cons, List.mem_cons, not_or] at ha
    rw [copyAll, List.foldl_cons, ← copyAll, ih ha.2, Function.update_of_ne ha.1]

/-- No source is a target: every target has what its source had. -/
theorem copyAll_target (hnodup : (items.map target).Nodup)
    (hapart : ∀ i ∈ items, source i ∉ items.map target) {i : ι} (hi : i ∈ items) :
    copyAll g source target t items (target i) = (t (source i)).map g := by
  induction items generalizing t with
  | nil => cases hi
  | cons j items ih =>
    rw [List.map_cons, List.nodup_cons] at hnodup
    have hapart' : ∀ k ∈ items, source k ≠ target j ∧ source k ∉ items.map target := fun k hk ↦ by
      have := hapart k (List.mem_cons_of_mem _ hk)
      rwa [List.map_cons, List.mem_cons, not_or] at this
    rw [copyAll, List.foldl_cons, ← copyAll]
    by_cases hmem : i ∈ items
    · rw [ih hnodup.2 (fun k hk ↦ (hapart' k hk).2) hmem,
        Function.update_of_ne (hapart' i hmem).1]
    · obtain rfl : i = j := (List.mem_cons.mp hi).resolve_right hmem
      rw [copyAll_of_not_mem hnodup.1, Function.update_self]

/-! ## Spare cells -/

/-- What is in the sources is also in spare cells, which were empty.  A source that was empty may
have been filled meanwhile, as it may be a spare cell itself. -/
structure Saved (f : β → β) (source spare : ι → α) (t t' : α → Option β) (items : List ι) :
    Prop where
  nodup : (items.map spare).Nodup
  free : ∀ i ∈ items, t (spare i) = none
  filled : ∀ i ∈ items, (t' (spare i)).isSome
  saved : ∀ i ∈ items, ∀ b, t (source i) = some b → t' (spare i) = some (f b)
  other : ∀ a ∉ items.map spare, t' a = t a

variable {f : β → β}

omit [DecidableEq α] in
theorem Saved.nil : Saved f source spare t t [] where
  nodup := List.nodup_nil
  free := List.forall_mem_nil _
  filled := List.forall_mem_nil _
  saved := List.forall_mem_nil _
  other _ _ := rfl

/-- One cell more, in front of those that are saved after it. -/
theorem Saved.cons {i : ι} {b : β} (hfree : t (spare i) = none) (hsource : t (source i) = some b)
    (h : Saved f source spare (Function.update t (spare i) (some (f b))) t' items) :
    Saved f source spare t t' (i :: items) := by
  have hnew : spare i ∉ items.map spare := fun hmem ↦ by
    obtain ⟨j, hj, hji⟩ := List.mem_map.mp hmem
    have := h.free j hj
    rw [hji, Function.update_self] at this
    cases this
  have hself : t' (spare i) = some (f b) := by rw [h.other _ hnew, Function.update_self]
  have hne {a : α} (ha : t a ≠ none) : a ≠ spare i := fun heq ↦ ha (heq ▸ hfree)
  refine ⟨List.nodup_cons.mpr ⟨hnew, h.nodup⟩, ?_, ?_, ?_, fun a ha ↦ ?_⟩
  · refine List.forall_mem_cons.mpr ⟨hfree, fun j hj ↦ ?_⟩
    have hji : spare j ≠ spare i := fun heq ↦ hnew (heq ▸ List.mem_map_of_mem hj)
    rw [← h.free j hj, Function.update_of_ne hji]
  · exact List.forall_mem_cons.mpr ⟨hself ▸ rfl, h.filled⟩
  · refine List.forall_mem_cons.mpr ⟨fun b' hb' ↦ ?_, fun j hj b' hb' ↦ h.saved j hj b' ?_⟩
    · rw [hself, Option.some.inj (hsource.symm.trans hb')]
    · rw [Function.update_of_ne (hne (hb' ▸ Option.some_ne_none b')), hb']
  · rw [List.map_cons, List.mem_cons, not_or] at ha
    rw [h.other a ha.2, Function.update_of_ne ha.1]

/-- **Clearing the spare cells** gives back the table. -/
theorem Saved.restored (h : Saved f source spare t t' items) : clearAll spare t' items = t := by
  funext a
  rw [clearAll_apply]
  split
  case isTrue ha =>
    obtain ⟨i, hi, rfl⟩ := List.mem_map.mp ha
    exact (h.free i hi).symm
  case isFalse ha => exact h.other a ha

/-- **Copying from the spare cells** moves everything at once: every target has what was saved, and
nothing else has changed. -/
theorem Saved.moved (h : Saved f source spare t t' items) (hnodup : (items.map target).Nodup)
    (hapart : ∀ i ∈ items, spare i ∉ items.map target) :
    (∀ i ∈ items, clearAll spare (copyAll g spare target t' items) items (target i) =
      (t' (spare i)).map g) ∧
    ∀ a ∉ items.map target, clearAll spare (copyAll g spare target t' items) items a = t a := by
  refine ⟨fun i hi ↦ ?_, fun a ha ↦ ?_⟩
  · rw [clearAll_apply, if_neg, copyAll_target hnodup hapart hi]
    intro hmem
    obtain ⟨j, hj, hji⟩ := List.mem_map.mp hmem
    exact hapart j hj (hji ▸ List.mem_map_of_mem hi)
  · rw [clearAll_apply, copyAll_of_not_mem ha, ← clearAll_apply, h.restored]

end ParallelCopy
