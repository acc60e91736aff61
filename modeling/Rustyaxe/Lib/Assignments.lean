import Mathlib.Data.List.Basic

/-!
# Assignments in order

A list of assignments of values to keys, the later ones over the earlier ones.  `lastValue` is
what the list says about a key, and `overlay` a map after the list has been carried out on it.
-/

set_option autoImplicit false

namespace Assignments

variable {κ α : Type} [DecidableEq κ]

/-- The value of the last assignment to the key. -/
def lastValue (as : List (κ × α)) (key : κ) : Option α :=
  (as.reverse.find? fun a ↦ a.1 == key).map Prod.snd

/-- The map, after the assignments. -/
def overlay (m : κ → Option α) (as : List (κ × α)) (key : κ) : Option α :=
  (lastValue as key).or (m key)

theorem lastValue_append (as bs : List (κ × α)) (key : κ) :
    lastValue (as ++ bs) key = (lastValue bs key).or (lastValue as key) := by
  rw [lastValue, lastValue, lastValue, List.reverse_append, List.find?_append]
  cases List.find? (fun a ↦ a.1 == key) bs.reverse <;> rfl

theorem lastValue_map {β : Type} (f : α → β) (as : List (κ × α)) (key : κ) :
    lastValue (as.map fun a ↦ (a.1, f a.2)) key = (lastValue as key).map f := by
  rw [lastValue, lastValue, ← List.map_reverse, List.find?_map, Option.map_map, Option.map_map]
  rfl

@[simp] theorem overlay_nil (m : κ → Option α) : overlay m [] = m := rfl

@[simp] theorem overlay_none (as : List (κ × α)) : overlay (fun _ ↦ none) as = lastValue as := by
  funext key
  rw [overlay, Option.or_none]

theorem overlay_singleton (m : κ → Option α) (key : κ) (v : α) :
    overlay m [(key, v)] = Function.update m key (some v) := by
  funext k
  by_cases hk : k = key
  · subst hk
    simp [overlay, lastValue]
  · simp [overlay, lastValue, Function.update_of_ne hk, Ne.symm hk]

/-- **One list after the other** is the two together. -/
theorem overlay_append (m : κ → Option α) (as bs : List (κ × α)) :
    overlay m (as ++ bs) = overlay (overlay m as) bs := by
  funext key
  rw [overlay, overlay, overlay, lastValue_append, Option.or_assoc]

/-- Carrying a list out on an empty map, and that map over another, is carrying it out. -/
theorem overlay_eq_or (m : κ → Option α) (as : List (κ × α)) (key : κ) :
    overlay m as key = (overlay (fun _ ↦ none) as key).or (m key) := by
  rw [overlay_none, overlay]

/-- The last value is one that is assigned. -/
theorem mem_of_lastValue {as : List (κ × α)} {key : κ} {v : α} (h : lastValue as key = some v) :
    (key, v) ∈ as := by
  rw [lastValue, Option.map_eq_some_iff] at h
  obtain ⟨⟨k, w⟩, hfind, rfl⟩ := h
  have hkey : (k == key) = true := List.find?_some (p := fun a : κ × α ↦ a.1 == key) hfind
  obtain rfl := beq_iff_eq.mp hkey
  exact List.mem_reverse.mp (List.mem_of_find?_eq_some hfind)

/-- A key that is assigned has a last value. -/
theorem lastValue_isSome_of_mem {as : List (κ × α)} {key : κ} {v : α} (h : (key, v) ∈ as) :
    (lastValue as key).isSome := by
  rw [lastValue, Option.isSome_map, List.find?_isSome]
  exact ⟨(key, v), List.mem_reverse.mpr h, beq_self_eq_true key⟩

/-- A list that only says what the map says, and says it about every key, is the map. -/
theorem lastValue_eq_of_mem {m : κ → Option α} {as : List (κ × α)}
    (hsound : ∀ a ∈ as, m a.1 = some a.2) (hall : ∀ key, (m key).isSome → ∃ v, (key, v) ∈ as) :
    lastValue as = m := by
  funext key
  rw [lastValue]
  cases hfind : as.reverse.find? fun a ↦ a.1 == key with
  | none =>
    rw [List.find?_eq_none] at hfind
    cases hm : m key with
    | none => rfl
    | some v =>
      obtain ⟨w, hw⟩ := hall key (by simp [hm])
      exact absurd (beq_self_eq_true key) (hfind (key, w) (List.mem_reverse.mpr hw))
  | some a =>
    have hkey : (a.1 == key) = true := List.find?_some (p := fun a : κ × α ↦ a.1 == key) hfind
    have hmem := List.mem_reverse.mp (List.mem_of_find?_eq_some hfind)
    rw [Option.map_some, ← beq_iff_eq.mp hkey, hsound a hmem]

end Assignments
