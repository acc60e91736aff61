import Mathlib.Data.Finset.Card
import Mathlib.Data.Finset.Filter
import Mathlib.Data.Finset.Image

/-!
# Bindings that are kept in slots

A table of slots where each slot may hold a binding, of a key to a value.  The bindings of the table
are a finite set of pairs; where no key is bound twice, overwriting a slot and freeing one are
the set's own operations.
-/

set_option autoImplicit false

namespace SlotTable

variable {σ κ ν : Type}

/-! ## The set -/

/-- Bind a key where there is room for `n` bindings, in place of what it is bound to. -/
def put [DecidableEq κ] [DecidableEq ν] (n : ℕ) (B : Finset (κ × ν)) (k : κ) (v : ν) :
    Finset (κ × ν) :=
  if (∃ p ∈ B, p.1 = k) ∨ B.card < n then insert (k, v) (B.filter (·.1 ≠ k)) else B

/-! ## The slots -/

variable (entry : σ → Option (κ × ν))

/-- What the slots hold. -/
def entries (slots : List σ) : List (κ × ν) := slots.filterMap entry

/-- No key is bound twice. -/
def Keyed (slots : List σ) : Prop := ((entries entry slots).map Prod.fst).Nodup

/-- What is bound. -/
def bindings [DecidableEq κ] [DecidableEq ν] (slots : List σ) : Finset (κ × ν) :=
  (entries entry slots).toFinset

variable {entry}

theorem entries_middle (before after : List σ) (s : σ) :
    entries entry (before ++ s :: after) =
      entries entry before ++ ((entry s).toList ++ entries entry after) := by
  rw [entries, List.filterMap_append, List.filterMap_cons]
  cases entry s <;> rfl

theorem entries_free {before after : List σ} {s : σ} (h : entry s = none) :
    entries entry (before ++ s :: after) = entries entry before ++ entries entry after := by
  rw [entries_middle, h]
  rfl

theorem entries_held {before after : List σ} {s : σ} {p : κ × ν} (h : entry s = some p) :
    entries entry (before ++ s :: after) = entries entry before ++ p :: entries entry after := by
  rw [entries_middle, h]
  rfl

theorem keyed_held {before after : List σ} {s : σ} {p : κ × ν} (h : entry s = some p) :
    Keyed entry (before ++ s :: after) ↔
      (∀ q ∈ entries entry before ++ entries entry after, q.1 ≠ p.1) ∧
        ((entries entry before ++ entries entry after).map Prod.fst).Nodup := by
  rw [Keyed, entries_held h, List.map_append, List.map_cons, List.nodup_middle, List.nodup_cons,
    ← List.map_append, List.mem_map]
  refine and_congr_left fun _ ↦ ⟨fun hp q hq heq ↦ hp ⟨q, hq, heq⟩, ?_⟩
  rintro hp ⟨q, hq, heq⟩
  exact hp q hq heq

variable [DecidableEq κ] [DecidableEq ν]

theorem mem_bindings {slots : List σ} {p : κ × ν} :
    p ∈ bindings entry slots ↔ ∃ s ∈ slots, entry s = some p := by
  rw [bindings, List.mem_toFinset, entries, List.mem_filterMap]

theorem bindings_held {before after : List σ} {s : σ} {p : κ × ν} (h : entry s = some p) :
    bindings entry (before ++ s :: after) =
      insert p (entries entry before ++ entries entry after).toFinset := by
  ext q
  rw [bindings, entries_held h]
  simp only [List.mem_toFinset, List.mem_append, List.mem_cons, Finset.mem_insert]
  tauto

theorem card_bindings {slots : List σ} (h : Keyed entry slots) :
    (bindings entry slots).card = (entries entry slots).length :=
  List.toFinset_card_of_nodup h.of_map

/-- There is a free slot unless the set is as large as the table. -/
theorem card_lt_iff {slots : List σ} (h : Keyed entry slots) :
    (bindings entry slots).card < slots.length ↔ ∃ s ∈ slots, entry s = none := by
  rw [card_bindings h, entries]
  constructor
  · intro hlt
    by_contra! hall
    have hlen : (slots.filterMap entry).length = slots.length :=
      List.filterMap_length_eq_length.mpr fun s hs ↦ Option.isSome_iff_ne_none.mpr (hall s hs)
    omega
  · rintro ⟨s, hs, hfree⟩
    refine lt_of_le_of_ne (List.length_filterMap_le _ _) fun hlen ↦ ?_
    have := List.filterMap_length_eq_length.mp hlen s hs
    rw [hfree] at this
    cases this

/-- A slot that is overwritten was free or held the key. -/
theorem write {before after : List σ} {s s' : σ} {k : κ} {v : ν}
    (h : Keyed entry (before ++ s :: after)) (hs' : entry s' = some (k, v))
    (hs : ∀ p, entry s = some p → p.1 = k)
    (hfree : entry s = none → ∀ p ∈ bindings entry (before ++ s :: after), p.1 ≠ k) :
    Keyed entry (before ++ s' :: after) ∧
      bindings entry (before ++ s' :: after) =
        insert (k, v) ((bindings entry (before ++ s :: after)).filter (·.1 ≠ k)) := by
  rw [keyed_held hs', bindings_held hs']
  cases hentry : entry s with
  | none =>
    have hfree := hfree hentry
    rw [bindings, entries_free hentry] at hfree ⊢
    rw [Keyed, entries_free hentry] at h
    have hne : ∀ p ∈ entries entry before ++ entries entry after, p.1 ≠ k :=
      fun p hp ↦ hfree p (List.mem_toFinset.mpr hp)
    refine ⟨⟨hne, h⟩, ?_⟩
    rw [Finset.filter_true_of_mem hfree]
  | some p =>
    obtain rfl := hs p hentry
    rw [keyed_held hentry] at h
    refine ⟨h, ?_⟩
    have hne : ∀ q ∈ (entries entry before ++ entries entry after).toFinset, q.1 ≠ p.1 :=
      fun q hq ↦ h.1 q (List.mem_toFinset.mp hq)
    rw [bindings_held hentry, Finset.filter_insert, if_neg (not_not.mpr rfl),
      Finset.filter_true_of_mem hne]

/-- A slot that is freed. -/
theorem free {before after : List σ} {s s' : σ} {p : κ × ν}
    (h : Keyed entry (before ++ s :: after)) (hs : entry s = some p) (hs' : entry s' = none) :
    Keyed entry (before ++ s' :: after) ∧
      bindings entry (before ++ s' :: after) =
        (bindings entry (before ++ s :: after)).erase p := by
  rw [keyed_held hs] at h
  rw [Keyed, bindings, entries_free hs', bindings_held hs]
  refine ⟨h.2, ?_⟩
  rw [Finset.erase_insert]
  intro hp
  exact h.1 p (List.mem_toFinset.mp hp) rfl

/-- A slot that changes while nothing is bound in it. -/
theorem same {before after : List σ} {s s' : σ} (h : Keyed entry (before ++ s :: after))
    (hs : entry s = none) (hs' : entry s' = none) :
    Keyed entry (before ++ s' :: after) ∧
      bindings entry (before ++ s' :: after) = bindings entry (before ++ s :: after) := by
  rw [Keyed, entries_free hs] at h
  rw [Keyed, bindings, bindings, entries_free hs, entries_free hs']
  exact ⟨h, rfl⟩

end SlotTable
