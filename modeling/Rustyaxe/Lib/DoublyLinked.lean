import Mathlib.Data.List.Infix
import Rustyaxe.Lib.LinkedList

/-!
# Doubly linked lists in a heap

`Span node heap before first l last after` says that the nodes of `l` are linked one behind the
other, in both directions, between the pointers `before` and `after`; `first` and `last` are the
pointers to its ends.  `node x prev next` is a node with this content and these pointers.

A span is not affected by what happens elsewhere (`Span.congr`), its ends can be linked to something
else (`Span.relink_after` and `Span.relink_before`), and it is a list of the nodes either way
(`Span.segments`).
-/

set_option autoImplicit false

namespace DoublyLinked

open LinkedList

variable {ν α : Type} (node : α → (prev next : Option ℕ) → ν)

/-- The nodes of `l`, linked in both directions. -/
def Span (heap : ℕ → Option ν) :
    (before first : Option ℕ) → List (ℕ × α) → (last after : Option ℕ) → Prop
  | before, first, [], last, after => first = after ∧ last = before
  | before, first, (a, x) :: l, last, after =>
    first = some a ∧ ∃ next, heap a = some (node x before next) ∧
      Span heap (some a) next l last after

variable {node} {heap heap' : ℕ → Option ν} {before first last after : Option ℕ}
  {l l' : List (ℕ × α)}

theorem span_append : Span node heap before first (l ++ l') last after ↔
    ∃ p q, Span node heap before first l p q ∧ Span node heap p q l' last after := by
  induction l generalizing before first with
  | nil =>
    constructor
    · exact fun h ↦ ⟨before, first, ⟨rfl, rfl⟩, h⟩
    · rintro ⟨_, _, ⟨rfl, rfl⟩, h⟩
      exact h
  | cons x l ih =>
    rw [List.cons_append, Span]
    constructor
    · rintro ⟨hfirst, next, hx, hspan⟩
      obtain ⟨p, q, hl, hl'⟩ := ih.mp hspan
      exact ⟨p, q, ⟨hfirst, next, hx, hl⟩, hl'⟩
    · rintro ⟨p, q, ⟨hfirst, next, hx, hl⟩, hl'⟩
      exact ⟨hfirst, next, hx, ih.mpr ⟨p, q, hl, hl'⟩⟩

/-- A span ends with its last node. -/
theorem span_concat {a : ℕ} {x : α} : Span node heap before first (l ++ [(a, x)]) last after ↔
    ∃ prev, last = some a ∧ heap a = some (node x prev after) ∧
      Span node heap before first l prev (some a) := by
  rw [span_append]
  constructor
  · rintro ⟨p, _, hl, rfl, next, hx, rfl, rfl⟩
    exact ⟨p, rfl, hx, hl⟩
  · rintro ⟨p, rfl, hx, hl⟩
    exact ⟨p, some a, hl, rfl, after, hx, rfl, rfl⟩

namespace Span

/-- A span is not affected by what happens elsewhere in the heap. -/
theorem congr (h : Span node heap before first l last after)
    (hheap : ∀ a ∈ l.map Prod.fst, heap' a = heap a) :
    Span node heap' before first l last after := by
  induction l generalizing before first with
  | nil => exact h
  | cons x l ih =>
    obtain ⟨hfirst, next, hx, hspan⟩ := h
    exact ⟨hfirst, next, (hheap x.1 List.mem_cons_self).trans hx,
      ih hspan fun a ha ↦ hheap a (List.mem_cons_of_mem _ ha)⟩

theorem update (h : Span node heap before first l last after) {a : ℕ} (ha : a ∉ l.map Prod.fst)
    (n : Option ν) : Span node (Function.update heap a n) before first l last after :=
  h.congr fun b hb ↦ Function.update_of_ne (fun hba : b = a ↦ ha (hba ▸ hb)) _ _

/-- The pointer to the first node. -/
theorem first_eq (h : Span node heap before first l last none) :
    first = l.head?.map Prod.fst := by
  cases l with
  | nil => exact h.1
  | cons x l => exact h.1

/-- **The last node is linked to something else.** -/
theorem relink_after {a : ℕ} {x : α} (h : Span node heap before first (l ++ [(a, x)]) last after)
    (hnodup : ((l ++ [(a, x)]).map Prod.fst).Nodup) (after' : Option ℕ) :
    ∃ prev, last = some a ∧ heap a = some (node x prev after) ∧
      Span node (Function.update heap a (some (node x prev after'))) before first
        (l ++ [(a, x)]) last after' := by
  obtain ⟨prev, rfl, hx, hl⟩ := span_concat.mp h
  rw [List.map_append, List.nodup_append'] at hnodup
  refine ⟨prev, rfl, hx, span_concat.mpr ⟨prev, rfl, Function.update_self .., hl.update ?_ _⟩⟩
  exact fun ha ↦ hnodup.2.2 ha List.mem_cons_self

/-- **The first node is linked to something else.** -/
theorem relink_before {a : ℕ} {x : α} (h : Span node heap before first ((a, x) :: l) last after)
    (hnodup : (((a, x) :: l).map Prod.fst).Nodup) (before' : Option ℕ) :
    ∃ next, first = some a ∧ heap a = some (node x before next) ∧
      Span node (Function.update heap a (some (node x before' next))) before' first
        ((a, x) :: l) last after := by
  obtain ⟨rfl, next, hx, hl⟩ := h
  refine ⟨next, rfl, hx, rfl, next, Function.update_self .., hl.update ?_ _⟩
  exact (List.nodup_cons.mp hnodup).1

/-- **A span is a list either way.** -/
theorem segments (next prev : ν → Option ℕ) (content : ν → α)
    (hnext : ∀ x p q, next (node x p q) = q) (hprev : ∀ x p q, prev (node x p q) = p)
    (hcontent : ∀ x p q, content (node x p q) = x)
    (h : Span node heap before first l last after) :
    ∃ nodes : List (ℕ × ν), nodes.map (fun n ↦ (n.1, content n.2)) = l ∧
      Segment next heap first nodes after ∧ Segment prev heap last nodes.reverse before := by
  induction l generalizing before first with
  | nil =>
    obtain ⟨rfl, rfl⟩ := h
    exact ⟨[], rfl, rfl, rfl⟩
  | cons x l ih =>
    obtain ⟨rfl, q, hx, hspan⟩ := h
    obtain ⟨nodes, rfl, hforward, hbackward⟩ := ih hspan
    refine ⟨(x.1, node x.2 before q) :: nodes, ?_, ⟨rfl, hx, ?_⟩, ?_⟩
    · rw [List.map_cons, hcontent]
    · rw [hnext]
      exact hforward
    · rw [List.reverse_cons]
      exact segment_append.mpr ⟨some x.1, hbackward, rfl, hx, hprev _ _ _⟩

end Span

end DoublyLinked
