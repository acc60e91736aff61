import Mathlib.Data.List.Nodup
import Mathlib.Logic.Function.Basic

/-!
# Linked lists in a heap

A heap gives what is at an address, or nothing where nothing is allocated.  `Segment next heap p l
q` says that the nodes met on the way from the pointer `p` to the pointer `q` are those of `l`, each
with its address; `next` is the pointer of a node to the one behind it.

A list is a segment that ends with the null pointer.  `Segment.tail_freed` takes the first node off
it, and `Segment.linked` puts one behind the last.
-/

set_option autoImplicit false

namespace LinkedList

variable {ν : Type} (next : ν → Option ℕ)

/-- From `p` to `q`, by way of these nodes. -/
def Segment (heap : ℕ → Option ν) : Option ℕ → List (ℕ × ν) → Option ℕ → Prop
  | p, [], q => p = q
  | p, (a, n) :: l, q => p = some a ∧ heap a = some n ∧ Segment heap (next n) l q

/-- `for (; n; n--) p = p->next`; there is nothing behind a null pointer. -/
def advance (heap : ℕ → Option ν) : ℕ → Option ℕ → Option (Option ℕ)
  | 0, p => some p
  | n + 1, p => do
    let node ← heap (← p)
    advance heap n (next node)

/-- The nodes from `p` on, so many of them. -/
def collect (heap : ℕ → Option ν) : ℕ → Option ℕ → Option (List ν)
  | 0, _ => some []
  | n + 1, p => do
    let node ← heap (← p)
    return node :: (← collect heap n (next node))

variable {next} {heap heap' : ℕ → Option ν} {p q r : Option ℕ} {l l' : List (ℕ × ν)}

theorem segment_append :
    Segment next heap p (l ++ l') r ↔ ∃ q, Segment next heap p l q ∧ Segment next heap q l' r := by
  induction l generalizing p with
  | nil => simp [Segment]
  | cons x l ih =>
    rw [List.cons_append, Segment, ih]
    constructor
    · rintro ⟨hp, hx, q, hl, hl'⟩
      exact ⟨q, ⟨hp, hx, hl⟩, hl'⟩
    · rintro ⟨q, ⟨hp, hx, hl⟩, hl'⟩
      exact ⟨hp, hx, q, hl, hl'⟩

namespace Segment

/-- A segment is not affected by what happens elsewhere in the heap. -/
theorem congr (h : Segment next heap p l q) (hheap : ∀ a ∈ l.map Prod.fst, heap' a = heap a) :
    Segment next heap' p l q := by
  induction l generalizing p with
  | nil => exact h
  | cons x l ih =>
    obtain ⟨hp, hx, hl⟩ := h
    refine ⟨hp, (hheap x.1 List.mem_cons_self).trans hx, ih hl fun a ha ↦ ?_⟩
    exact hheap a (List.mem_cons_of_mem _ ha)

theorem heap_eq (h : Segment next heap p l q) {a : ℕ} {n : ν} (hmem : (a, n) ∈ l) :
    heap a = some n := by
  induction l generalizing p with
  | nil => cases hmem
  | cons x l ih =>
    obtain ⟨-, hx, hl⟩ := h
    rcases List.mem_cons.mp hmem with rfl | hmem
    · exact hx
    · exact ih hl hmem

/-- **The first node is freed**, and the list begins with the next one. -/
theorem tail_freed {a : ℕ} {n : ν} (h : Segment next heap p ((a, n) :: l) q)
    (hnodup : (((a, n) :: l).map Prod.fst).Nodup) :
    Segment next (Function.update heap a none) (next n) l q := by
  refine h.2.2.congr fun b hb ↦ Function.update_of_ne ?_ _ _
  rintro rfl
  exact (List.nodup_cons.mp hnodup).1 hb

/-- **A node is put behind the last one**, whose pointer is set to it. -/
theorem linked {a b : ℕ} {n n' m : ν} (h : Segment next heap p (l ++ [(a, n)]) none)
    (hnodup : ((l ++ [(a, n)]).map Prod.fst).Nodup) (hb : b ∉ (l ++ [(a, n)]).map Prod.fst)
    (hheap : heap b = some m) (hn' : next n' = some b) (hm : next m = none) :
    Segment next (Function.update heap a (some n')) p (l ++ [(a, n')] ++ [(b, m)]) none := by
  obtain ⟨q, hl, hq, -, -⟩ := segment_append.mp h
  rw [List.map_append, List.nodup_append'] at hnodup
  have hba : b ≠ a := fun hba ↦ hb (by simp [hba])
  refine segment_append.mpr ⟨some b, segment_append.mpr ⟨q, hl.congr fun c hc ↦ ?_, ?_⟩, ?_⟩
  · have hca : c ≠ a := fun hca ↦ hnodup.2.2 hc (hca ▸ List.mem_cons_self)
    exact Function.update_of_ne hca _ _
  · exact ⟨hq, Function.update_self .., hn'⟩
  · exact ⟨rfl, by rw [Function.update_of_ne hba, hheap], hm⟩

/-- The way to the node at some place of the list. -/
theorem advance_eq {n : ℕ} (h : Segment next heap p l q) (hn : n ≤ l.length) :
    ∃ p', advance next heap n p = some p' ∧ Segment next heap p' (l.drop n) q := by
  induction n generalizing p l with
  | zero => exact ⟨p, rfl, h⟩
  | succ n ih =>
    cases l with
    | nil => cases hn
    | cons x l =>
      obtain ⟨rfl, hx, hl⟩ := h
      obtain ⟨p', hp', hl'⟩ := ih hl (Nat.le_of_succ_le_succ hn)
      exact ⟨p', by rw [advance, Option.bind_eq_bind, Option.bind_some, hx]; exact hp', hl'⟩

/-- The nodes of the list, so many of them. -/
theorem collect_eq {n : ℕ} (h : Segment next heap p l q) (hn : n ≤ l.length) :
    collect next heap n p = some ((l.take n).map Prod.snd) := by
  induction n generalizing p l with
  | zero => rfl
  | succ n ih =>
    cases l with
    | nil => cases hn
    | cons x l =>
      obtain ⟨rfl, hx, hl⟩ := h
      have hrest := ih hl (Nat.le_of_succ_le_succ hn)
      rw [collect, Option.bind_eq_bind, Option.bind_some, hx, Option.bind_eq_bind, Option.bind_some,
        hrest]
      rfl

end Segment

end LinkedList
