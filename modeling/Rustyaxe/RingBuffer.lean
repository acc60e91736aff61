import Mathlib.Data.List.Induction
import Mathlib.Algebra.Order.Ring.Int
import Rustyaxe.Lib.LinkedList
import Rustyaxe.Lib.Runs

/-!
# Ring buffers

`ringbuffer.c`: a bounded list that drops its oldest item when it is full.

A buffer for one item frees the node that `tail` still points to, and then writes to it.  Any other
buffer is a queue of the last items that were added (`rbAdd_fifo_iff`).
-/

set_option autoImplicit false

namespace Rustyaxe

open LinkedList Runs

variable {α : Type}

/-! ## The code -/

/-- What is added: `data`, `needs_freed`, and the time of the call. -/
structure RbItem (α : Type) where
  data : α
  needsFreed : Bool
  timestamp : ℤ × ℤ

/-- `rb_node_t` -/
structure RbNode (α : Type) where
  item : RbItem α
  next : Option ℕ

/-- `rb_buffer_t`, and the heap: `malloc` gives out the addresses from `brk` on.  `released` is the
data that has been freed. -/
structure RbBuffer (α : Type) where
  maxSize : ℕ
  currentSize : ℕ
  head : Option ℕ
  tail : Option ℕ
  heap : ℕ → Option (RbNode α)
  brk : ℕ
  released : List α

/-- The conversion to `size_t`. -/
def toSize (n : ℤ) : ℕ := (n % 2 ^ 64).toNat

/-- `rb_create` -/
def rbCreate (maxSize : ℤ) : RbBuffer α where
  maxSize := toSize maxSize
  currentSize := 0
  head := none
  tail := none
  heap _ := none
  brk := 0
  released := []

/-- The full buffer of `rb_add` frees its head. -/
def rbMakeRoom (b : RbBuffer α) : Option (RbBuffer α) :=
  if b.currentSize = b.maxSize then do
    let head ← b.head
    let node ← b.heap head
    return { b with
      head := node.next
      heap := Function.update b.heap head none
      currentSize := b.currentSize - 1
      released := if node.item.needsFreed then b.released ++ [node.item.data] else b.released }
  else some b

/-- The end of `rb_add`: the node at this address goes behind the tail. -/
def rbLink (b : RbBuffer α) (node : ℕ) : Option (RbBuffer α) := do
  let tail ← b.tail
  let last ← b.heap tail
  return { b with
    heap := Function.update b.heap tail (some { last with next := some node })
    tail := some node
    currentSize := b.currentSize + 1 }

/-- `rb_add`; there is no result if memory is accessed that is not allocated. -/
def rbAdd (b : RbBuffer α) (item : RbItem α) : Option (RbBuffer α) :=
  let node := b.brk
  let b := { b with heap := Function.update b.heap node (some ⟨item, none⟩), brk := b.brk + 1 }
  if b.currentSize = 0 then
    some { b with head := some node, tail := some node, currentSize := b.currentSize + 1 }
  else do rbLink (← rbMakeRoom b) node

/-- `rb_get_range`: `some none` is `NULL`.  The sum of two `int` is taken modulo `2 ^ 32`. -/
def rbGetRange (b : RbBuffer α) (start count : ℤ) : Option (Option (List α)) :=
  if b.currentSize = 0 then some none
  else if start < 0 ∨ b.currentSize ≤ toSize start then some none
  else if count < 1 ∨ b.currentSize < toSize (Int.bmod (start + count) (2 ^ 32)) then some none
  else do
    let current ← advance RbNode.next b.heap start.toNat b.head
    return some ((← collect RbNode.next b.heap count.toNat current).map fun node ↦ node.item.data)

/-! ## What the buffer is for -/

/-- The nodes of the buffer, from the head to the tail. -/
structure RbNodes (b : RbBuffer α) (nodes : List (ℕ × RbNode α)) : Prop where
  segment : Segment RbNode.next b.heap b.head nodes none
  nodup : (nodes.map Prod.fst).Nodup
  lt_brk : ∀ a ∈ nodes.map Prod.fst, a < b.brk
  tail_eq : b.tail = (nodes.map Prod.fst).getLast?
  currentSize_eq : b.currentSize = nodes.length

/-- What of these items a bounded queue holds. -/
def lastItems (maxSize : ℕ) (items : List (RbItem α)) : List (RbItem α) :=
  items.drop (items.length - maxSize)

/-- **The buffer is a bounded queue** of these items: its nodes hold the last of them, and ranges
are read off them. -/
structure RbFifo (b : RbBuffer α) (maxSize : ℕ) (items : List (RbItem α)) : Prop where
  nodes : ∃ nodes, RbNodes b nodes ∧ nodes.map (fun n ↦ n.2.item) = lastItems maxSize items
  range : ∀ start count : ℤ, 0 ≤ start → start < 2 ^ 31 → 1 ≤ count → count < 2 ^ 31 →
    rbGetRange b start count =
      if start + count ≤ (lastItems maxSize items).length then
        some (some ((((lastItems maxSize items).drop start.toNat).take count.toNat).map RbItem.data))
      else some none

/-! ## Adding an item -/

section Add

variable {b : RbBuffer α} {nodes : List (ℕ × RbNode α)}

/-- A full buffer for more than one item drops the oldest. -/
theorem RbNodes.makeRoom (h : RbNodes b nodes) (hne : nodes ≠ []) (hmax : 2 ≤ b.maxSize) :
    ∃ b', rbMakeRoom b = some b' ∧
      RbNodes b' (if nodes.length = b.maxSize then nodes.tail else nodes) ∧
      b'.maxSize = b.maxSize ∧ b'.brk = b.brk ∧
      ∀ a, a ∉ nodes.map Prod.fst → b'.heap a = b.heap a := by
  rw [rbMakeRoom, h.currentSize_eq]
  split_ifs with hfull
  · obtain ⟨⟨a, n⟩, nodes, rfl⟩ := List.exists_cons_of_ne_nil hne
    have hrest : nodes ≠ [] := by
      rintro rfl
      rw [List.length_singleton] at hfull
      omega
    obtain ⟨hhead, ha, -⟩ := h.segment
    rw [hhead, Option.bind_eq_bind, Option.bind_some, ha]
    refine ⟨_, rfl, ⟨h.segment.tail_freed h.nodup, (List.nodup_cons.mp h.nodup).2, ?_, ?_, ?_⟩, rfl,
      rfl, fun c hc ↦ ?_⟩
    · exact fun c hc ↦ h.lt_brk c (List.mem_cons_of_mem _ hc)
    · have hlast := h.tail_eq
      rw [List.map_cons, List.getLast?_cons_of_ne_nil (by simpa using hrest)] at hlast
      exact hlast
    · rw [List.length_cons, List.tail_cons, Nat.add_sub_cancel]
    · exact Function.update_of_ne (fun hca : c = a ↦ hc (hca ▸ List.mem_cons_self)) _ _
  · exact ⟨b, rfl, h, rfl, rfl, fun _ _ ↦ rfl⟩

/-- The node of the new item takes its place behind the others. -/
theorem RbNodes.malloc (h : RbNodes b nodes) (node : RbNode α) :
    RbNodes { b with heap := Function.update b.heap b.brk (some node), brk := b.brk + 1 } nodes where
  segment := h.segment.congr fun a ha ↦ Function.update_of_ne (h.lt_brk a ha).ne _ _
  nodup := h.nodup
  lt_brk a ha := Nat.lt_succ_of_lt (h.lt_brk a ha)
  tail_eq := h.tail_eq
  currentSize_eq := h.currentSize_eq

/-- The node of the new item goes behind the others. -/
theorem RbNodes.link (h : RbNodes b nodes) (hne : nodes ≠ []) {node : ℕ} {item : RbItem α}
    (hfresh : node ∉ nodes.map Prod.fst) (hlt : node < b.brk)
    (hnode : b.heap node = some ⟨item, none⟩) :
    ∃ b' nodes', rbLink b node = some b' ∧ RbNodes b' nodes' ∧ b'.maxSize = b.maxSize ∧
      nodes'.map (fun n ↦ n.2.item) = nodes.map (fun n ↦ n.2.item) ++ [item] := by
  obtain ⟨l, ⟨a, n⟩, rfl⟩ := (List.eq_nil_or_concat' nodes).resolve_left hne
  have htail : b.tail = some a := by
    rw [h.tail_eq, List.map_append, List.map_singleton, List.getLast?_concat]
  have hlast : b.heap a = some n := h.segment.heap_eq (List.mem_append_right _ List.mem_cons_self)
  have haddrs : ((l ++ [(a, { n with next := some node })] ++
      [(node, (⟨item, none⟩ : RbNode α))]).map Prod.fst)
        = (l ++ [(a, n)]).map Prod.fst ++ [node] := by simp
  have hlink : rbLink b node = some { b with
      heap := Function.update b.heap a (some { n with next := some node })
      tail := some node
      currentSize := b.currentSize + 1 } := by
    rw [rbLink, htail, Option.bind_eq_bind, Option.bind_some, hlast]
    rfl
  refine ⟨_, l ++ [(a, { n with next := some node })] ++ [(node, ⟨item, none⟩)], hlink,
    ⟨h.segment.linked h.nodup hfresh hnode rfl rfl, ?_, ?_, ?_, ?_⟩, rfl, by simp⟩
  · rw [haddrs]
    exact List.nodup_append'.mpr ⟨h.nodup, List.nodup_singleton _, by simpa using hfresh⟩
  · intro c hc
    rw [haddrs, List.mem_append, List.mem_singleton] at hc
    exact hc.elim (h.lt_brk c) fun hc ↦ hc ▸ hlt
  · rw [haddrs, List.getLast?_concat]
  · have hsize := h.currentSize_eq
    simp only [List.length_append, List.length_singleton] at hsize ⊢
    omega

/-- **Adding an item** to a buffer for more than one, or to an empty one. -/
theorem RbNodes.add (h : RbNodes b nodes) (hmax : nodes = [] ∨ 2 ≤ b.maxSize) (item : RbItem α) :
    ∃ b' nodes', rbAdd b item = some b' ∧ RbNodes b' nodes' ∧ b'.maxSize = b.maxSize ∧
      nodes'.map (fun n ↦ n.2.item) =
        (if nodes ≠ [] ∧ nodes.length = b.maxSize then nodes.tail else nodes).map
          (fun n ↦ n.2.item) ++ [item] := by
  have hsize := h.currentSize_eq
  rw [rbAdd]
  by_cases hne : nodes = []
  · subst hne
    have hsize' : b.currentSize = 0 := hsize
    dsimp only
    rw [if_pos hsize']
    refine ⟨_, [(b.brk, ⟨item, none⟩)], rfl,
      ⟨⟨rfl, Function.update_self .., rfl⟩, List.nodup_singleton _, ?_, rfl, ?_⟩, rfl, by simp⟩
    · exact fun c hc ↦ (List.mem_singleton.mp hc) ▸ Nat.lt_succ_self _
    · rw [hsize', List.length_singleton]
  · have htwo := hmax.resolve_left hne
    have hpos : b.currentSize ≠ 0 := by
      rw [hsize]
      exact fun hzero ↦ hne (List.eq_nil_of_length_eq_zero hzero)
    obtain ⟨b', hroom, h', hmaxSize, hbrk, hframe⟩ := (h.malloc ⟨item, none⟩).makeRoom hne htwo
    dsimp only at hroom h' hmaxSize hbrk hframe ⊢
    have hfresh : b.brk ∉ nodes.map Prod.fst := fun hmem ↦ Nat.lt_irrefl _ (h.lt_brk _ hmem)
    have hnode : b'.heap b.brk = some ⟨item, none⟩ := by
      rw [hframe _ hfresh, Function.update_self]
    have hsub : (if nodes.length = b.maxSize then nodes.tail else nodes) ⊆ nodes := by
      split
      · exact List.tail_sublist nodes |>.subset
      · exact List.Subset.refl _
    -- what is left is not empty
    have hleft : (if nodes.length = b.maxSize then nodes.tail else nodes) ≠ [] := by
      split_ifs with hfull
      · refine List.ne_nil_of_length_pos ?_
        rw [List.length_tail]
        omega
      · exact hne
    obtain ⟨b'', nodes', hlink, h'', hmaxSize', hitems⟩ := h'.link hleft
      (fun hmem ↦ hfresh (List.map_subset _ hsub hmem)) (by omega) hnode
    have hkept : (if nodes ≠ [] ∧ nodes.length = b.maxSize then nodes.tail else nodes)
        = if nodes.length = b.maxSize then nodes.tail else nodes := by
      simp only [hne, ne_eq, not_false_eq_true, true_and]
    rw [if_neg hpos, hroom, hkept]
    exact ⟨b'', nodes', hlink, h'', hmaxSize'.trans hmaxSize, hitems⟩

/-- A full buffer for one item frees the node that it is about to write to. -/
theorem RbNodes.add_eq_none {n : ℕ × RbNode α} (h : RbNodes b [n]) (hmax : b.maxSize = 1)
    (item : RbItem α) : rbAdd b item = none := by
  obtain ⟨a, node⟩ := n
  have hsize := h.currentSize_eq
  have htail := h.tail_eq
  obtain ⟨hhead, hnode, -⟩ := h.segment
  have hne : a ≠ b.brk := (h.lt_brk a List.mem_cons_self).ne
  have htail' : b.tail = some a := htail
  have hsize' : b.currentSize = 1 := hsize
  simp [rbAdd, rbMakeRoom, rbLink, hsize', hmax, hhead, htail', Function.update_of_ne hne, hnode]

end Add

/-! ## Ranges -/

theorem toSize_natCast {n : ℕ} (h : n < 2 ^ 31) : toSize n = n := by
  rw [toSize]
  omega

/-- The wrapped sum of two numbers is beyond every size that there is. -/
theorem lt_toSize_add {start count : ℕ} (hstart : start < 2 ^ 31) (hcount : count < 2 ^ 31) {size : ℕ}
    (hsize : size < 2 ^ 31) :
    size < toSize (Int.bmod (start + count) (2 ^ 32)) ↔ size < start + count := by
  rw [toSize, Int.bmod_def]
  split <;> omega

/-- **A range is read off the nodes.** -/
theorem RbNodes.getRange {b : RbBuffer α} {nodes : List (ℕ × RbNode α)} (h : RbNodes b nodes)
    (hlen : nodes.length < 2 ^ 31) {start count : ℕ} (hstart : start < 2 ^ 31) (hpos : 1 ≤ count)
    (hcount : count < 2 ^ 31) :
    rbGetRange b start count =
      if start + count ≤ nodes.length then
        some (some (((nodes.drop start).take count).map fun n ↦ n.2.item.data))
      else some none := by
  have hsize := h.currentSize_eq
  have hover := lt_toSize_add hstart hcount hlen
  rw [rbGetRange, toSize_natCast hstart, hsize]
  simp only [hover]
  split_ifs with hzero hout hover hfits hfits hfits hfits
  · omega
  · rfl
  · omega
  · rfl
  · omega
  · rfl
  · obtain ⟨p, hp, hsegment⟩ := h.segment.advance_eq (show start ≤ nodes.length by omega)
    have hcollect := hsegment.collect_eq (n := count) (by rw [List.length_drop]; omega)
    rw [Int.toNat_natCast, Int.toNat_natCast, hp, Option.bind_eq_bind, Option.bind_some, hcollect,
      Option.bind_eq_bind, Option.bind_some, List.map_map]
    rfl
  · omega

/-! ## Runs -/

theorem length_lastItems (maxSize : ℕ) (items : List (RbItem α)) :
    (lastItems maxSize items).length = min items.length maxSize := by
  rw [lastItems, List.length_drop]
  omega

/-- One more item, and one less if there were enough. -/
theorem lastItems_concat {maxSize : ℕ} (hmax : 1 ≤ maxSize) (items : List (RbItem α))
    (item : RbItem α) :
    lastItems maxSize (items ++ [item]) =
      (if (lastItems maxSize items).length = maxSize then (lastItems maxSize items).tail
        else lastItems maxSize items) ++ [item] := by
  rw [length_lastItems, lastItems, List.length_append, List.length_singleton,
    List.drop_append_of_le_length (by omega)]
  congr 1
  split_ifs with hfull
  · rw [lastItems, List.tail_drop]
    congr 1
    omega
  · rw [lastItems]
    congr 1
    omega

/-- **A run of additions**, to a buffer for more than one item, or of no more than one. -/
theorem runSteps_rbAdd {maxSize : ℕ} (hmax : 1 ≤ maxSize) {b : RbBuffer α} (hb : RbNodes b [])
    (hsize : b.maxSize = maxSize) (items : List (RbItem α)) (hmany : 2 ≤ maxSize ∨ items.length ≤ 1) :
    ∃ b' nodes, runSteps rbAdd b items = some b' ∧ RbNodes b' nodes ∧ b'.maxSize = maxSize ∧
      nodes.map (fun n ↦ n.2.item) = lastItems maxSize items := by
  induction items using List.reverseRecOn with
  | nil => exact ⟨b, [], rfl, hb, hsize, by simp [lastItems]⟩
  | append_singleton items item ih =>
    rw [List.length_append, List.length_singleton] at hmany
    obtain ⟨b', nodes, hrun, h', hsize', hitems⟩ := ih (hmany.imp_right (by omega))
    have hlen : nodes.length = (lastItems maxSize items).length := by
      rw [← hitems, List.length_map]
    have hroom : nodes = [] ∨ 2 ≤ b'.maxSize := by
      rw [hsize']
      refine hmany.symm.imp_left fun hone ↦ List.eq_nil_of_length_eq_zero ?_
      rw [hlen, length_lastItems]
      omega
    obtain ⟨b'', nodes', hadd, h'', hsize'', hitems'⟩ := h'.add hroom item
    refine ⟨b'', nodes', by rw [runSteps_concat, hrun, Option.bind_some, hadd], h'',
      hsize''.trans hsize', ?_⟩
    rw [hitems', lastItems_concat hmax, ← hlen, ← hitems, hsize']
    have hne : nodes.length = maxSize → nodes ≠ [] := by
      rintro hfull rfl
      rw [← hfull] at hmax
      exact Nat.not_succ_le_zero 0 hmax
    by_cases hfull : nodes.length = maxSize
    · rw [if_pos ⟨hne hfull, hfull⟩, if_pos hfull, List.map_tail]
    · rw [if_neg fun h ↦ hfull h.2, if_neg hfull]

theorem rbNodes_create (maxSize : ℤ) : RbNodes (rbCreate maxSize : RbBuffer α) [] :=
  ⟨rfl, List.nodup_nil, by simp, rfl, rfl⟩

theorem RbNodes.fifo {b : RbBuffer α} {nodes : List (ℕ × RbNode α)} (h : RbNodes b nodes)
    {maxSize : ℕ} (hmax : maxSize < 2 ^ 31) {items : List (RbItem α)}
    (hitems : nodes.map (fun n ↦ n.2.item) = lastItems maxSize items) : RbFifo b maxSize items := by
  have hlen : nodes.length = (lastItems maxSize items).length := by rw [← hitems, List.length_map]
  refine ⟨⟨nodes, h, hitems⟩, fun start count hstart hstart' hcount hcount' ↦ ?_⟩
  obtain ⟨start, rfl⟩ := Int.eq_ofNat_of_zero_le hstart
  obtain ⟨count, rfl⟩ := Int.eq_ofNat_of_zero_le (Int.le_trans (by decide) hcount)
  have hlt : nodes.length < 2 ^ 31 := by
    rw [hlen, length_lastItems]
    omega
  rw [h.getRange hlt (by omega) (by omega) (by omega), hlen, ← hitems]
  by_cases hfits : start + count ≤ (nodes.map fun n ↦ n.2.item).length
  · rw [if_pos hfits, if_pos (by omega), ← List.map_drop, ← List.map_take, List.map_map]
    rfl
  · rw [if_neg hfits, if_neg (by omega)]

/-- **The buffer is a queue of the last items** exactly if it is for more than one item, or no more
than one is added: a buffer for one item writes to the node that it has just freed. -/
theorem rbAdd_fifo_iff {maxSize : ℤ} (hmax : 1 ≤ maxSize) (hint : maxSize < 2 ^ 31)
    (items : List (RbItem α)) :
    (∃ b, runSteps rbAdd (rbCreate maxSize) items = some b ∧ RbFifo b maxSize.toNat items) ↔
      2 ≤ maxSize ∨ items.length ≤ 1 := by
  obtain ⟨m, rfl⟩ := Int.eq_ofNat_of_zero_le (Int.le_trans (by decide) hmax)
  have hsize : (rbCreate (m : ℤ) : RbBuffer α).maxSize = m := toSize_natCast (by omega)
  constructor
  · rintro ⟨b, hrun, -⟩
    by_contra hone
    rw [not_or] at hone
    obtain ⟨x, y, rest, rfl⟩ : ∃ x y rest, items = x :: y :: rest := by
      cases items with
      | nil => exact (hone.2 (Nat.zero_le _)).elim
      | cons x items =>
        cases items with
        | nil => exact (hone.2 (Nat.le_refl _)).elim
        | cons y rest => exact ⟨x, y, rest, rfl⟩
    -- the second item does not get a place
    obtain ⟨b₁, nodes, hadd, h₁, hsize₁, hitems⟩ := (rbNodes_create m).add (.inl rfl) x
    obtain ⟨n, rfl⟩ : ∃ n, nodes = [n] := by
      rw [← List.length_eq_one_iff, ← List.length_map, hitems]
      simp
    rw [runSteps, List.foldlM_cons, hadd, Option.bind_eq_bind, Option.bind_some, List.foldlM_cons,
      h₁.add_eq_none (by rw [hsize₁, hsize]; omega)] at hrun
    cases hrun
  · intro hmany
    obtain ⟨b, nodes, hrun, h, -, hitems⟩ := runSteps_rbAdd (by omega) (rbNodes_create m) hsize items
      (hmany.imp_left (by omega))
    exact ⟨b, hrun, h.fifo (by omega) (by rwa [Int.toNat_natCast])⟩

/-- A number as an item. -/
def numberItem (n : ℕ) : RbItem ℕ := ⟨n, false, (0, 0)⟩

theorem rbAdd_fifo_four :
    (∃ b, runSteps rbAdd (rbCreate 4) ((List.range 8).map numberItem) = some b ∧
      RbFifo b 4 ((List.range 8).map numberItem)) ↔
      (2 : ℤ) ≤ 4 ∨ ((List.range 8).map numberItem).length ≤ 1 :=
  rbAdd_fifo_iff (by decide : (1 : ℤ) ≤ 4) (by decide) ((List.range 8).map numberItem)

/-- The second item for a buffer of one. -/
theorem not_rbAdd_fifo_one :
    ¬∃ b, runSteps rbAdd (rbCreate 1) [numberItem 0, numberItem 1] = some b ∧
      RbFifo b 1 [numberItem 0, numberItem 1] := by
  rintro ⟨b, hrun, -⟩
  have hnone : runSteps rbAdd (rbCreate 1) [numberItem 0, numberItem 1] = none := rfl
  rw [hnone] at hrun
  cases hrun

end Rustyaxe
