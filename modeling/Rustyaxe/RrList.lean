import Rustyaxe.Lib.DoublyLinked
import Rustyaxe.Lib.Runs

/-!
# The doubly linked list

`rrlist_add` and `rrlist_remove` of `list.c`, on the nodes of a heap.  Lists of the library share
their memory, and the caller keeps the pointer to the first node.

`listStep` is a call, and `specStep` what it is to do with the sequence of the nodes.  A call that
may be made does that, in both directions of the links, and leaves alone what is not in the list
(`Lists`).
-/

set_option autoImplicit false

namespace Rustyaxe

open DoublyLinked LinkedList Runs

/-! ## The code -/

/-- `rrlist_t`; `none` is `NULL`. -/
structure Rrlist where
  ptr : Option ℕ
  prev : Option ℕ
  next : Option ℕ
  deriving DecidableEq, Repr

/-- `enum rrlist_direction`, or what else a caller has cast to it. -/
inductive RrlistDirection where
  | listTail
  | listHead
  | other (direction : ℕ)
  deriving DecidableEq, Repr

/-- The memory of the nodes, and what `list` points to; a `list` that is `NULL` is `none`. -/
structure ListState where
  heap : ℕ → Option Rrlist
  list : Option (Option ℕ)

/-- An assignment to fields of the node at `a`. -/
def setNode (heap : ℕ → Option Rrlist) (a : ℕ) (f : Rrlist → Rrlist) :
    Option (ℕ → Option Rrlist) := do
  return Function.update heap a (some (f (← heap a)))

/-- `while (lp->next) lp = lp->next`, for less than so many nodes. -/
def lastNode (heap : ℕ → Option Rrlist) : (fuel lp : ℕ) → Option ℕ
  | 0, _ => none
  | fuel + 1, lp => do
    match (← heap lp).next with
    | none => some lp
    | some next => lastNode heap fuel next

/-- `rrlist_add`, where `calloc` has returned the address `calloc`. -/
def rrlistAdd (fuel : ℕ) (s : ListState) (calloc ptr : Option ℕ) (direction : RrlistDirection) :
    Option (ListState × Option ℕ) :=
  match s.list, ptr, calloc with
  | some list, some ptr, some np => do
    let heap := Function.update s.heap np (some ⟨none, none, none⟩)
    let heap ← setNode heap np ({ · with ptr := some ptr })
    match list with
    | none => some (⟨heap, some (some np)⟩, some np)
    | some first =>
      match direction with
      | .listHead =>
        let heap ← setNode heap np ({ · with next := some first })
        let heap ← setNode heap first ({ · with prev := some np })
        return (⟨heap, some (some np)⟩, some np)
      | .listTail =>
        let lp ← lastNode heap fuel first
        let heap ← setNode heap lp ({ · with next := some np })
        let heap ← setNode heap np ({ · with prev := some lp })
        return (⟨heap, some (some first)⟩, some np)
      | .other _ => return (⟨Function.update heap np none, some (some first)⟩, none)
  | _, _, _ => some (s, none)

/-- `if (p) p->… = …` -/
def setLink (heap : ℕ → Option Rrlist) (p : Option ℕ) (f : Rrlist → Rrlist) :
    Option (ℕ → Option Rrlist) :=
  match p with
  | none => some heap
  | some p => setNode heap p f

/-- `rrlist_remove` -/
def rrlistRemove (s : ListState) (lp : Option ℕ) : Option (ListState × Option ℕ) :=
  match s.list, lp with
  | some (some first), some lp => do
    let node ← s.heap lp
    let heap ← setLink s.heap node.prev ({ · with next := node.next })
    let node ← heap lp
    let heap ← setLink heap node.next ({ · with prev := node.prev })
    let node ← heap lp
    let list := if lp = first then node.next else some first
    return (⟨Function.update heap lp none, some list⟩, node.next)
  | _, _ => some (s, none)

/-! ## Runs -/

/-- A call on the list, with the address that `calloc` returns. -/
inductive ListCall where
  | add (calloc ptr : Option ℕ) (direction : RrlistDirection)
  | remove (lp : Option ℕ)
  deriving DecidableEq, Repr

/-- A call, with what it returns. -/
def listCall (fuel : ℕ) (s : ListState) : ListCall → Option (ListState × Option ℕ)
  | .add calloc ptr direction => rrlistAdd fuel s calloc ptr direction
  | .remove lp => rrlistRemove s lp

/-- A call in a run, which collects what the calls return. -/
def listStep (fuel : ℕ) (s : ListState × List (Option ℕ)) (c : ListCall) :
    Option (ListState × List (Option ℕ)) := do
  let (s', r) ← listCall fuel s.1 c
  return (s', s.2 ++ [r])

/-- What a call is to do with the sequence of the nodes, each with its address, and what it is to
return.  There is no result for a call that may not be made; memory that is in use elsewhere is not
allocated again. -/
def specCall (used : ℕ → Bool) (l : List (ℕ × Option ℕ)) :
    ListCall → Option (List (ℕ × Option ℕ) × Option ℕ)
  | .add (some np) (some ptr) direction =>
    if used np ∨ np ∈ l.map Prod.fst then none
    else
      match direction with
      | .listHead => some ((np, some ptr) :: l, some np)
      | .listTail => some (l ++ [(np, some ptr)], some np)
      | .other _ => none
  | .add _ _ _ => none
  | .remove (some lp) =>
    if lp ∈ l.map Prod.fst then
      some (l.eraseP (·.1 = lp), (((l.dropWhile (·.1 ≠ lp)).drop 1).head?).map Prod.fst)
    else none
  | .remove none => none

/-- A call in a run, as it is to be. -/
def specStep (used : ℕ → Bool) (s : List (ℕ × Option ℕ) × List (Option ℕ)) (c : ListCall) :
    Option (List (ℕ × Option ℕ) × List (Option ℕ)) := do
  let (l, r) ← specCall used s.1 c
  return (l, s.2 ++ [r])

/-! ## What the memory holds -/

/-- A node with this pointer, between two others. -/
def nodeBetween (ptr prev next : Option ℕ) : Rrlist := ⟨ptr, prev, next⟩

/-- The list has these nodes, and they were not in the memory at first, where nothing else has
changed. -/
structure Lists (heap₀ : ℕ → Option Rrlist) (s : ListState) (l : List (ℕ × Option ℕ)) : Prop where
  span : ∃ first last, s.list = some first ∧ Span nodeBetween s.heap none first l last none
  nodup : (l.map Prod.fst).Nodup
  elsewhere : ∀ a, a ∉ l.map Prod.fst → s.heap a = heap₀ a
  new : ∀ a ∈ l.map Prod.fst, heap₀ a = none

theorem lists_empty (heap₀ : ℕ → Option Rrlist) : Lists heap₀ ⟨heap₀, some none⟩ [] where
  span := ⟨none, none, rfl, rfl, rfl⟩
  nodup := List.nodup_nil
  elsewhere _ _ := rfl
  new _ ha := absurd ha List.not_mem_nil

/-- **The list can be walked in both directions**, and meets the same nodes. -/
theorem Lists.segments {heap₀ : ℕ → Option Rrlist} {s : ListState} {l : List (ℕ × Option ℕ)}
    (h : Lists heap₀ s l) : ∃ first last nodes, s.list = some first ∧
      nodes.map (fun n : ℕ × Rrlist ↦ (n.1, n.2.ptr)) = l ∧
      Segment Rrlist.next s.heap first nodes none ∧
      Segment Rrlist.prev s.heap last nodes.reverse none := by
  obtain ⟨first, last, hlist, hspan⟩ := h.span
  obtain ⟨nodes, hnodes, hforward, hbackward⟩ := hspan.segments Rrlist.next Rrlist.prev Rrlist.ptr
    (fun _ _ _ ↦ rfl) (fun _ _ _ ↦ rfl) fun _ _ _ ↦ rfl
  exact ⟨first, last, nodes, hlist, hnodes, hforward, hbackward⟩

theorem setNode_eq {heap : ℕ → Option Rrlist} {a : ℕ} {n : Rrlist} (h : heap a = some n)
    (f : Rrlist → Rrlist) : setNode heap a f = some (Function.update heap a (some (f n))) := by
  rw [setNode, h]
  rfl

theorem lastNode_eq {heap : ℕ → Option Rrlist} {l : List (ℕ × Option ℕ)} : ∀ {fuel a : ℕ}
    {x before last : Option ℕ}, Span nodeBetween heap before (some a) ((a, x) :: l) last none →
      l.length < fuel → lastNode heap fuel a = last := by
  induction l with
  | nil =>
    rintro (_ | fuel) a x before last ⟨-, next, ha, rfl, rfl⟩ hfuel
    · cases hfuel
    · rw [lastNode, ha]
      rfl
  | cons y l ih =>
    rintro (_ | fuel) a x before last ⟨-, _, ha, hspan⟩ hfuel
    · cases hfuel
    · obtain ⟨rfl, -⟩ := id hspan
      rw [lastNode, ha]
      exact ih hspan (Nat.lt_of_succ_lt_succ hfuel)

/-! ## Adding a node -/

/-- The node that is allocated, once its pointer has been set. -/
theorem setNode_new (heap : ℕ → Option Rrlist) (np : ℕ) (n : Rrlist) (f : Rrlist → Rrlist) :
    setNode (Function.update heap np (some n)) np f =
      some (Function.update heap np (some (f n))) := by
  rw [setNode_eq (Function.update_self ..), Function.update_idem]

section Add

variable {heap₀ : ℕ → Option Rrlist} {s : ListState} {l : List (ℕ × Option ℕ)} {np : ℕ}

/-- The nodes of a list that a new one has been put in. -/
theorem Lists.added (h : Lists heap₀ s l) (hnew : heap₀ np = none) (hnp : np ∉ l.map Prod.fst)
    {heap : ℕ → Option Rrlist} {first last : Option ℕ} {l' : List (ℕ × Option ℕ)}
    (hl' : (l'.map Prod.fst).Perm (np :: l.map Prod.fst))
    (hspan : Span nodeBetween heap none first l' last none)
    (helse : ∀ a, a ∉ np :: l.map Prod.fst → heap a = s.heap a) :
    Lists heap₀ ⟨heap, some first⟩ l' where
  span := ⟨first, last, rfl, hspan⟩
  nodup := hl'.nodup_iff.mpr (List.nodup_cons.mpr ⟨hnp, h.nodup⟩)
  elsewhere a ha := by
    rw [hl'.mem_iff] at ha
    exact (helse a ha).trans (h.elsewhere a fun hmem ↦ ha (List.mem_cons_of_mem _ hmem))
  new a ha := by
    rw [hl'.mem_iff, List.mem_cons] at ha
    rcases ha with rfl | ha
    · exact hnew
    · exact h.new a ha

/-- The first node, wherever it is to be put. -/
theorem rrlistAdd_empty (h : Lists heap₀ s []) (hnew : heap₀ np = none) (fuel ptr : ℕ)
    (direction : RrlistDirection) :
    ∃ s', rrlistAdd fuel s (some np) (some ptr) direction = some (s', some np) ∧
      Lists heap₀ s' [(np, some ptr)] := by
  obtain ⟨first, last, hlist, hspan⟩ := h.span
  obtain rfl : first = none := hspan.1
  have hsingle : Span nodeBetween (Function.update s.heap np (some ⟨some ptr, none, none⟩)) none
      (some np) [(np, some ptr)] (some np) none :=
    ⟨rfl, none, Function.update_self .., rfl, rfl⟩
  refine ⟨_, ?_, h.added hnew List.not_mem_nil (List.Perm.refl _) hsingle fun a ha ↦ ?_⟩
  · simp only [rrlistAdd, hlist, setNode_new, Option.bind_eq_bind, Option.bind_some]
  · exact Function.update_of_ne (List.ne_of_not_mem_cons ha) _ _

/-- **A node is put in front.** -/
theorem rrlistAdd_head (h : Lists heap₀ s l) (hnew : heap₀ np = none) (hnp : np ∉ l.map Prod.fst)
    (fuel ptr : ℕ) : ∃ s', rrlistAdd fuel s (some np) (some ptr) .listHead = some (s', some np) ∧
      Lists heap₀ s' ((np, some ptr) :: l) := by
  cases l with
  | nil => exact rrlistAdd_empty h hnew fuel ptr .listHead
  | cons x l =>
    obtain ⟨first, last, hlist, hspan⟩ := h.span
    have hupdated := hspan.update hnp (some ⟨some ptr, none, some x.1⟩)
    obtain ⟨next, rfl, hx, hrelinked⟩ := hupdated.relink_before h.nodup (some np)
    have hne : np ≠ x.1 := fun he ↦ hnp (he ▸ List.mem_cons_self)
    refine ⟨_, ?_, h.added hnew hnp (List.Perm.refl _) ⟨rfl, some x.1, ?_, hrelinked⟩
      fun a ha ↦ ?_⟩
    · simp only [rrlistAdd, hlist, setNode_new, Option.bind_eq_bind, Option.bind_some,
        setNode_eq hx]
      rfl
    · rw [Function.update_of_ne hne, Function.update_self]
      rfl
    · rw [List.mem_cons, not_or] at ha
      have hax : a ≠ x.1 := fun he ↦ ha.2 (he ▸ List.mem_cons_self)
      rw [Function.update_of_ne hax, Function.update_of_ne ha.1]

/-- **A node is put behind the last one.** -/
theorem rrlistAdd_tail (h : Lists heap₀ s l) (hnew : heap₀ np = none) (hnp : np ∉ l.map Prod.fst)
    {fuel : ℕ} (hfuel : l.length ≤ fuel) (ptr : ℕ) :
    ∃ s', rrlistAdd fuel s (some np) (some ptr) .listTail = some (s', some np) ∧
      Lists heap₀ s' (l ++ [(np, some ptr)]) := by
  have hperm : ((l ++ [(np, some ptr)]).map Prod.fst).Perm (np :: l.map Prod.fst) := by
    rw [List.map_append]
    exact List.perm_append_singleton np (l.map Prod.fst)
  cases l with
  | nil => exact rrlistAdd_empty h hnew fuel ptr .listTail
  | cons x l =>
    obtain ⟨first, last, hlist, hspan⟩ := h.span
    obtain rfl : first = some x.1 := hspan.1
    have hupdated := hspan.update hnp (some ⟨some ptr, none, none⟩)
    have hlast := lastNode_eq hupdated hfuel
    -- the list has a last node too
    obtain ⟨init, y, hl⟩ : ∃ init y, x :: l = init ++ [y] :=
      ⟨_, _, (List.dropLast_append_getLast (List.cons_ne_nil x l)).symm⟩
    rw [hl] at hupdated hspan hnp h hperm ⊢
    obtain ⟨prev, rfl, hy, hrelinked⟩ := hupdated.relink_after h.nodup (some np)
    have hne : np ≠ y.1 := fun he ↦ hnp (he ▸ by simp)
    have hnext : setNode (Function.update s.heap np (some ⟨some ptr, none, none⟩)) y.1
        ({ · with next := some np }) =
          some (Function.update (Function.update s.heap np (some ⟨some ptr, none, none⟩)) y.1
            (some (nodeBetween y.2 prev (some np)))) := setNode_eq hy _
    have hprev : setNode (Function.update (Function.update s.heap np (some ⟨some ptr, none, none⟩))
        y.1 (some (nodeBetween y.2 prev (some np)))) np ({ · with prev := some y.1 }) = _ :=
      setNode_eq (n := ⟨some ptr, none, none⟩)
        ((Function.update_of_ne hne _ _).trans (Function.update_self ..)) _
    refine ⟨_, ?_, h.added hnew hnp hperm
      (span_concat.mpr ⟨some y.1, rfl, Function.update_self .., hrelinked.update hnp _⟩)
        fun a ha ↦ ?_⟩
    · simp only [rrlistAdd, hlist, setNode_new, Option.bind_eq_bind, Option.bind_some, hlast, hnext,
        hprev]
      rfl
    · rw [List.mem_cons, not_or] at ha
      have hay : a ≠ y.1 := fun he ↦ ha.2 (he ▸ by simp)
      rw [Function.update_of_ne ha.1, Function.update_of_ne hay, Function.update_of_ne ha.1]

end Add

/-! ## Removing a node -/

section Remove

variable {heap : ℕ → Option Rrlist} {first last p q : Option ℕ} {l : List (ℕ × Option ℕ)}

/-- `if (lp->prev) lp->prev->next = q` -/
theorem setLink_prev (h : Span nodeBetween heap none first l p q) (hnodup : (l.map Prod.fst).Nodup)
    (q' : Option ℕ) : ∃ heap', setLink heap p ({ · with next := q' }) = some heap' ∧
      Span nodeBetween heap' none (if l = [] then q' else first) l p q' ∧
      ∀ b, b ∉ l.map Prod.fst → heap' b = heap b := by
  rcases List.eq_nil_or_concat l with rfl | ⟨init, y, rfl⟩
  · obtain ⟨-, rfl⟩ := h
    exact ⟨heap, rfl, ⟨if_pos rfl, rfl⟩, fun _ _ ↦ rfl⟩
  · rw [List.concat_eq_append] at h hnodup ⊢
    obtain ⟨prev, rfl, hy, hrelinked⟩ := h.relink_after hnodup q'
    refine ⟨_, setNode_eq hy _, ?_, fun b hb ↦ Function.update_of_ne ?_ _ _⟩
    · rw [if_neg (List.append_ne_nil_of_right_ne_nil _ (List.cons_ne_nil _ _))]
      exact hrelinked
    · exact fun he ↦ hb (he ▸ by simp)

/-- `if (lp->next) lp->next->prev = p` -/
theorem setLink_next (h : Span nodeBetween heap p q l last none) (hnodup : (l.map Prod.fst).Nodup)
    (p' : Option ℕ) : ∃ heap', setLink heap q ({ · with prev := p' }) = some heap' ∧
      (∃ last', Span nodeBetween heap' p' q l last' none) ∧
      ∀ b, b ∉ l.map Prod.fst → heap' b = heap b := by
  cases l with
  | nil =>
    obtain ⟨rfl, -⟩ := h
    exact ⟨heap, rfl, ⟨p', rfl, rfl⟩, fun _ _ ↦ rfl⟩
  | cons y l =>
    obtain ⟨next, rfl, hy, hrelinked⟩ := h.relink_before hnodup p'
    refine ⟨_, setNode_eq hy _, ⟨last, hrelinked⟩, fun b hb ↦ Function.update_of_ne ?_ _ _⟩
    exact fun he ↦ hb (he ▸ List.mem_cons_self)

end Remove

/-- **A node is taken out**, and the one behind it is returned. -/
theorem rrlistRemove_lists {heap₀ : ℕ → Option Rrlist} {s : ListState}
    {pre post : List (ℕ × Option ℕ)} {lp : ℕ} {x : Option ℕ}
    (h : Lists heap₀ s (pre ++ (lp, x) :: post)) :
    ∃ s', rrlistRemove s (some lp) = some (s', post.head?.map Prod.fst) ∧
      Lists heap₀ s' (pre ++ post) := by
  obtain ⟨first, last, hlist, hspan⟩ := h.span
  have hnodup := h.nodup
  rw [List.map_append, List.map_cons, List.nodup_middle, List.nodup_cons, List.mem_append, not_or,
    List.nodup_append'] at hnodup
  obtain ⟨⟨hpre, hpost⟩, hnodup₁, hnodup₂, hdisjoint⟩ := hnodup
  obtain ⟨p, _, hspan₁, rfl, q, hlp, hspan₂⟩ := span_append.mp hspan
  -- the links of the nodes before it and behind it
  obtain ⟨heap₁, hset₁, hlinked₁, helse₁⟩ := setLink_prev hspan₁ hnodup₁ q
  have hkept₂ : Span nodeBetween heap₁ (some lp) q post last none :=
    hspan₂.congr fun b hb ↦ helse₁ b fun hb' ↦ hdisjoint hb' hb
  obtain ⟨heap₂, hset₂, ⟨last', hlinked₂⟩, helse₂⟩ := setLink_next hkept₂ hnodup₂ p
  have hkept₁ : Span nodeBetween heap₂ none (if pre = [] then q else first) pre p q :=
    hlinked₁.congr fun b hb ↦ helse₂ b (hdisjoint hb)
  have hlp₁ : heap₁ lp = some (nodeBetween x p q) := (helse₁ lp hpre).trans hlp
  have hlp₂ : heap₂ lp = some (nodeBetween x p q) := (helse₂ lp hpost).trans hlp₁
  obtain ⟨f, rfl, hf⟩ : ∃ f, first = some f ∧ (lp = f ↔ pre = []) := by
    cases pre with
    | nil => exact ⟨lp, hspan.1, by simp⟩
    | cons y pre => exact ⟨y.1, hspan.1, by simpa using fun he ↦ hpre (by simp [he])⟩
  refine ⟨⟨Function.update heap₂ lp none, some (if lp = f then q else some f)⟩, ?_,
    ⟨_, last', rfl, span_append.mpr ⟨p, q, ?_, hlinked₂.update hpost none⟩⟩, ?_, fun a ha ↦ ?_,
    fun a ha ↦ h.new a ?_⟩
  · rw [← hspan₂.first_eq]
    simp only [rrlistRemove, hlist, hlp, hlp₁, hlp₂, nodeBetween, hset₁, hset₂, Option.bind_eq_bind,
      Option.bind_some]
    rfl
  · simp only [hf]
    exact hkept₁.update hpre none
  · rw [List.map_append]
    exact List.nodup_append'.mpr ⟨hnodup₁, hnodup₂, hdisjoint⟩
  · rw [List.map_append, List.mem_append, not_or] at ha
    by_cases halp : a = lp
    · subst halp
      exact (Function.update_self ..).trans (h.new a (by simp)).symm
    · refine (Function.update_of_ne halp _ _).trans ?_
      rw [helse₂ a ha.2, helse₁ a ha.1]
      exact h.elsewhere a (by simp [halp, ha])
  · rw [List.map_append, List.mem_append] at ha
    rw [List.map_append, List.map_cons, List.mem_append, List.mem_cons]
    exact ha.imp_right .inr

/-! ## Every run -/

/-- The node that is to be removed, and those before it and behind it. -/
theorem exists_split {l : List (ℕ × Option ℕ)} {lp : ℕ} (h : lp ∈ l.map Prod.fst) :
    ∃ pre x post, l = pre ++ (lp, x) :: post ∧ l.eraseP (·.1 = lp) = pre ++ post ∧
      (l.dropWhile (·.1 ≠ lp)).drop 1 = post := by
  induction l with
  | nil => cases h
  | cons y l ih =>
    by_cases hy : y.1 = lp
    · refine ⟨[], y.2, l, by rw [← hy]; rfl, ?_, ?_⟩
      · rw [List.eraseP_cons_of_pos (by simpa using hy)]
        rfl
      · rw [List.dropWhile_cons_of_neg (by simpa using hy), List.drop_one, List.tail_cons]
    · obtain ⟨pre, x, post, hl, herase, hdrop⟩ :=
        ih ((List.mem_cons.mp h).resolve_left (Ne.symm hy))
      refine ⟨y :: pre, x, post, by rw [hl]; rfl, ?_, ?_⟩
      · rw [List.eraseP_cons_of_neg (by simpa using hy), herase]
        rfl
      · rw [List.dropWhile_cons_of_pos (by simpa using hy), hdrop]

/-- **A call that may be made does what it is to do.** -/
theorem listCall_lists {heap₀ : ℕ → Option Rrlist} {fuel : ℕ} {s : ListState}
    {l l' : List (ℕ × Option ℕ)} {c : ListCall} {r : Option ℕ} (h : Lists heap₀ s l)
    (hfuel : l.length ≤ fuel) (hc : specCall (fun a ↦ (heap₀ a).isSome) l c = some (l', r)) :
    ∃ s', listCall fuel s c = some (s', r) ∧ Lists heap₀ s' l' := by
  match c with
  | .add (some np) (some ptr) direction =>
    simp only [specCall] at hc
    split_ifs at hc with hused
    rw [not_or, Option.not_isSome_iff_eq_none] at hused
    cases direction with
    | listHead =>
      obtain ⟨rfl, rfl⟩ := Prod.mk.inj (Option.some.inj hc)
      exact rrlistAdd_head h hused.1 hused.2 fuel ptr
    | listTail =>
      obtain ⟨rfl, rfl⟩ := Prod.mk.inj (Option.some.inj hc)
      exact rrlistAdd_tail h hused.1 hused.2 hfuel ptr
    | other => cases hc
  | .add none _ _ => cases hc
  | .add (some _) none _ => cases hc
  | .remove (some lp) =>
    simp only [specCall] at hc
    split_ifs at hc with hmem
    obtain ⟨rfl, rfl⟩ := Prod.mk.inj (Option.some.inj hc)
    obtain ⟨pre, x, post, rfl, herase, hdrop⟩ := exists_split hmem
    rw [herase, hdrop]
    exact rrlistRemove_lists h
  | .remove none => cases hc

theorem length_le_of_specCall {used : ℕ → Bool} {l l' : List (ℕ × Option ℕ)} {c : ListCall}
    {r : Option ℕ} (h : specCall used l c = some (l', r)) : l'.length ≤ l.length + 1 := by
  match c with
  | .add (some np) (some ptr) direction =>
    simp only [specCall] at h
    split_ifs at h
    cases direction with
    | listHead =>
      obtain ⟨rfl, -⟩ := Prod.mk.inj (Option.some.inj h)
      exact le_rfl
    | listTail =>
      obtain ⟨rfl, -⟩ := Prod.mk.inj (Option.some.inj h)
      rw [List.length_append, List.length_singleton]
    | other => cases h
  | .add none _ _ => cases h
  | .add (some _) none _ => cases h
  | .remove (some lp) =>
    simp only [specCall] at h
    split_ifs at h
    obtain ⟨rfl, -⟩ := Prod.mk.inj (Option.some.inj h)
    exact (List.eraseP_sublist.length_le).trans (Nat.le_succ _)
  | .remove none => cases h

/-- What a run that may be made leaves in the memory. -/
theorem runSteps_lists {heap₀ : ℕ → Option Rrlist} {fuel : ℕ} (calls : List ListCall) :
    ∀ {l : List (ℕ × Option ℕ)} {returned : List (Option ℕ)}, calls.length ≤ fuel →
      runSteps (specStep fun a ↦ (heap₀ a).isSome) ([], []) calls = some (l, returned) →
      l.length ≤ calls.length ∧
        ∃ s, runSteps (listStep fuel) (⟨heap₀, some none⟩, []) calls = some (s, returned) ∧
          Lists heap₀ s l := by
  induction calls using List.reverseRecOn with
  | nil =>
    intro l returned _ hrun
    obtain ⟨rfl, rfl⟩ := Prod.mk.inj (Option.some.inj hrun)
    exact ⟨le_rfl, _, rfl, lists_empty heap₀⟩
  | append_singleton calls c ih =>
    intro l returned hfuel hrun
    rw [List.length_append, List.length_singleton] at hfuel ⊢
    rw [runSteps_concat, Option.bind_eq_some_iff] at hrun
    obtain ⟨⟨l₁, returned₁⟩, hrun₁, hstep⟩ := hrun
    obtain ⟨hle, s₁, hlist₁, hlists⟩ := ih (Nat.le_of_succ_le hfuel) hrun₁
    obtain ⟨⟨l', r⟩, hcall, hresult⟩ := Option.bind_eq_some_iff.mp hstep
    obtain ⟨rfl, rfl⟩ := Prod.mk.inj (Option.some.inj hresult)
    obtain ⟨s', hcall', hlists'⟩ :=
      listCall_lists hlists (hle.trans (Nat.le_of_succ_le hfuel)) hcall
    refine ⟨(length_le_of_specCall hcall).trans (Nat.succ_le_succ hle), s', ?_, hlists'⟩
    rw [runSteps_concat, hlist₁, Option.bind_some, listStep, hcall']
    rfl

/-- **The list is the sequence of its nodes**: after every run of calls that may be made, the links
lead through them in order, and back from the last one to the first, and every call has returned
what it is to return. -/
theorem runSteps_listStep {heap₀ : ℕ → Option Rrlist} {calls : List ListCall}
    {l : List (ℕ × Option ℕ)} {returned : List (Option ℕ)}
    (hrun : runSteps (specStep fun a ↦ (heap₀ a).isSome) ([], []) calls = some (l, returned))
    {fuel : ℕ} (hfuel : calls.length ≤ fuel) :
    ∃ s first last nodes,
      runSteps (listStep fuel) (⟨heap₀, some none⟩, []) calls = some (s, returned) ∧
      s.list = some first ∧ nodes.map (fun n : ℕ × Rrlist ↦ (n.1, n.2.ptr)) = l ∧
      Segment Rrlist.next s.heap first nodes none ∧
      Segment Rrlist.prev s.heap last nodes.reverse none ∧
      ∀ a, a ∉ l.map Prod.fst → s.heap a = heap₀ a := by
  obtain ⟨-, s, hlist, hlists⟩ := runSteps_lists calls hfuel hrun
  obtain ⟨first, last, nodes, hfirst, hnodes, hforward, hbackward⟩ := hlists.segments
  exact ⟨s, first, last, nodes, hlist, hfirst, hnodes, hforward, hbackward, hlists.elsewhere⟩

/-- Nodes are removed from the middle, from the head and from the tail. -/
def removals : List ListCall :=
  [.add (some 1) (some 10) .listTail, .add (some 2) (some 20) .listTail,
    .add (some 3) (some 30) .listHead, .add (some 4) (some 40) .listTail, .remove (some 1),
    .remove (some 3), .add (some 1) (some 50) .listHead, .remove (some 4)]

theorem runSteps_listStep_removals :
    ∃ s first last nodes,
      runSteps (listStep 8) (⟨fun _ ↦ none, some none⟩, []) removals =
        some (s, [some 1, some 2, some 3, some 4, some 2, some 2, some 1, none]) ∧
      s.list = some first ∧
      nodes.map (fun n : ℕ × Rrlist ↦ (n.1, n.2.ptr)) = [(1, some 50), (2, some 20)] ∧
      Segment Rrlist.next s.heap first nodes none ∧
      Segment Rrlist.prev s.heap last nodes.reverse none ∧
      ∀ a, a ∉ [(1, some 50), (2, some 20)].map Prod.fst → s.heap a = none :=
  @runSteps_listStep (fun _ ↦ none) removals _ _ (by decide +kernel) 8 (by decide)

end Rustyaxe
