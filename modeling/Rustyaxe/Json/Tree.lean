import Mathlib.Data.List.Nodup
import Rustyaxe.Json.Encode

/-!
# The encoder's tree as a map from paths

`JsonNode.get` looks a path up in the tree that `json_insert` builds, and `get_jsonInsert` says
that inserting updates it like a map.  `JsonNode.Tidy` is the shape the tree has, and under it
`mem_nodes_iff` tells from the map alone which nodes there are, and which of them are printed as
values: those that have a value and no path below them.
-/

set_option autoImplicit false

namespace Rustyaxe

variable {α β : Type}

namespace JsonNode

/-! ## Looking a path up -/

/-- The value of the first sibling with the key. -/
def valueAt (key : CStr) : JsonNode α → Option α
  | .null => none
  | .node k value _ next => if k = key then value else next.valueAt key

/-- The children of the first sibling with the key. -/
def childAt (key : CStr) : JsonNode α → JsonNode α
  | .null => .null
  | .node k _ child next => if k = key then child else next.childAt key

/-- The value at a path. -/
def get : JsonNode α → List CStr → Option α
  | _, [] => none
  | list, [key] => list.valueAt key
  | list, key :: path => (list.childAt key).get path

@[simp] theorem get_nil (list : JsonNode α) : list.get [] = none := by rw [get]

@[simp] theorem get_singleton (list : JsonNode α) (key : CStr) :
    list.get [key] = list.valueAt key := by rw [get]

theorem get_cons (list : JsonNode α) (key : CStr) {path : List CStr} (h : path ≠ []) :
    list.get (key :: path) = (list.childAt key).get path := by
  rw [get]
  simpa using h

@[simp] theorem get_null (path : List CStr) : (null : JsonNode α).get path = none := by
  induction path with
  | nil => rfl
  | cons key path ih =>
    cases path with
    | nil => rfl
    | cons key' path => rw [get_cons _ _ (by simp), childAt, ih]

theorem valueAt_of_not_hasKey {key : CStr} {list : JsonNode α} (h : list.hasKey key = false) :
    list.valueAt key = none ∧ list.childAt key = .null := by
  induction list with
  | null => exact ⟨rfl, rfl⟩
  | node k value child next _ ih =>
    rw [hasKey, Bool.or_eq_false_iff, beq_eq_false_iff_ne] at h
    rw [valueAt, childAt, if_neg h.1, if_neg h.1]
    exact ih h.2

theorem modify_at {key : CStr} {f : Option α → JsonNode α → Option α × JsonNode α}
    {list : JsonNode α} (h : list.hasKey key = true) :
    (list.modify key f).valueAt key = (f (list.valueAt key) (list.childAt key)).1 ∧
      (list.modify key f).childAt key = (f (list.valueAt key) (list.childAt key)).2 := by
  induction list with
  | null => simp [hasKey] at h
  | node k value child next _ ih =>
    rw [modify, valueAt, childAt]
    by_cases hk : k = key
    · simp [hk, valueAt, childAt]
    · simp only [if_neg hk, valueAt, childAt]
      exact ih (by simpa [hasKey, hk] using h)

theorem modify_other {key key' : CStr} {f : Option α → JsonNode α → Option α × JsonNode α}
    (list : JsonNode α) (h : key' ≠ key) : (list.modify key f).valueAt key' = list.valueAt key' ∧
      (list.modify key f).childAt key' = list.childAt key' := by
  induction list with
  | null => exact ⟨rfl, rfl⟩
  | node k value child next _ ih =>
    rw [modify]
    by_cases hk : k = key
    · simp [hk, valueAt, childAt, h.symm]
    · simp only [if_neg hk, valueAt, childAt, ih, and_self]

end JsonNode

open JsonNode

/-! ## Inserting -/

theorem hasKey_findChild (list : JsonNode α) (key : CStr) :
    (findChild list key).hasKey key = true := by
  rw [findChild]
  split
  · assumption
  · simp [hasKey]

theorem findChild_at (list : JsonNode α) (key key' : CStr) :
    (findChild list key).valueAt key' = list.valueAt key' ∧
      (findChild list key).childAt key' = list.childAt key' := by
  rw [findChild]
  split
  · exact ⟨rfl, rfl⟩
  · rename_i hk
    by_cases h : key = key'
    · subst h
      simpa [valueAt, childAt] using
        (valueAt_of_not_hasKey (Bool.eq_false_iff.mpr hk)).imp Eq.symm Eq.symm
    · simp [valueAt, childAt, h]

/-- The siblings after an insertion: the value, or the rest of the path, goes under the token. -/
theorem jsonInsert_at (tok : CStr) (toks : List CStr) (v : α) (list : JsonNode α) :
    (jsonInsert (tok :: toks) v list).valueAt tok
        = (if toks = [] then some v else list.valueAt tok) ∧
      (jsonInsert (tok :: toks) v list).childAt tok = jsonInsert toks v (list.childAt tok) := by
  obtain ⟨hv, hc⟩ := modify_at (hasKey_findChild list tok)
    (f := fun value sub ↦ if toks = [] then (some v, sub) else (value, jsonInsert toks v sub))
  rw [jsonInsert, hv, hc, (findChild_at list tok tok).1, (findChild_at list tok tok).2]
  by_cases h : toks = []
  · simp [h, jsonInsert]
  · simp [h]

theorem jsonInsert_other {tok key : CStr} (toks : List CStr) (v : α) (list : JsonNode α)
    (h : key ≠ tok) : (jsonInsert (tok :: toks) v list).valueAt key = list.valueAt key ∧
      (jsonInsert (tok :: toks) v list).childAt key = list.childAt key := by
  rw [jsonInsert, (modify_other _ h).1, (modify_other _ h).2]
  exact findChild_at list tok key

/-- **Inserting updates the tree like a map.** -/
theorem get_jsonInsert {toks : List CStr} (htoks : toks ≠ []) (v : α) (list : JsonNode α)
    (path : List CStr) :
    (jsonInsert toks v list).get path = if path = toks then some v else list.get path := by
  induction toks generalizing list path with
  | nil => exact absurd rfl htoks
  | cons tok toks ih =>
    cases path with
    | nil => simp
    | cons key path =>
      by_cases hkey : key = tok
      · subst hkey
        obtain ⟨hv, hc⟩ := jsonInsert_at key toks v list
        cases path with
        | nil =>
          rw [get_singleton, get_singleton, hv]
          simp [eq_comm]
        | cons key' path =>
          have hne : key' :: path ≠ [] := List.cons_ne_nil _ _
          rw [get_cons _ _ hne, get_cons list _ hne, hc]
          by_cases ht : toks = []
          · simp [ht, jsonInsert]
          · rw [ih ht]
            simp
      · obtain ⟨hv, hc⟩ := jsonInsert_other toks v list hkey
        cases path with
        | nil => simp [hv, hkey]
        | cons key' path =>
          have hne : key' :: path ≠ [] := List.cons_ne_nil _ _
          rw [get_cons _ _ hne, get_cons list _ hne, hc]
          simp [hkey]

/-! ## The shape of the tree -/

namespace JsonNode

/-- Siblings have distinct keys, all of which satisfy `P`, and every node has a value or
children. -/
def Tidy (P : CStr → Prop) : JsonNode α → Prop
  | .null => True
  | .node key value child next => P key ∧ next.hasKey key = false ∧ (value ≠ none ∨ child ≠ .null) ∧
      child.Tidy P ∧ next.Tidy P

theorem hasKey_modify (key key' : CStr) (f : Option α → JsonNode α → Option α × JsonNode α)
    (list : JsonNode α) : (list.modify key f).hasKey key' = list.hasKey key' := by
  induction list with
  | null => rfl
  | node k value child next _ ih =>
    rw [modify]
    split
    · rfl
    · rw [hasKey, hasKey, ih]

theorem Tidy.modify {P : CStr → Prop} {key : CStr}
    {f : Option α → JsonNode α → Option α × JsonNode α}
    (hf : ∀ value child, child.Tidy P → (f value child).2.Tidy P ∧
      ((f value child).1 ≠ none ∨ (f value child).2 ≠ .null)) {list : JsonNode α}
    (h : list.Tidy P) : (list.modify key f).Tidy P := by
  induction list with
  | null => trivial
  | node k value child next _ ih =>
    obtain ⟨hP, hkey, hne, hchild, hnext⟩ := h
    rw [JsonNode.modify]
    split
    · obtain ⟨hchild', hne'⟩ := hf value child hchild
      exact ⟨hP, hkey, hne', hchild', hnext⟩
    · exact ⟨hP, by rw [hasKey_modify, hkey], hne, hchild, ih hnext⟩

end JsonNode

theorem jsonInsert_ne_null (tok : CStr) (toks : List CStr) (v : α) (list : JsonNode α) :
    jsonInsert (tok :: toks) v list ≠ .null := by
  intro h
  have hk := hasKey_modify tok tok
    (fun value sub ↦ if toks = [] then (some v, sub) else (value, jsonInsert toks v sub))
    (findChild list tok)
  rw [hasKey_findChild] at hk
  rw [jsonInsert] at h
  rw [h] at hk
  simp [hasKey] at hk

/-- Inserting keeps the shape. -/
theorem JsonNode.Tidy.jsonInsert {P : CStr → Prop} {toks : List CStr} (htoks : ∀ t ∈ toks, P t)
    (v : α) {list : JsonNode α} (h : list.Tidy P) : (jsonInsert toks v list).Tidy P := by
  induction toks generalizing list with
  | nil => exact h
  | cons tok toks ih =>
    have hsub : ∀ sub : JsonNode α, sub.Tidy P → (Rustyaxe.jsonInsert toks v sub).Tidy P :=
      fun sub hsub ↦ ih (fun t ht ↦ htoks t (List.mem_cons_of_mem _ ht)) hsub
    have hf : ∀ (value : Option α) (sub : JsonNode α), sub.Tidy P →
        (if toks = [] then (some v, sub) else (value, Rustyaxe.jsonInsert toks v sub)).2.Tidy P ∧
        ((if toks = [] then (some v, sub) else (value, Rustyaxe.jsonInsert toks v sub)).1 ≠ none ∨
          (if toks = [] then (some v, sub) else (value, Rustyaxe.jsonInsert toks v sub)).2 ≠ .null) := by
      intro value sub hs
      cases toks with
      | nil => exact ⟨hs, .inl (by simp)⟩
      | cons tok' toks => exact ⟨hsub sub hs, .inr (jsonInsert_ne_null tok' toks v sub)⟩
    rw [Rustyaxe.jsonInsert, findChild]
    by_cases hkey : list.hasKey tok = true
    · rw [if_pos hkey]
      exact h.modify hf
    · rw [if_neg hkey, JsonNode.modify, if_pos rfl]
      obtain ⟨htidy, hne⟩ := hf none .null trivial
      exact ⟨htoks tok List.mem_cons_self, Bool.eq_false_iff.mpr hkey, hne, htidy, h⟩

namespace JsonNode

/-- What `dump_json` prints as a value: that of a node without children. -/
def shown (value : Option α) : JsonNode α → Option α
  | .null => value
  | .node .. => none

theorem shown_eq_some {value : Option α} {child : JsonNode α} {x : α} :
    shown value child = some x ↔ value = some x ∧ child = .null := by
  cases child <;> simp [shown]

/-- The nodes in the order in which they are printed, with their paths and what they show. -/
def nodes : JsonNode α → List (List CStr × Option α)
  | .null => []
  | .node key value child next =>
    ([key], shown value child) :: child.nodes.map (fun n ↦ (key :: n.1, n.2)) ++ next.nodes

theorem get_node (key : CStr) (value : Option α) (child next : JsonNode α) (s : CStr)
    (path : List CStr) : (node key value child next).get (s :: path) =
      if s = key then (if path = [] then value else child.get path) else next.get (s :: path) := by
  cases path with
  | nil => simp [valueAt, eq_comm]
  | cons s' path =>
    have hne : s' :: path ≠ [] := List.cons_ne_nil _ _
    rw [get_cons _ _ hne, get_cons next _ hne, childAt, if_neg hne]
    by_cases h : s = key
    · rw [if_pos h, if_pos h.symm]
    · rw [if_neg h, if_neg (Ne.symm h)]

theorem head_of_mem_nodes {list : JsonNode α} {n : List CStr × Option α} (h : n ∈ list.nodes) :
    ∃ key path, n.1 = key :: path ∧ list.hasKey key = true := by
  induction list with
  | null => simp [nodes] at h
  | node key value child next _ ih =>
    simp only [nodes, List.cons_append, List.mem_cons, List.mem_append, List.mem_map] at h
    rcases h with rfl | ⟨m, -, rfl⟩ | h
    · exact ⟨key, [], rfl, by simp [hasKey]⟩
    · exact ⟨key, m.1, rfl, by simp [hasKey]⟩
    · obtain ⟨s, path, hn, hs⟩ := ih h
      exact ⟨s, path, hn, by simp [hasKey, hs]⟩

theorem mem_nodes_node {key s : CStr} {value : Option α} {child next : JsonNode α}
    {path : List CStr} {o : Option α} :
    (s :: path, o) ∈ (node key value child next).nodes ↔
      s = key ∧ (path = [] ∧ o = shown value child ∨ (path, o) ∈ child.nodes) ∨
        (s :: path, o) ∈ next.nodes := by
  simp only [nodes, List.cons_append, List.mem_cons, List.mem_append, List.mem_map, Prod.mk.injEq,
    List.cons.injEq, Prod.exists]
  constructor
  · rintro (⟨⟨rfl, rfl⟩, rfl⟩ | ⟨p, o', hp, ⟨rfl, rfl⟩, rfl⟩ | h)
    · exact .inl ⟨rfl, .inl ⟨rfl, rfl⟩⟩
    · exact .inl ⟨rfl, .inr hp⟩
    · exact .inr h
  · rintro (⟨rfl, ⟨rfl, rfl⟩ | hp⟩ | h)
    · exact .inl ⟨⟨rfl, rfl⟩, rfl⟩
    · exact .inr (.inl ⟨path, o, hp, ⟨rfl, rfl⟩, rfl⟩)
    · exact .inr (.inr h)

section Tidy

variable {P : CStr → Prop}

/-- Every node leads to a value. -/
theorem exists_get {list : JsonNode α} (h : list.Tidy P) {n : List CStr × Option α}
    (hn : n ∈ list.nodes) : ∃ q x, list.get (n.1 ++ q) = some x := by
  induction list generalizing n with
  | null => simp [nodes] at hn
  | node key value child next ihc ihn =>
    obtain ⟨-, hkey, hne, hchild, hnext⟩ := h
    obtain ⟨path, o⟩ := n
    obtain ⟨s, path, rfl, -⟩ := head_of_mem_nodes hn
    rcases mem_nodes_node.mp hn with ⟨rfl, ⟨rfl, -⟩ | hp⟩ | hp
    · cases child with
      | null =>
        obtain ⟨x, hx⟩ := Option.ne_none_iff_exists'.mp (hne.resolve_right (by simp))
        exact ⟨[], x, by rw [List.append_nil, get_node, if_pos rfl, if_pos rfl, hx]⟩
      | node k v c n =>
        have hmem : ([k], shown v c) ∈ (node k v c n).nodes := by simp [nodes]
        obtain ⟨q, x, hq⟩ := ihc hchild hmem
        exact ⟨k :: q, x, by simpa [get_node] using hq⟩
    · obtain ⟨q, x, hq⟩ := ihc hchild hp
      obtain ⟨s', path', rfl, -⟩ := head_of_mem_nodes hp
      exact ⟨q, x, by rw [List.cons_append, get_node, if_pos rfl, if_neg (by simp), hq]⟩
    · obtain ⟨q, x, hq⟩ := ihn hnext hp
      obtain ⟨s', path', heq, hs⟩ := head_of_mem_nodes hp
      obtain ⟨rfl, rfl⟩ := List.cons.inj heq
      have hsk : s ≠ key := by
        rintro rfl
        rw [hkey] at hs
        simp at hs
      exact ⟨q, x, by rw [List.cons_append, get_node, if_neg hsk]; exact hq⟩

/-- A node shows a value exactly if it has it and nothing lies below it. -/
theorem mem_nodes_iff {list : JsonNode α} (h : list.Tidy P) {path : List CStr} {x : α} :
    (path, some x) ∈ list.nodes ↔ list.get path = some x ∧ ∀ q ≠ [], list.get (path ++ q) = none := by
  induction list generalizing path with
  | null => simp [nodes]
  | node key value child next ihc ihn =>
    have htidy := h
    obtain ⟨-, hkey, hne, hchild, hnext⟩ := h
    cases path with
    | nil =>
      refine iff_of_false (fun hn ↦ ?_) (by simp)
      obtain ⟨s, p, hs, -⟩ := head_of_mem_nodes hn
      simp at hs
    | cons s path =>
      rw [mem_nodes_node]
      by_cases hs : s = key
      · subst hs
        have hnot : (s :: path, some x) ∉ next.nodes := fun hn ↦ by
          obtain ⟨s', p, heq, hs'⟩ := head_of_mem_nodes hn
          obtain ⟨rfl, -⟩ := List.cons.inj heq
          rw [hkey] at hs'
          simp at hs'
        simp only [hnot, or_false, true_and, List.cons_append, get_node, if_true]
        cases path with
        | nil =>
          have hnil : ([], some x) ∉ child.nodes := fun hn ↦ by
            obtain ⟨s', p, heq, -⟩ := head_of_mem_nodes hn
            simp at heq
          simp only [hnil, or_false, true_and, if_true, List.nil_append, eq_comm (a := some x),
            shown_eq_some]
          refine and_congr_right fun hv ↦ ⟨?_, fun hq ↦ ?_⟩
          · rintro rfl q hq
            simp [hq]
          · cases child with
            | null => rfl
            | node k v c n =>
              have hmem : ([k], shown v c) ∈ (node k v c n).nodes := by simp [nodes]
              obtain ⟨q, y, hy⟩ := exists_get hchild hmem
              have := hq (k :: q) (List.cons_ne_nil _ _)
              rw [if_neg (List.cons_ne_nil _ _)] at this
              exact absurd (hy.symm.trans this) (by simp)
        | cons s' path =>
          simp only [reduceCtorEq, false_and, false_or, if_false, List.cons_append]
          exact ihc hchild
      · simp only [hs, false_and, false_or, List.cons_append, get_node, if_false]
        exact ihn hnext

/-- No path is printed twice. -/
theorem nodup_nodes {list : JsonNode α} (h : list.Tidy P) : (list.nodes.map Prod.fst).Nodup := by
  induction list with
  | null => simp [nodes]
  | node key value child next ihc ihn =>
    obtain ⟨-, hkey, -, hchild, hnext⟩ := h
    have hfst : (child.nodes.map fun n ↦ (key :: n.1, n.2)).map Prod.fst
        = (child.nodes.map Prod.fst).map (key :: ·) := by simp
    rw [nodes, List.map_append, List.map_cons, hfst, List.nodup_append]
    refine ⟨List.nodup_cons.mpr ⟨fun hmem ↦ ?_, (ihc hchild).map (List.cons_injective)⟩, ihn hnext, ?_⟩
    · obtain ⟨p, hp, heq⟩ := List.mem_map.mp hmem
      obtain ⟨n, hn, rfl⟩ := List.mem_map.mp hp
      obtain ⟨s, q, hs, -⟩ := head_of_mem_nodes hn
      rw [hs] at heq
      simp at heq
    · intro p hp p' hp' heq
      subst heq
      obtain ⟨n, hn, rfl⟩ := List.mem_map.mp hp'
      obtain ⟨s, q, hs, hs'⟩ := head_of_mem_nodes hn
      have hhead : s = key := by
        rcases List.mem_cons.mp hp with hp | hp
        · exact (List.cons.inj (hs.symm.trans hp)).1
        · obtain ⟨p, -, hp⟩ := List.mem_map.mp hp
          exact (List.cons.inj (hs.symm.trans hp.symm)).1
      rw [hhead, hkey] at hs'
      simp at hs'

end Tidy

end JsonNode

end Rustyaxe
