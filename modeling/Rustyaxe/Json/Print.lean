import Rustyaxe.Json.Recognise
import Rustyaxe.Json.Spell
import Rustyaxe.Json.Tree

/-!
# What the encoder prints, as a syntax tree

The tree of `json_insert` with a `Leaf` at every value spells a syntax tree (`JsonNode.toMembers`):
`dumpJson_spells` is the derivation, and `visits_toMembers` lists the values of the syntax tree from
the nodes of the tree.  `printed_acceptable` gathers what the decoder asks of the result.
-/

set_option autoImplicit false

namespace Rustyaxe

open JsonNode

/-! ## The payload of the tree -/

variable {α β : Type}

/-- The same tree with other payloads. -/
def JsonNode.map (f : α → β) : JsonNode α → JsonNode β
  | .null => .null
  | .node key value child next => .node key (value.map f) (child.map f) (next.map f)

theorem hasKey_map (f : α → β) (key : CStr) (list : JsonNode α) :
    (list.map f).hasKey key = list.hasKey key := by
  induction list with
  | null => rfl
  | node k value child next _ ih => rw [JsonNode.map, hasKey, hasKey, ih]

theorem map_jsonInsert (f : α → β) (toks : List CStr) (v : α) (list : JsonNode α) :
    (jsonInsert toks v list).map f = jsonInsert toks (f v) (list.map f) := by
  induction toks generalizing list with
  | nil => rfl
  | cons tok toks ih =>
    have hmodify : ∀ list : JsonNode α, (list.modify tok fun value sub ↦
        if toks = [] then (some v, sub) else (value, jsonInsert toks v sub)).map f
        = (list.map f).modify tok fun value sub ↦
          if toks = [] then (some (f v), sub) else (value, jsonInsert toks (f v) sub) := by
      intro list
      induction list with
      | null => rfl
      | node k value child next _ ihn =>
        rw [JsonNode.modify, JsonNode.map, JsonNode.modify]
        by_cases hk : k = tok
        · rw [if_pos hk, if_pos hk]
          by_cases ht : toks = []
          · simp [ht, JsonNode.map]
          · simp [ht, JsonNode.map, ih]
        · rw [if_neg hk, if_neg hk, JsonNode.map, ihn]
    have hfind : (findChild list tok).map f = findChild (list.map f) tok := by
      rw [findChild, findChild, hasKey_map]
      split <;> rfl
    rw [jsonInsert, jsonInsert, hmodify, hfind]

theorem map_eq_null {f : α → β} {list : JsonNode α} : list.map f = .null ↔ list = .null := by
  cases list <;> simp [JsonNode.map]

/-! ## The syntax tree -/

/-- The members of the object that is printed for these nodes. -/
def JsonNode.toMembers : JsonNode Leaf → Members
  | .null => .nil
  | .node key value child next => .cons (escapeItems key)
      (match shown value child with
        | some leaf => leaf.scalar.toJson
        | none => .obj child.toMembers)
      next.toMembers

theorem dumpMembers_node (key : CStr) (value : Option Leaf) (child next : JsonNode Leaf) :
    dumpMembers ((node key value child next).map Leaf.text) = jsonEscape (some key) ++ colon ::
      ((match shown value child with
        | some leaf => leaf.text
        | none => dumpJson (child.map Leaf.text))
        ++ (if next.map Leaf.text = .null then []
          else comma :: dumpMembers (next.map Leaf.text))) := by
  rw [JsonNode.map, dumpMembers.eq_def]
  dsimp only
  cases child with
  | null => cases value <;> rfl
  | node k v c n => cases value <;> rfl

/-- What is printed for some nodes spells their members. -/
theorem dumpMembers_spells {list : JsonNode Leaf} (h : list ≠ .null) (r : CStr) :
    Derives (.members list.toMembers) (dumpMembers (list.map Leaf.text) ++ rbrace :: r)
      (rbrace :: r) := by
  induction list generalizing r with
  | null => exact absurd rfl h
  | node key value child next ihc ihn =>
    have hvalue : ∀ r, Derives (.value (match shown value child with
          | some leaf => leaf.scalar.toJson
          | none => .obj child.toMembers))
        ((match shown value child with
          | some leaf => leaf.text
          | none => dumpJson (child.map Leaf.text)) ++ r) r := by
      intro r
      cases shown value child with
      | some leaf => exact leaf.spells r
      | none =>
        simp only [dumpJson, List.cons_append, List.append_assoc, List.nil_append]
        by_cases hc : child = .null
        · subst hc
          exact .emptyObj (.refl _)
        · exact .obj (ihc hc r)
    rw [dumpMembers_node, toMembers]
    by_cases hn : next = .null
    · subst hn
      rw [if_pos (map_eq_null.mpr rfl), List.append_nil, List.append_assoc, List.cons_append]
      exact .member (.refl _) (jsonEscape_spells key _) (.refl _) (.refl _) (hvalue _) (.refl _)
    · rw [if_neg (mt map_eq_null.mp hn), List.append_assoc, List.cons_append, List.append_assoc,
        List.cons_append]
      exact .members (.refl _) (jsonEscape_spells key _) (.refl _) (.refl _) (hvalue _) (.refl _)
        (ihn hn r)

/-- **What is printed is the text of the syntax tree.** -/
theorem dumpJson_spells (list : JsonNode Leaf) :
    JsonText (.obj list.toMembers) (dumpJson (list.map Leaf.text)) := by
  refine ⟨_, [], .refl _, ?_, .refl _⟩
  rw [dumpJson, List.cons_append]
  by_cases h : list = .null
  · subst h
    exact .emptyObj (.refl _)
  · exact .obj (dumpMembers_spells h [])

theorem Scalar.visits_shown (o : Option Leaf) (child : JsonNode Leaf) (path : CStr) (depth : ℕ) :
    Json.visits path depth (match o with
      | some leaf => leaf.scalar.toJson
      | none => .obj child.toMembers)
    = ⟨path, depth, o.map Leaf.scalar⟩ :: (match o with
      | some _ => []
      | none => child.toMembers.visits path (depth + 1)) := by
  cases o with
  | some leaf => exact leaf.scalar.visits_toJson path depth
  | none => rfl

/-- **The values of the syntax tree are the nodes.** -/
theorem visits_toMembers {P : CStr → Prop} (hP : ∀ key, P key → 0 ∉ key) {list : JsonNode Leaf}
    (h : list.Tidy P) (path : CStr) (depth : ℕ) : list.toMembers.visits path (depth + 1)
      = list.nodes.map fun n ↦
        ⟨n.1.foldl pathAppend path, depth + n.1.length, n.2.map Leaf.scalar⟩ := by
  induction list generalizing path depth with
  | null => rfl
  | node key value child next ihc ihn =>
    obtain ⟨hkey, -, -, hchild, hnext⟩ := h
    rw [toMembers, Members.visits, nodes, Scalar.visits_shown, ihn hnext,
      nameOf_escapeItems (hP key hkey), List.map_append, List.map_cons, List.map_map]
    refine congrArg₂ _ (congrArg₂ _ rfl ?_) rfl
    cases hs : shown value child with
    | some leaf =>
      obtain ⟨-, rfl⟩ := shown_eq_some.mp hs
      rfl
    | none =>
      rw [ihc hchild]
      refine List.map_congr_left fun n _ ↦ ?_
      simp [Nat.add_assoc, Nat.add_comm 1]

/-! ## What the decoder makes of it -/

/-- What `strtok_r` leaves of a key without NUL bytes. -/
def Segment (s : CStr) : Prop := s ≠ [] ∧ dot ∉ s ∧ 0 ∉ s

/-- The path the decoder makes of the names on the way to a value. -/
def flatKey (path : List CStr) : CStr := path.foldl pathAppend []

theorem mem_names_toMembers {P : CStr → Prop} (hP : ∀ key, P key → 0 ∉ key) {list : JsonNode Leaf}
    (h : list.Tidy P) (key : CStr) :
    key ∈ list.toMembers.names.map nameOf ↔ list.hasKey key = true := by
  induction list with
  | null => simp [toMembers, Members.names, hasKey]
  | node k value child next _ ih =>
    obtain ⟨hk, -, -, -, hnext⟩ := h
    rw [toMembers, Members.names, List.map_cons, List.mem_cons, ih hnext,
      nameOf_escapeItems (hP k hk), hasKey, Bool.or_eq_true, beq_iff_eq, eq_comm]

theorem Scalar.namesOk_shown (o : Option Leaf) {child : JsonNode Leaf}
    (h : (Json.obj child.toMembers).NamesOk) :
    Json.NamesOk (match o with
      | some leaf => leaf.scalar.toJson
      | none => .obj child.toMembers) := by
  cases o with
  | some leaf => exact leaf.scalar.namesOk_toJson
  | none => exact h

/-- The names of a printed object decode and are distinct, at every level. -/
theorem namesOk_toMembers {P : CStr → Prop} (hP : ∀ key, P key → 0 ∉ key) {list : JsonNode Leaf}
    (h : list.Tidy P) : (Json.obj list.toMembers).NamesOk := by
  induction list with
  | null => exact ⟨by simp [toMembers, Members.names], by simp [toMembers, Members.names], trivial⟩
  | node key value child next ihc ihn =>
    have hnames := mem_names_toMembers hP h.2.2.2.2 key
    obtain ⟨hk, hkey, -, hchild, hnext⟩ := h
    obtain ⟨hdec, hnodup, hok⟩ := ihn hnext
    have hname := nameOf_escapeItems (hP key hk)
    refine ⟨?_, ?_, ?_⟩
    · rw [toMembers, Members.names]
      refine List.forall_mem_cons.mpr ⟨?_, hdec⟩
      rw [decodeItems_escapeItems (hP key hk)]
      simp
    · rw [toMembers, Members.names, List.map_cons, hname]
      refine List.nodup_cons.mpr ⟨?_, hnodup⟩
      rw [hnames, hkey]
      simp
    · rw [toMembers]
      exact ⟨Scalar.namesOk_shown _ (ihc hchild), hok⟩

section Printed

variable (strtod : CStr → UInt64 × CStr × Bool) {P : CStr → Prop} (hP : ∀ key, P key → 0 ∉ key)
  {list : JsonNode Leaf} (h : list.Tidy P)
include hP h

theorem visits_printed : (Json.obj list.toMembers).visits [] 0 = ⟨[], 0, none⟩ ::
    list.nodes.map fun n ↦ ⟨flatKey n.1, n.1.length, n.2.map Leaf.scalar⟩ := by
  rw [Json.visits, visits_toMembers hP h]
  simp [flatKey]

/-- **When the decoder accepts what is printed**: it is not too deep, and no path it makes is that
of a value before. -/
theorem acceptable_printed_iff : Acceptable strtod (.obj list.toMembers) ↔
    (∀ n ∈ list.nodes, n.1.length ≤ jsonMaxDepth) ∧
      list.nodes.Pairwise fun u v ↦ u.2 ≠ none → flatKey v.1 ≠ flatKey u.1 := by
  have hvisits := visits_printed hP h
  constructor
  · intro ha
    have hdepth := ha.depth
    have hpaths := ha.paths
    rw [hvisits] at hdepth hpaths
    refine ⟨fun n hn ↦ hdepth _ (List.mem_cons_of_mem _ (List.mem_map.mpr ⟨n, hn, rfl⟩)), ?_⟩
    have := List.pairwise_map.mp (List.pairwise_cons.mp hpaths).2
    exact this.imp fun huv hu ↦ huv (by simpa using hu)
  · rintro ⟨hdepth, hpaths⟩
    refine ⟨?_, ?_, namesOk_toMembers hP h, ?_⟩
    · rw [hvisits]
      refine List.forall_mem_cons.mpr ⟨by decide, fun v hv ↦ ?_⟩
      obtain ⟨n, hn, rfl⟩ := List.mem_map.mp hv
      exact hdepth n hn
    · rw [hvisits]
      refine List.forall_mem_cons.mpr ⟨by simp, fun v hv ↦ ?_⟩
      obtain ⟨n, hn, rfl⟩ := List.mem_map.mp hv
      intro c hc
      obtain ⟨leaf, -, rfl⟩ := Option.map_eq_some_iff.mp hc
      rw [leaf.decodes]
      simp
    · rw [hvisits]
      refine List.pairwise_cons.mpr ⟨by simp, List.pairwise_map.mpr ?_⟩
      exact hpaths.imp fun huv hu ↦ huv (by simpa using hu)

/-- **The leaves of what is printed** are the nodes that show a value. -/
theorem leaves_printed : (Json.obj list.toMembers).leaves strtod
    = list.nodes.filterMap fun n ↦ n.2.map fun leaf ↦ (flatKey n.1, leaf.value) := by
  rw [Json.leaves, visits_printed hP h, List.filterMap_cons_none rfl, List.filterMap_map]
  refine List.filterMap_congr fun n _ ↦ ?_
  cases hn : n.2 with
  | none => simp [Visit.leaf, hn]
  | some leaf => simp [Visit.leaf, hn, leaf.decodes]

end Printed

end Rustyaxe
