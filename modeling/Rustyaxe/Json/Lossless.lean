import Mathlib.Algebra.BigOperators.Group.List.Basic
import Mathlib.Data.List.Perm.Basic
import Rustyaxe.Json.RoundTrip
import Rustyaxe.Json.Unambiguous

/-!
# When nothing is lost

The dictionaries `json2dict` makes of an object, and whether they survive `dict2json`.  The decoder
lets in names that the encoder cannot write back: names that are empty, that contain dots in the
wrong places, or that make one key a dot-prefix of another.  `roundTrips_iff` says that these are
the only obstacles: since no key comes back longer than it was, the keys can only be the same if
every one of them has come back unchanged.
-/

set_option autoImplicit false

namespace Rustyaxe

open JsonNode

/-! ## What is decoded contains no NUL -/

theorem zero_ne_ofNat_or {k : ℕ} (hk : k.testBit 7 = true) (y : ℕ) : 0 ≠ UInt8.ofNat (k ||| y) := by
  intro h
  have hnat : (k ||| y) % 2 ^ 8 = 0 := by
    have := congrArg UInt8.toNat h.symm
    rwa [UInt8.toNat_ofNat'] at this
  have hbit : ((k ||| y) % 2 ^ 8).testBit 7 = true := by
    rw [Nat.testBit_mod_two_pow, Nat.testBit_or, hk]
    rfl
  rw [hnat] at hbit
  simp at hbit

theorem zero_not_mem_utf8 {code : ℕ} (h : code ≠ 0) : 0 ∉ utf8 code := by
  have h80 : Nat.testBit 0x80 7 = true := by decide
  have hC0 : Nat.testBit 0xC0 7 = true := by decide
  have hE0 : Nat.testBit 0xE0 7 = true := by decide
  have hF0 : Nat.testBit 0xF0 7 = true := by decide
  rw [utf8]
  split_ifs
  · intro hmem
    have := congrArg UInt8.toNat (List.mem_singleton.mp hmem)
    rw [UInt8.toNat_ofNat_of_lt' (by simp only [UInt8.size]; omega)] at this
    exact h this.symm
  all_goals
    simp only [List.mem_cons, List.not_mem_nil, or_false, not_or]
    simp only [zero_ne_ofNat_or h80, zero_ne_ofNat_or hC0, zero_ne_ofNat_or hE0,
      zero_ne_ofNat_or hF0, not_false_eq_true, and_self]

theorem pairCode_ne_zero (code : ℕ) {low : ℕ} (h : 0xDC00 ≤ low) : pairCode code low ≠ 0 := by
  unfold pairCode
  have := Nat.zero_le ((code - 0xD800) <<< 10)
  omega

theorem simpleEscape_ne_zero {e b : UInt8} (h : simpleEscape e = some b) : b ≠ 0 := by
  rw [simpleEscape] at h
  split_ifs at h with h1 h2 h3 h4 h5 h6
  all_goals obtain rfl := Option.some_inj.mp h
  · rintro rfl
    exact absurd h1 (by decide)
  all_goals decide

/-- **A decoded string contains no NUL.** -/
theorem zero_not_mem_decodeItems {items : List StrItem} (h : ∀ i ∈ items, i.Valid) {out : CStr}
    (hout : decodeItems items = some out) : 0 ∉ out := by
  induction items using decodeItems.induct generalizing out with
  | case1 =>
    obtain rfl : [] = out := by simpa [decodeItems] using hout
    simp
  | case2 b items ih =>
    obtain ⟨hb, h⟩ := List.forall_mem_cons.mp h
    rw [decodeItems] at hout
    obtain ⟨out', hout', rfl⟩ := Option.map_eq_some_iff.mp hout
    rw [List.mem_cons, not_or]
    refine ⟨?_, ih h hout'⟩
    rintro rfl
    exact absurd hb.1 (by decide)
  | case3 e items ih =>
    obtain ⟨-, h⟩ := List.forall_mem_cons.mp h
    rw [decodeItems] at hout
    obtain ⟨b, hb, hout⟩ := Option.bind_eq_some_iff.mp hout
    obtain ⟨out', hout', rfl⟩ := Option.map_eq_some_iff.mp hout
    rw [List.mem_cons, not_or]
    exact ⟨(simpleEscape_ne_zero hb).symm, ih h hout'⟩
  | case4 a b c d items ihpair ih =>
    obtain ⟨-, h⟩ := List.forall_mem_cons.mp h
    rw [decodeItems.eq_def] at hout
    obtain ⟨code, -, hout⟩ := Option.bind_eq_some_iff.mp hout
    split_ifs at hout with h0 hhigh hlow
    · split at hout
      · rename_i a' b' c' d' items
        obtain ⟨low, -, hout⟩ := Option.bind_eq_some_iff.mp hout
        split_ifs at hout with hrange
        obtain ⟨out', hout', rfl⟩ := Option.map_eq_some_iff.mp hout
        have hpair := pairCode_ne_zero code (not_lt.mp fun hlt ↦ hrange (.inl hlt))
        rw [List.mem_append, not_or]
        exact ⟨zero_not_mem_utf8 hpair, ihpair (List.forall_mem_cons.mp h).2 hout'⟩
      · simp at hout
    · obtain ⟨out', hout', rfl⟩ := Option.map_eq_some_iff.mp hout
      rw [List.mem_append, not_or]
      exact ⟨zero_not_mem_utf8 h0, ih h hout'⟩

theorem zero_not_mem_nameOf {name : List StrItem} (h : ∀ i ∈ name, i.Valid) : 0 ∉ nameOf name := by
  rw [nameOf]
  cases hout : decodeItems name with
  | none => simp
  | some out => exact zero_not_mem_decodeItems h hout

theorem zero_not_mem_pathAppend {base suffix : CStr} (hb : 0 ∉ base) (hs : 0 ∉ suffix) :
    0 ∉ pathAppend base suffix := by
  rw [pathAppend]
  split_ifs <;> simp [hb, hs, dot]

theorem zero_not_mem_indexText (idx : ℕ) : 0 ∉ indexText idx := by
  have hdec : ∀ n, 0 ∉ decimal n := fun n h ↦ absurd ((intText_decimal n).bytes 0 h) (by decide)
  simp [indexText, hdec, lbracket, rbracket]

/-- The values of a phrase have paths without NUL bytes, and their strings have items of the
grammar. -/
def CleanVisit (v : Visit) : Prop :=
  0 ∉ v.path ∧ ∀ items, v.scalar = some (.str items) → ∀ i ∈ items, i.Valid

/-- `CleanVisit`, wherever in a tree the phrase stands. -/
def Clean : Phrase → Prop
  | .value j => ∀ path depth, 0 ∉ path → ∀ v ∈ j.visits path depth, CleanVisit v
  | .elements es => ∀ path depth idx, 0 ∉ path → ∀ v ∈ es.visits path depth idx, CleanVisit v
  | .members ms => ∀ path depth, 0 ∉ path → ∀ v ∈ ms.visits path depth, CleanVisit v

theorem clean_scalar {c : Scalar} (h : ∀ items, c = .str items → ∀ i ∈ items, i.Valid) :
    Clean (.value c.toJson) := by
  intro path depth hpath v hv
  rw [c.visits_toJson, List.mem_singleton] at hv
  subst hv
  exact ⟨hpath, fun items hitems ↦ h items (Option.some_inj.mp hitems)⟩

theorem clean_elements {j : Json} {es : Elements} (h : Clean (.value j)) (h' : Clean (.elements es)) :
    Clean (.elements (.cons j es)) := by
  intro path depth idx hpath v hv
  rw [Elements.visits, List.mem_append] at hv
  rcases hv with hv | hv
  · exact h _ depth (zero_not_mem_pathAppend hpath (zero_not_mem_indexText idx)) v hv
  · exact h' path depth (idx + 1) hpath v hv

theorem clean_members {name : List StrItem} {j : Json} {ms : Members} (hn : ∀ i ∈ name, i.Valid)
    (h : Clean (.value j)) (h' : Clean (.members ms)) : Clean (.members (.cons name j ms)) := by
  intro path depth hpath v hv
  rw [Members.visits, List.mem_append] at hv
  rcases hv with hv | hv
  · exact h _ depth (zero_not_mem_pathAppend hpath (zero_not_mem_nameOf hn)) v hv
  · exact h' path depth hpath v hv

theorem clean_nil_elements : Clean (.elements .nil) := fun _ _ _ _ v hv ↦ by
  simp [Elements.visits] at hv

theorem clean_nil_members : Clean (.members .nil) := fun _ _ _ v hv ↦ by
  simp [Members.visits] at hv

theorem clean_arr {es : Elements} (h : Clean (.elements es)) : Clean (.value (.arr es)) := by
  intro path depth hpath v hv
  rcases List.mem_cons.mp hv with rfl | hv
  · exact ⟨hpath, fun _ h ↦ by simp at h⟩
  · exact h path _ 0 hpath v hv

theorem clean_obj {ms : Members} (h : Clean (.members ms)) : Clean (.value (.obj ms)) := by
  intro path depth hpath v hv
  rcases List.mem_cons.mp hv with rfl | hv
  · exact ⟨hpath, fun _ h ↦ by simp at h⟩
  · exact h path _ hpath v hv

theorem Derives.clean {ph : Phrase} {s r : CStr} (h : Derives ph s r) : Clean ph := by
  induction h with
  | null => exact clean_scalar (c := .null) (by simp)
  | true => exact clean_scalar (c := .bool Bool.true) (by simp)
  | false => exact clean_scalar (c := .bool Bool.false) (by simp)
  | @num t _ _ => exact clean_scalar (c := .num t) (by simp)
  | @str items _ _ h =>
    exact clean_scalar (c := .str items) fun items' heq ↦ by
      obtain rfl : items = items' := by simpa using heq
      exact h.1
  | emptyArr _ => exact clean_arr clean_nil_elements
  | arr _ ih => exact clean_arr ih
  | emptyObj _ => exact clean_obj clean_nil_members
  | obj _ ih => exact clean_obj ih
  | element _ _ _ ih => exact clean_elements ih clean_nil_elements
  | elements _ _ _ _ ih ih' => exact clean_elements ih ih'
  | member _ hn _ _ _ _ ih => exact clean_members hn.1 ih clean_nil_members
  | members _ hn _ _ _ _ _ ih ih' => exact clean_members hn.1 ih ih'

/-! ## What the decoder returns -/

/-- Every number of the text is an integer. -/
def IntegersOnly (j : Json) : Prop :=
  ∀ v ∈ j.visits [] 0, ∀ t, v.scalar = some (.num t) → jsonNumberIsInteger t = true

section Decoded

variable {strtod : CStr → UInt64 × CStr × Bool} {dictHash : CStr → UInt32}

theorem plain_intValue {n : ℤ} {x : DictValue} (h : intValue n = some x) : x.Plain := by
  rw [intValue] at h
  split_ifs at h
  all_goals
    obtain rfl := Option.some_inj.mp h
    trivial

theorem Scalar.plain_value {c : Scalar} (hstr : ∀ items, c = .str items → ∀ i ∈ items, i.Valid)
    (hint : ∀ t, c = .num t → jsonNumberIsInteger t = true) {x : DictValue}
    (hx : c.value strtod = some x) : x.Plain := by
  cases c with
  | null =>
    obtain rfl := Option.some_inj.mp hx
    trivial
  | bool b =>
    obtain rfl := Option.some_inj.mp hx
    trivial
  | num t =>
    rw [Scalar.value, if_pos (hint t rfl)] at hx
    exact plain_intValue hx
  | str items =>
    obtain ⟨out, hout, rfl⟩ := Option.map_eq_some_iff.mp hx
    exact zero_not_mem_decodeItems (hstr items rfl) hout

theorem JsonText.leaf_clean {j : Json} {text : CStr} (ht : JsonText j text) (hint : IntegersOnly j)
    {l : CStr × DictValue} (hl : l ∈ j.leaves strtod) : 0 ∉ l.1 ∧ l.2.Plain := by
  obtain ⟨s, r, -, hder, -⟩ := ht
  obtain ⟨v, hv, hleaf⟩ := List.mem_filterMap.mp hl
  obtain ⟨hpath, hvalid⟩ := hder.clean [] 0 (by simp) v hv
  obtain ⟨hl1, c, hc, hx⟩ := Visit.leaf_eq_some.mp hleaf
  refine ⟨hl1 ▸ hpath, c.plain_value (fun items h ↦ hvalid items (h ▸ hc)) (fun t h ↦ ?_) hx⟩
  exact hint v hv t (h ▸ hc)

theorem KeysOk.congr {ks ks' : List CStr} (h : ∀ k, k ∈ ks ↔ k ∈ ks') : KeysOk ks ↔ KeysOk ks' := by
  constructor
  · exact fun ⟨he, hp⟩ ↦ ⟨fun k hk ↦ he k ((h k).mpr hk),
      fun k hk k' hk' ↦ hp k ((h k).mpr hk) k' ((h k').mpr hk')⟩
  · exact fun ⟨he, hp⟩ ↦ ⟨fun k hk ↦ he k ((h k).mp hk),
      fun k hk k' hk' ↦ hp k ((h k).mp hk) k' ((h k').mp hk')⟩

/-- The keys of what is decoded are the paths of the leaves. -/
theorem Flattened.perm_keys {j : Json} {d : Dict} (h : Flattened strtod dictHash j d) :
    d.keys.Perm ((j.leaves strtod).map Prod.fst) := by
  have := h.holds.map Prod.fst
  rwa [List.map_map] at this

theorem Flattened.entry {j : Json} {d : Dict} (h : Flattened strtod dictHash j d) {kp : Keypair}
    (hkp : kp ∈ d.entries) : (kp.key, kp.value) ∈ j.leaves strtod :=
  h.holds.mem_iff.mp (List.mem_map.mpr ⟨kp, hkp, rfl⟩)

theorem Coherent.mem_keys {d : Dict} (hd : Coherent dictHash d) {k : CStr} :
    k ∈ d.keys ↔ d.toMap k ≠ none := by
  rw [Option.ne_none_iff_exists', Dict.keys, List.mem_map]
  simp only [hd.toMap_eq_some_iff, List.mem_map, Prod.mk.injEq]
  constructor
  · rintro ⟨kp, hmem, rfl⟩
    exact ⟨kp.value, kp, hmem, rfl, rfl⟩
  · rintro ⟨x, kp, hmem, hk, -⟩
    exact ⟨kp, hmem, hk⟩

end Decoded

/-! ## Counting -/

/-- If no term grows and the sum stays, no term changes. -/
theorem eq_of_sum_map_eq {α : Type} {l : List α} {f g : α → ℕ} (hle : ∀ a ∈ l, f a ≤ g a)
    (hsum : (l.map f).sum = (l.map g).sum) : ∀ a ∈ l, f a = g a := by
  have hsum_le : ∀ {l : List α}, (∀ a ∈ l, f a ≤ g a) → (l.map f).sum ≤ (l.map g).sum := by
    intro l
    induction l with
    | nil => simp
    | cons a l ih =>
      intro hle
      obtain ⟨ha, hle⟩ := List.forall_mem_cons.mp hle
      simpa using Nat.add_le_add ha (ih hle)
  induction l with
  | nil => simp
  | cons a l ih =>
    obtain ⟨ha, hle⟩ := List.forall_mem_cons.mp hle
    have hrest := hsum_le hle
    rw [List.map_cons, List.map_cons, List.sum_cons, List.sum_cons] at hsum
    exact List.forall_mem_cons.mpr ⟨by omega, ih hle (by omega)⟩

/-- The paths of the nodes that are printed as values. -/
def shownPaths (list : JsonNode Leaf) : List (List CStr) :=
  (list.nodes.filter fun n ↦ n.2.isSome).map Prod.fst

theorem mem_shownPaths {list : JsonNode Leaf} {path : List CStr} :
    path ∈ shownPaths list ↔ ∃ x, (path, some x) ∈ list.nodes := by
  simp only [shownPaths, List.mem_map, List.mem_filter, Option.isSome_iff_exists, Prod.exists]
  constructor
  · rintro ⟨p, o, ⟨hn, x, rfl⟩, rfl⟩
    exact ⟨x, hn⟩
  · rintro ⟨x, hn⟩
    exact ⟨path, some x, ⟨hn, x, rfl⟩, rfl⟩

theorem map_fst_leaves (strtod : CStr → UInt64 × CStr × Bool) {P : CStr → Prop}
    (hP : ∀ key, P key → 0 ∉ key) {list : JsonNode Leaf} (h : list.Tidy P) :
    ((Json.obj list.toMembers).leaves strtod).map Prod.fst = (shownPaths list).map flatKey := by
  rw [leaves_printed strtod hP h, shownPaths]
  induction list.nodes with
  | nil => rfl
  | cons n ns ih =>
    obtain ⟨path, o⟩ := n
    cases o with
    | none => simpa using ih
    | some leaf => simpa using ih

section Lossless

variable {strtod : CStr → UInt64 × CStr × Bool} {dictHash : CStr → UInt32} {printf : Printf}

/-- **If the keys come back, they are fine.** -/
theorem keysOk_of_roundTrips {d : Dict} (hd : Coherent dictHash d)
    (hnul : ∀ kp ∈ d.entries, 0 ∉ kp.key) (hplain : ∀ kp ∈ d.entries, kp.value.Plain)
    (h : RoundTrips strtod dictHash printf d) : KeysOk d.keys := by
  obtain ⟨d', hjson, hrel⟩ := h
  rw [dict2json_eq printf hplain] at hjson
  have hP : ∀ key, Segment key → 0 ∉ key := fun _ h ↦ h.2.2
  have htidy := tidy_encodeTree hnul
  obtain ⟨j, ht, hacc, hflat⟩ := (json2dict_exact strtod dictHash _).2.1 d' hjson
  obtain rfl := (dumpJson_spells (encodeTree d.entries)).unique ht
  have hdepth := ((acceptable_printed_iff strtod hP htidy).mp hacc).1
  have hd' := hflat.table.toCoherent
  -- as many paths are printed as values as there are keys
  have hback : d.keys.Perm ((shownPaths (encodeTree d.entries)).map flatKey) := by
    rw [← map_fst_leaves strtod hP htidy]
    refine List.Perm.trans ?_ hflat.perm_keys
    refine (List.perm_ext_iff_of_nodup hd.nodup_entries hd'.nodup_entries).mpr fun k ↦ ?_
    rw [← Dict.keys, ← Dict.keys, hd.mem_keys, hd'.mem_keys]
    have := hrel k
    cases hk : d.toMap k <;> cases hk' : d'.toMap k <;> simp_all
  have hshown : ∀ {path}, path ∈ shownPaths (encodeTree d.entries) →
      ∃ x, (encodeTree d.entries).get path = some x ∧
        ∀ q ≠ [], (encodeTree d.entries).get (path ++ q) = none := fun hpath ↦ by
    obtain ⟨x, hn⟩ := mem_shownPaths.mp hpath
    exact ⟨x, (mem_nodes_iff htidy).mp hn⟩
  have hperm : (shownPaths (encodeTree d.entries)).Perm (d.keys.map tokens) := by
    have hnodup : (shownPaths (encodeTree d.entries)).Nodup :=
      (nodup_nodes htidy).sublist (List.filter_sublist.map _)
    refine (List.subperm_of_subset hnodup fun path hpath ↦ ?_).perm_of_length_le ?_
    · obtain ⟨x, hx, -⟩ := hshown hpath
      obtain ⟨kp, hmem, heq, -⟩ := exists_of_get_encodeTree hx
      exact List.mem_map.mpr ⟨kp.key, List.mem_map_of_mem hmem, heq⟩
    · have := hback.length_eq
      rw [List.length_map] at this
      rw [List.length_map, this]
  -- so the keys come back permuted, and none of them is shorter
  have hlength : ∀ k ∈ d.keys, (flatKey (tokens k)).length = k.length := by
    refine eq_of_sum_map_eq (fun k _ ↦ flatKey_tokens_length_le k) ?_
    have hall := (hback.trans (hperm.map flatKey)).map List.length
    rw [List.map_map, List.map_map] at hall
    exact hall.sum_eq.symm
  have hpath : ∀ {k}, k ∈ d.keys → tokens k ∈ shownPaths (encodeTree d.entries) := fun hk ↦
    hperm.mem_iff.mpr (List.mem_map_of_mem hk)
  have hkey : ∀ k ∈ d.keys, KeyOk k := fun k hk ↦ by
    obtain ⟨x, hn⟩ := mem_shownPaths.mp (hpath hk)
    obtain ⟨s, p, hs, -⟩ := head_of_mem_nodes hn
    have hs : tokens k = s :: p := hs
    obtain ⟨heq, hne, hb⟩ := splitOn_of_length_eq (by simp [hs]) (hlength k hk)
    exact ⟨heq ▸ hdepth _ hn, hne, hb⟩
  refine ⟨hkey, fun k hk k' hk' hpre ↦ ?_⟩
  obtain ⟨q, hq, heq⟩ := ((hkey k hk).dotPrefix_iff (hkey k' hk')).mp hpre
  obtain ⟨-, -, hnone⟩ := hshown (hpath hk)
  obtain ⟨x, hx, -⟩ := hshown (hpath hk')
  rw [heq, hnone q hq] at hx
  simp at hx

variable (strtod dictHash printf)

/-- **Re-serialising what was decoded loses nothing exactly if the keys are fine**: every leaf of
the text has a path of at most 64 nonempty segments, none after the first starting with a bracket,
and no leaf's path is a dot-prefix of another's. -/
theorem roundTrips_iff {ms : Members} {text : CStr} {d : Dict} (ht : JsonText (.obj ms) text)
    (hint : IntegersOnly (.obj ms)) (h : json2dict strtod dictHash text = some (some d)) :
    RoundTrips strtod dictHash printf d
      ↔ KeysOk (((Json.obj ms).leaves strtod).map Prod.fst) := by
  obtain ⟨j, ht', hacc, hflat⟩ := (json2dict_exact strtod dictHash text).2.1 d h
  obtain rfl := ht.unique ht'
  have hnul : ∀ kp ∈ d.entries, 0 ∉ kp.key := fun kp hkp ↦
    (ht.leaf_clean hint (hflat.entry hkp)).1
  have hplain : ∀ kp ∈ d.entries, kp.value.Plain := fun kp hkp ↦
    (ht.leaf_clean hint (hflat.entry hkp)).2
  have hd := hflat.table.toCoherent
  rw [← KeysOk.congr fun k ↦ hflat.perm_keys.mem_iff]
  exact ⟨keysOk_of_roundTrips hd hnul hplain,
    fun hkeys ↦ roundTrips_of_keysOk strtod printf hd hkeys hnul hplain⟩

end Lossless

/-! ### A text whose keys come back, and one whose key does not -/

/-- An object in the member `a`, and a string beside it. -/
def nestedMembers : Members :=
  .cons [.byte 97] (.obj (.cons [.byte 98] (.num [0x31]) .nil))
    (.cons [.byte 99] (.str [.byte 120]) .nil)

def nestedText : CStr := lit "\x7b\"a\":\x7b\"b\":1\x7d,\"c\":\"x\"\x7d"

/-- What is made of the text. -/
def nestedDict : Dict :=
  dictStoreAt (dictStoreAt dictNew 7 (lit "a.b") (.int 1) (dictHashMurmur (lit "a.b"))) 2 (lit "c")
    (.str (some (lit "x"))) (dictHashMurmur (lit "c"))

theorem strText_byte {c : UInt8} (h : 0x20 ≤ c ∧ c ≠ quote ∧ c ≠ backslash) (r : CStr) :
    StrText [.byte c] (quote :: c :: quote :: r) r :=
  ⟨by simpa [StrItem.Valid] using h, rfl⟩

theorem jsonText_nestedText : JsonText (.obj nestedMembers) nestedText :=
  have hnum : NumberText [0x31] := (scanNumber_iff [0x31]).mp (by decide)
  have hinner : Derives (.value (.obj (.cons [.byte 98] (.num [0x31]) .nil)))
      (lit "\x7b\"b\":1\x7d,\"c\":\"x\"\x7d") (lit ",\"c\":\"x\"\x7d") :=
    .obj (.member (.refl _) (strText_byte (by decide) _) (.refl _) (.refl _)
      (.num hnum (r := rbrace :: lit ",\"c\":\"x\"\x7d")) (.refl _))
  have hlast : Derives (.members (.cons [.byte 99] (.str [.byte 120]) .nil))
      (lit "\"c\":\"x\"\x7d") [rbrace] :=
    .member (.refl _) (strText_byte (by decide) _) (.refl _) (.refl _)
      (.str (strText_byte (by decide) _)) (.refl _)
  ⟨nestedText, [], .refl _, .obj (.members (.refl _) (strText_byte (by decide) _) (.refl _)
    (.refl _) hinner (.refl _) hlast), .refl _⟩

theorem roundTrips_iff_nestedText :
    json2dict strtodNone dictHashMurmur nestedText = some (some nestedDict) ∧
      RoundTrips strtodNone dictHashMurmur printfNone nestedDict := by
  have hparsed : json2dict strtodNone dictHashMurmur nestedText = some (some nestedDict) := by
    decide +kernel
  refine ⟨hparsed, (roundTrips_iff strtodNone dictHashMurmur printfNone jsonText_nestedText
    (fun v hv t ht ↦ ?_) hparsed).mpr ?_⟩
  · simp only [nestedMembers, Json.visits, Members.visits, List.append_nil, List.cons_append,
      List.nil_append, List.mem_cons, List.not_mem_nil, or_false] at hv
    rcases hv with rfl | rfl | rfl | rfl
    · simp at ht
    · simp at ht
    · obtain rfl : [0x31] = t := by simpa using ht
      decide
    · simp at ht
  · have hpaths : ((Json.obj nestedMembers).leaves strtodNone).map Prod.fst
        = [lit "a.b", lit "c"] := by decide +kernel
    rw [hpaths]
    refine ⟨fun k hk ↦ ?_, by decide +kernel⟩
    simp only [List.mem_cons, List.not_mem_nil, or_false] at hk
    rcases hk with rfl | rfl
    · exact ⟨by decide +kernel, by decide +kernel, by decide +kernel⟩
    · exact ⟨by decide +kernel, by decide +kernel, by decide +kernel⟩

/-- The member with the empty name is stored, and is not printed. -/
theorem not_roundTrips_emptyName : ∃ d,
    json2dict strtodNone dictHashMurmur (lit "\x7b\"\":1\x7d") = some (some d) ∧
      d.toMap [] = some (.int 1) ∧ dict2json printfNone d = lit "\x7b\x7d" ∧
      ¬ RoundTrips strtodNone dictHashMurmur printfNone d := by
  refine ⟨dictStoreAt dictNew 6 [] (.int 1) (dictHashMurmur []), by decide +kernel, by decide,
    by decide, ?_⟩
  rintro ⟨d', hd', hrel⟩
  have hempty : json2dict strtodNone dictHashMurmur (dict2json printfNone
      (dictStoreAt dictNew 6 [] (.int 1) (dictHashMurmur []))) = some (some dictNew) := by
    decide +kernel
  obtain rfl : dictNew = d' := by simpa [hempty] using hd'
  have hkey : (dictStoreAt dictNew 6 [] (.int 1) (dictHashMurmur [])).toMap [] = some (.int 1) := by
    decide
  have hlost := hrel []
  rw [hkey, toMap_dictNew] at hlost
  cases hlost

end Rustyaxe
