import Rustyaxe.Json.Phrases

/-!
# `json2dict` recognises JSON and stores its leaves

Soundness (`sound`) is by induction on the fuel: on a table that has only been added to, every
parsing function returns, and if it succeeds there is a derivation of what it has read, and the
table has changed as `place` says.  Completeness (`complete`) is by induction on the derivation.
`json2dict_exact` puts the two together.
-/

set_option autoImplicit false

namespace Rustyaxe

/-! ## One level of the parser -/

section Parser

variable (strtod : CStr → UInt64 × CStr × Bool) (dictHash : CStr → UInt32)

/-- The end of `json_parse_value` for a scalar. -/
def storeScalar (d : Dict) (path : CStr) : Option (DictValue × CStr) → Option (Option CStr × Dict)
  | none => some (none, d)
  | some (x, r) =>
    (dictStore dictHash .ok d path x).bind fun p ↦ some (if p.1 then some r else none, p.2)

variable {dictHash}

theorem valType_ne_valEnd (x : DictValue) : x.valType ≠ .valEnd := by
  cases x <;> simp [DictValue.valType]

theorem AddOnly.dictGetType_valEnd {d : Dict} (hd : AddOnly dictHash d) (path : CStr) :
    ∃ t, dictGetType dictHash d path = some t ∧ (t = .valEnd ↔ d.toMap path = none) := by
  refine ⟨_, hd.dictGetType_eq path, ?_⟩
  cases h : d.toMap path with
  | none => simp
  | some x => simp [valType_ne_valEnd x]

theorem AddOnly.storeScalar {d : Dict} (hd : AddOnly dictHash d) {path : CStr}
    (hnone : d.toMap path = none) (x : DictValue) (r : CStr) :
    ∃ d', storeScalar dictHash d path (some (x, r)) = some (some r, d') ∧ AddOnly dictHash d' ∧
      d'.toMap = Function.update d.toMap path (some x) := by
  obtain ⟨d', hstore, hd', hmap⟩ := hd.store hnone x
  exact ⟨d', by rw [Rustyaxe.storeScalar, hstore]; rfl, hd', hmap⟩

/-- **`json_parse_value`, one level**: the three checks, and then what the first byte says. -/
theorem AddOnly.jsonParseValue_eq {d : Dict} (hd : AddOnly dictHash d) (fuel : ℕ) (s path : CStr)
    (depth : ℕ) : jsonParseValue strtod dictHash (fuel + 1) s path d depth =
      if skipWs s = [] ∨ depth > jsonMaxDepth ∨ d.toMap path ≠ none then some (none, d)
      else if (skipWs s).head? = some lbrace then
        jsonParseObj strtod dictHash fuel (skipWs s).tail path d depth
      else if (skipWs s).head? = some lbracket then
        jsonParseArray strtod dictHash fuel (skipWs s).tail path d depth
      else Rustyaxe.storeScalar dictHash d path (parseScalar strtod (skipWs s)) := by
  obtain ⟨t, ht, hiff⟩ := hd.dictGetType_valEnd path
  rw [jsonParseValue, ht]
  simp only [Option.bind_eq_bind, Option.bind_some, Option.pure_def]
  by_cases hopen : skipWs s = [] ∨ depth > jsonMaxDepth
  · rw [if_pos hopen, if_pos (by tauto)]
  rw [if_neg hopen]
  by_cases htype : t = .valEnd
  · have hnone := hiff.mp htype
    have hpass : ¬ (skipWs s = [] ∨ depth > jsonMaxDepth ∨ d.toMap path ≠ none) := by tauto
    rw [if_neg (not_not_intro htype), if_neg hpass]
    by_cases hq : (skipWs s).head? = some quote
    · have hlb : (skipWs s).head? ≠ some lbrace := by rw [hq]; decide
      have hlk : (skipWs s).head? ≠ some lbracket := by rw [hq]; decide
      rw [if_pos hq, if_neg hlb, if_neg hlk, parseScalar, if_pos hq]
      cases jsonParseStr (skipWs s) with
      | none => rfl
      | some p => rfl
    · rw [if_neg hq]
      split
      · rfl
      split
      · rfl
      rw [parseScalar, if_neg hq]
      cases jsonParsePrimitive (skipWs s) with
      | none => rfl
      | some p =>
        simp only [Option.bind_some]
        cases primitiveValue strtod p.1 with
        | none => rfl
        | some x => rfl
  · rw [if_pos htype, if_pos (by have := mt hiff.mpr htype; tauto)]

theorem AddOnly.jsonParseValue_open {d : Dict} (hd : AddOnly dictHash d) {fuel depth : ℕ}
    {s s' path : CStr} {c : UInt8} (hs : skipWs s = c :: s') (hdepth : depth ≤ jsonMaxDepth)
    (hnone : d.toMap path = none) : jsonParseValue strtod dictHash (fuel + 1) s path d depth =
      if c = lbrace then jsonParseObj strtod dictHash fuel s' path d depth
      else if c = lbracket then jsonParseArray strtod dictHash fuel s' path d depth
      else Rustyaxe.storeScalar dictHash d path (parseScalar strtod (c :: s')) := by
  rw [hd.jsonParseValue_eq, hs, if_neg (by simp [hnone, hdepth])]
  simp only [List.head?_cons, Option.some_inj, List.tail_cons]

/-! ## Completeness -/

variable (dictHash)

/-- What the parser owes to a phrase that is in the text, followed by `r`: with enough fuel, it
reads it and places its values. -/
def Reads : Phrase → (s r : CStr) → Prop
  | .value j, s, r => ∀ fuel s₀ path d depth m, 3 * s₀.length + 1 ≤ fuel → Ws s₀ s → Follow r →
      j.NamesOk → AddOnly dictHash d → place strtod d.toMap (j.visits path depth) = some m →
      ∃ d', jsonParseValue strtod dictHash fuel s₀ path d depth = some (some r, d') ∧
        AddOnly dictHash d' ∧ d'.toMap = m
  | .elements es, s, r => ∀ fuel r' path d depth idx m, 3 * s.length + 2 ≤ fuel →
      r = rbracket :: r' → es.NamesOk → AddOnly dictHash d →
      place strtod d.toMap (es.visits path (depth + 1) idx) = some m →
      ∃ d', jsonParseElements strtod dictHash fuel (skipWs s) path d depth idx
          = some (some r', d') ∧ AddOnly dictHash d' ∧ d'.toMap = m
  | .members ms, s, r => ∀ fuel r' path d depth keys m, 3 * s.length + 2 ≤ fuel →
      r = rbrace :: r' → (∀ name ∈ ms.names, decodeItems name ≠ none) →
      (ms.names.map nameOf).Nodup → (∀ name ∈ ms.names, keys.toMap (nameOf name) = none) →
      ms.NamesOk → AddOnly dictHash keys → AddOnly dictHash d →
      place strtod d.toMap (ms.visits path (depth + 1)) = some m →
      ∃ d', jsonParseMembers strtod dictHash fuel (skipWs s) path d depth keys
          = some (some r', d') ∧ AddOnly dictHash d' ∧ d'.toMap = m

theorem reads_scalar (c : Scalar) {s r : CStr} (h : Derives (.value c.toJson) s r) :
    Reads strtod dictHash (.value c.toJson) s r := by
  intro fuel s₀ path d depth m hfuel hw hr _ hd hplace
  obtain ⟨fuel, rfl⟩ := Nat.exists_eq_add_of_le' (show 1 ≤ fuel by omega)
  rw [c.visits_toJson, place_cons_eq_some] at hplace
  obtain ⟨hdepth, hnone, x, hx, hm⟩ := hplace
  obtain ⟨hlb, hlk, hparse⟩ := parseScalar_complete h hr hx
  obtain ⟨b, t, rfl, -⟩ := h.value_head
  rw [List.head?_cons, Ne, Option.some_inj] at hlb hlk
  rw [hd.jsonParseValue_open strtod (h.skipWs_eq hw) hdepth hnone, if_neg hlb, if_neg hlk, hparse]
  obtain rfl : _ = m := by simpa [place] using hm
  exact hd.storeScalar hnone x r

theorem reads_element {j : Json} {s s₁ s₂ r : CStr} (hw : Ws s s₁)
    (h : Derives (.value j) s₁ s₂) (hw' : Ws s₂ r) (ih : Reads strtod dictHash (.value j) s₁ s₂) :
    Reads strtod dictHash (.elements (.cons j .nil)) s r := by
  intro fuel r' path d depth idx m hfuel hr hnames hd hplace
  subst hr
  obtain ⟨fuel, rfl⟩ := Nat.exists_eq_add_of_le' (show 1 ≤ fuel by omega)
  have hlen := hw.length_le
  rw [Elements.visits, Elements.visits, List.append_nil] at hplace
  obtain ⟨d', hv, hd', hm⟩ := ih fuel s₁ _ d (depth + 1) m (by omega) (.refl _) (hw'.follow rfl)
    hnames.1 hd hplace
  obtain ⟨c, t, hs, -⟩ := h.value_head
  refine ⟨d', ?_, hd', hm⟩
  rw [h.skipWs_eq hw, jsonParseElements, if_neg (by simp [hs]), hv]
  simp only [Option.bind_eq_bind, Option.bind_some, hw'.skipWs_cons (rfl : isJsonWs rbracket = false)]
  rw [if_pos (List.head?_cons ..)]
  rfl

theorem reads_elements {j : Json} {es : Elements} {s s₁ s₂ s₃ r : CStr} (hw : Ws s s₁)
    (h : Derives (.value j) s₁ s₂) (hw' : Ws s₂ (comma :: s₃)) (h' : Derives (.elements es) s₃ r)
    (ih : Reads strtod dictHash (.value j) s₁ s₂) (ih' : Reads strtod dictHash (.elements es) s₃ r) :
    Reads strtod dictHash (.elements (.cons j es)) s r := by
  intro fuel r' path d depth idx m hfuel hr hnames hd hplace
  obtain ⟨fuel, rfl⟩ := Nat.exists_eq_add_of_le' (show 1 ≤ fuel by omega)
  have hlen := hw.length_le
  have hlen₁ := h.length_lt
  have hlen₂ := hw'.length_le
  rw [List.length_cons] at hlen₂
  rw [Elements.visits, place_append] at hplace
  obtain ⟨m₁, hm₁, hplace⟩ := Option.bind_eq_some_iff.mp hplace
  obtain ⟨d₁, hv, hd₁, rfl⟩ := ih fuel s₁ _ d (depth + 1) m₁ (by omega) (.refl _) (hw'.follow rfl)
    hnames.1 hd hm₁
  obtain ⟨d', hes, hd', hm⟩ := ih' fuel r' path d₁ depth (idx + 1) m (by omega) hr hnames.2 hd₁ hplace
  obtain ⟨c, t, hs, -⟩ := h.value_head
  obtain ⟨c', t', hs', hc'⟩ := h'.elements_head
  have hclose : (skipWs s₃).head? ≠ some rbracket := by
    rw [hs', List.head?_cons, Ne, Option.some_inj]
    rintro rfl
    exact absurd hc' (by decide)
  refine ⟨d', ?_, hd', hm⟩
  rw [h.skipWs_eq hw, jsonParseElements, if_neg (by simp [hs]), hv]
  simp only [Option.bind_eq_bind, Option.bind_some, hw'.skipWs_cons (rfl : isJsonWs comma = false),
    List.head?_cons, List.tail_cons]
  rw [if_neg (by decide), if_neg (by simp), if_neg hclose]
  exact hes

theorem nameOf_eq {name : List StrItem} {out : CStr} (h : decodeItems name = some out) :
    nameOf name = out := by
  rw [nameOf, h]
  rfl

/-- The checks of `json_parse_obj` on a name, and the value after it. -/
theorem jsonParseMembers_value {keys d d₁ : Dict} {name : List StrItem} {fuel depth : ℕ}
    {s₁ s₂ s₃ s₅ path : CStr} (hkeys : AddOnly dictHash keys) (hn : StrText name s₁ s₂)
    (hdec : decodeItems name ≠ none) (hfresh : keys.toMap (nameOf name) = none)
    (hc : Ws s₂ (colon :: s₃))
    (hv : jsonParseValue strtod dictHash fuel s₃ (pathAppend path (nameOf name)) d (depth + 1)
      = some (some s₅, d₁)) :
    ∃ keys', AddOnly dictHash keys' ∧
      keys'.toMap = Function.update keys.toMap (nameOf name) (some (.bool true)) ∧
      jsonParseMembers strtod dictHash (fuel + 1) s₁ path d depth keys =
        if (skipWs s₅).head? = some rbrace then some (some (skipWs s₅).tail, d₁)
        else if (skipWs s₅).head? ≠ some comma then some (none, d₁)
        else if (skipWs (skipWs s₅).tail).head? = some rbrace then some (none, d₁)
        else jsonParseMembers strtod dictHash fuel (skipWs (skipWs s₅).tail) path d₁ depth
          keys' := by
  obtain ⟨out, hout⟩ := Option.ne_none_iff_exists'.mp hdec
  rw [nameOf_eq hout] at hfresh hv ⊢
  obtain ⟨t, ht, hiff⟩ := hkeys.dictGetType_valEnd out
  obtain ⟨keys', hstore, hkeys', hmap⟩ := hkeys.store hfresh (.bool true)
  refine ⟨keys', hkeys', hmap, ?_⟩
  rw [jsonParseMembers, jsonParseStr_iff.mpr ⟨name, hn, hout⟩]
  simp only [ht, Option.bind_eq_bind, Option.bind_some, Option.pure_def]
  rw [if_neg (not_not_intro (hiff.mpr hfresh)), dictAddBool, hstore]
  simp only [Option.bind_some, hc.skipWs_cons (rfl : isJsonWs colon = false), List.head?_cons,
    List.tail_cons, hv]
  rw [if_neg (by decide), if_neg (by simp)]

theorem reads_member {name : List StrItem} {j : Json} {s s₁ s₂ s₃ s₄ s₅ r : CStr} (hw : Ws s s₁)
    (hn : StrText name s₁ s₂) (hc : Ws s₂ (colon :: s₃)) (hw' : Ws s₃ s₄)
    (hw'' : Ws s₅ r) (ih : Reads strtod dictHash (.value j) s₄ s₅) :
    Reads strtod dictHash (.members (.cons name j .nil)) s r := by
  intro fuel r' path d depth keys m hfuel hr hdec _ hfresh hnames hkeys hd hplace
  subst hr
  obtain ⟨fuel, rfl⟩ := Nat.exists_eq_add_of_le' (show 1 ≤ fuel by omega)
  have hlen := hw.length_le
  have hlen₁ := hn.length_lt
  have hlen₂ := hc.length_le
  rw [List.length_cons] at hlen₂
  rw [Members.visits, Members.visits, List.append_nil] at hplace
  obtain ⟨d', hv, hd', hm⟩ := ih fuel s₃ _ d (depth + 1) m (by omega) hw' (hw''.follow rfl)
    hnames.1 hd hplace
  obtain ⟨keys', -, -, heq⟩ := jsonParseMembers_value strtod dictHash hkeys hn
    (hdec name List.mem_cons_self) (hfresh name List.mem_cons_self) hc hv
  refine ⟨d', ?_, hd', hm⟩
  rw [hn.skipWs_eq hw, heq, hw''.skipWs_cons (rfl : isJsonWs rbrace = false),
    if_pos (List.head?_cons ..), List.tail_cons]

theorem reads_members {name : List StrItem} {j : Json} {ms : Members}
    {s s₁ s₂ s₃ s₄ s₅ s₆ r : CStr} (hw : Ws s s₁) (hn : StrText name s₁ s₂)
    (hc : Ws s₂ (colon :: s₃)) (hw' : Ws s₃ s₄) (h : Derives (.value j) s₄ s₅)
    (hw'' : Ws s₅ (comma :: s₆)) (h' : Derives (.members ms) s₆ r)
    (ih : Reads strtod dictHash (.value j) s₄ s₅) (ih' : Reads strtod dictHash (.members ms) s₆ r) :
    Reads strtod dictHash (.members (.cons name j ms)) s r := by
  intro fuel r' path d depth keys m hfuel hr hdec hnodup hfresh hnames hkeys hd hplace
  obtain ⟨fuel, rfl⟩ := Nat.exists_eq_add_of_le' (show 1 ≤ fuel by omega)
  have hlen := hw.length_le
  have hlen₁ := hn.length_lt
  have hlen₂ := hc.length_le
  have hlen₃ := hw'.length_le
  have hlen₄ := h.length_lt
  have hlen₅ := hw''.length_le
  rw [List.length_cons] at hlen₂ hlen₅
  rw [Members.visits, place_append] at hplace
  obtain ⟨m₁, hm₁, hplace⟩ := Option.bind_eq_some_iff.mp hplace
  obtain ⟨d₁, hv, hd₁, rfl⟩ := ih fuel s₃ _ d (depth + 1) m₁ (by omega) hw' (hw''.follow rfl)
    hnames.1 hd hm₁
  obtain ⟨keys', hkeys', hmap, heq⟩ := jsonParseMembers_value strtod dictHash hkeys hn
    (hdec name List.mem_cons_self) (hfresh name List.mem_cons_self) hc hv
  rw [Members.names, List.map_cons, List.nodup_cons] at hnodup
  have hfresh' : ∀ n ∈ ms.names, keys'.toMap (nameOf n) = none := fun n hn' ↦ by
    rw [hmap, update_some_eq_none]
    exact ⟨fun he ↦ hnodup.1 (List.mem_map.mpr ⟨n, hn', he⟩), hfresh n (List.mem_cons_of_mem _ hn')⟩
  obtain ⟨d', hms, hd', hm⟩ := ih' fuel r' path d₁ depth keys' m (by omega) hr
    (fun n hn' ↦ hdec n (List.mem_cons_of_mem _ hn')) hnodup.2 hfresh' hnames.2 hkeys' hd₁ hplace
  refine ⟨d', ?_, hd', hm⟩
  rw [hn.skipWs_eq hw, heq, hw''.skipWs_cons (rfl : isJsonWs comma = false), List.tail_cons,
    List.head?_cons, h'.members_head, if_neg (by decide), if_neg (by simp), if_neg (by decide)]
  exact hms

/-- **Completeness.**  The parser reads every phrase of the grammar. -/
theorem complete {ph : Phrase} {s r : CStr} (h : Derives ph s r) : Reads strtod dictHash ph s r := by
  induction h with
  | null => exact reads_scalar strtod dictHash .null .null
  | true => exact reads_scalar strtod dictHash (.bool true) .true
  | false => exact reads_scalar strtod dictHash (.bool Bool.false) .false
  | @num t _ h => exact reads_scalar strtod dictHash (.num t) (.num h)
  | @str items _ _ h => exact reads_scalar strtod dictHash (.str items) (.str h)
  | @emptyArr s r hw =>
    intro fuel s₀ path d depth m hfuel hw₀ _ _ hd hplace
    obtain ⟨fuel, rfl⟩ := Nat.exists_eq_add_of_le' (show 2 ≤ fuel by
      have := hw₀.length_le; rw [List.length_cons] at this; omega)
    obtain ⟨hdepth, hnone, hm⟩ := place_cons_eq_some.mp hplace
    refine ⟨d, ?_, hd, by simpa [Elements.visits, place] using hm⟩
    rw [hd.jsonParseValue_open strtod (hw₀.skipWs_cons rfl) hdepth hnone, if_neg (by decide),
      if_pos rfl, jsonParseArray]
    simp only [hw.skipWs_cons (rfl : isJsonWs rbracket = false)]
    rfl
  | @arr es s r h ih =>
    intro fuel s₀ path d depth m hfuel hw₀ _ hnames hd hplace
    have hlen := hw₀.length_le
    rw [List.length_cons] at hlen
    obtain ⟨fuel, rfl⟩ := Nat.exists_eq_add_of_le' (show 2 ≤ fuel by omega)
    obtain ⟨hdepth, hnone, hm⟩ := place_cons_eq_some.mp hplace
    obtain ⟨d', hes, hd', hm'⟩ := ih fuel r path d depth 0 m (by omega) rfl hnames hd hm
    refine ⟨d', ?_, hd', hm'⟩
    obtain ⟨c, t, hs, hc⟩ := h.elements_head
    have hclose : (skipWs s).head? ≠ some rbracket := by
      rw [hs, List.head?_cons, Ne, Option.some_inj]
      rintro rfl
      exact absurd hc (by decide)
    rw [hd.jsonParseValue_open strtod (hw₀.skipWs_cons rfl) hdepth hnone, if_neg (by decide),
      if_pos rfl, jsonParseArray, if_neg hclose]
    exact hes
  | @emptyObj s r hw =>
    intro fuel s₀ path d depth m hfuel hw₀ _ _ hd hplace
    obtain ⟨fuel, rfl⟩ := Nat.exists_eq_add_of_le' (show 2 ≤ fuel by
      have := hw₀.length_le; rw [List.length_cons] at this; omega)
    obtain ⟨hdepth, hnone, hm⟩ := place_cons_eq_some.mp hplace
    refine ⟨d, ?_, hd, by simpa [Members.visits, place] using hm⟩
    rw [hd.jsonParseValue_open strtod (hw₀.skipWs_cons rfl) hdepth hnone, if_pos rfl, jsonParseObj]
    simp only [hw.skipWs_cons (rfl : isJsonWs rbrace = false)]
    rfl
  | @obj ms s r h ih =>
    intro fuel s₀ path d depth m hfuel hw₀ _ hnames hd hplace
    have hlen := hw₀.length_le
    rw [List.length_cons] at hlen
    obtain ⟨fuel, rfl⟩ := Nat.exists_eq_add_of_le' (show 2 ≤ fuel by omega)
    obtain ⟨hdepth, hnone, hm⟩ := place_cons_eq_some.mp hplace
    obtain ⟨hdec, hnodup, hms⟩ := hnames
    obtain ⟨d', hread, hd', hm'⟩ := ih fuel r path d depth dictNew m (by omega) rfl hdec hnodup
      (fun _ _ ↦ rfl) hms addOnly_dictNew hd hm
    refine ⟨d', ?_, hd', hm'⟩
    rw [hd.jsonParseValue_open strtod (hw₀.skipWs_cons rfl) hdepth hnone, if_pos rfl, jsonParseObj,
      if_neg (by rw [h.members_head]; decide)]
    exact hread
  | element hw h hw' ih => exact reads_element strtod dictHash hw h hw' ih
  | elements hw h hw' h' ih ih' => exact reads_elements strtod dictHash hw h hw' h' ih ih'
  | member hw hn hc hw' h hw'' ih => exact reads_member strtod dictHash hw hn hc hw' hw'' ih
  | members hw hn hc hw' h hw'' h' ih ih' =>
    exact reads_members strtod dictHash hw hn hc hw' h hw'' h' ih ih'

/-! ## Soundness -/

/-- The call returns, leaves a table that has only been added to, and `Q` holds of what it returns
unless that is `NULL`. -/
def Returns (Q : CStr → Dict → Prop) (x : Option (Option CStr × Dict)) : Prop :=
  ∃ res d', x = some (res, d') ∧ AddOnly dictHash d' ∧ ∀ r, res = some r → Q r d'

variable {dictHash}

theorem Returns.fail {Q : CStr → Dict → Prop} {d : Dict} (hd : AddOnly dictHash d) :
    Returns dictHash Q (some (none, d)) :=
  ⟨none, d, rfl, hd, by simp⟩

theorem Returns.done {Q : CStr → Dict → Prop} {d : Dict} (hd : AddOnly dictHash d) {r : CStr}
    (h : Q r d) : Returns dictHash Q (some (some r, d)) :=
  ⟨some r, d, rfl, hd, fun r' hr' ↦ by obtain rfl := Option.some_inj.mp hr'; exact h⟩

theorem Returns.mono {Q Q' : CStr → Dict → Prop} {x : Option (Option CStr × Dict)}
    (h : Returns dictHash Q x) (hQ : ∀ r d', Q r d' → Q' r d') : Returns dictHash Q' x := by
  obtain ⟨res, d', hx, hd', hq⟩ := h
  exact ⟨res, d', hx, hd', fun r hr ↦ hQ r d' (hq r hr)⟩

variable (dictHash)

/-- What a value that has been read is. -/
def IsValue (s path : CStr) (d : Dict) (depth : ℕ) (r : CStr) (d' : Dict) : Prop :=
  ∃ j s₁, Ws s s₁ ∧ Derives (.value j) s₁ r ∧ j.NamesOk ∧
    place strtod d.toMap (j.visits path depth) = some d'.toMap

/-- What the elements of an array that have been read are. -/
def IsElements (s path : CStr) (d : Dict) (depth idx : ℕ) (r : CStr) (d' : Dict) : Prop :=
  ∃ es, Derives (.elements es) s (rbracket :: r) ∧ es.NamesOk ∧
    place strtod d.toMap (es.visits path (depth + 1) idx) = some d'.toMap

/-- What the members of an object that have been read are. -/
def IsMembers (s path : CStr) (d : Dict) (depth : ℕ) (keys : Dict) (r : CStr) (d' : Dict) : Prop :=
  ∃ ms, Derives (.members ms) s (rbrace :: r) ∧ (∀ name ∈ ms.names, decodeItems name ≠ none) ∧
    (ms.names.map nameOf).Nodup ∧ (∀ name ∈ ms.names, keys.toMap (nameOf name) = none) ∧
    ms.NamesOk ∧ place strtod d.toMap (ms.visits path (depth + 1)) = some d'.toMap

/-- Soundness of the parsing functions with some fuel, as far as that is enough. -/
structure SoundAt (fuel : ℕ) : Prop where
  value : ∀ s path d depth, 3 * s.length + 1 ≤ fuel → AddOnly dictHash d →
    Returns dictHash (IsValue strtod s path d depth)
      (jsonParseValue strtod dictHash fuel s path d depth)
  obj : ∀ s path d depth, 3 * s.length + 3 ≤ fuel → AddOnly dictHash d →
    Returns dictHash (fun r d' ↦ ∃ ms, Derives (.value (.obj ms)) (lbrace :: s) r ∧
        (Json.obj ms).NamesOk ∧ place strtod d.toMap (ms.visits path (depth + 1)) = some d'.toMap)
      (jsonParseObj strtod dictHash fuel s path d depth)
  members : ∀ s path d depth keys, 3 * s.length + 2 ≤ fuel → AddOnly dictHash keys →
    AddOnly dictHash d → Returns dictHash (IsMembers strtod s path d depth keys)
      (jsonParseMembers strtod dictHash fuel s path d depth keys)
  array : ∀ s path d depth, 3 * s.length + 3 ≤ fuel → AddOnly dictHash d →
    Returns dictHash (fun r d' ↦ ∃ es, Derives (.value (.arr es)) (lbracket :: s) r ∧
        es.NamesOk ∧ place strtod d.toMap (es.visits path (depth + 1) 0) = some d'.toMap)
      (jsonParseArray strtod dictHash fuel s path d depth)
  elements : ∀ s path d depth idx, 3 * s.length + 2 ≤ fuel → AddOnly dictHash d →
    Returns dictHash (IsElements strtod s path d depth idx)
      (jsonParseElements strtod dictHash fuel s path d depth idx)

variable {strtod dictHash} {fuel : ℕ} (ih : SoundAt strtod dictHash fuel)
include ih

theorem SoundAt.value_succ {s path : CStr} {d : Dict} {depth : ℕ} (hfuel : 3 * s.length ≤ fuel)
    (hd : AddOnly dictHash d) : Returns dictHash (IsValue strtod s path d depth)
      (jsonParseValue strtod dictHash (fuel + 1) s path d depth) := by
  cases hs : skipWs s with
  | nil =>
    rw [hd.jsonParseValue_eq, if_pos (.inl hs)]
    exact .fail hd
  | cons c s' =>
    by_cases hblock : depth > jsonMaxDepth ∨ d.toMap path ≠ none
    · rw [hd.jsonParseValue_eq, if_pos (.inr hblock)]
      exact .fail hd
    rw [not_or, not_lt, not_not] at hblock
    have hw : Ws s (c :: s') := hs ▸ ws_skipWs s
    have hlen := hw.length_le
    rw [List.length_cons] at hlen
    rw [hd.jsonParseValue_open strtod hs hblock.1 hblock.2]
    split
    · rename_i hc
      subst hc
      refine (ih.obj s' path d depth (by omega) hd).mono fun r d' ⟨ms, hder, hnames, hplace⟩ ↦ ?_
      exact ⟨.obj ms, _, hw, hder, hnames, place_cons_eq_some.mpr ⟨hblock.1, hblock.2, hplace⟩⟩
    split
    · rename_i hc
      subst hc
      refine (ih.array s' path d depth (by omega) hd).mono fun r d' ⟨es, hder, hnames, hplace⟩ ↦ ?_
      exact ⟨.arr es, _, hw, hder, hnames, place_cons_eq_some.mpr ⟨hblock.1, hblock.2, hplace⟩⟩
    cases hp : parseScalar strtod (c :: s') with
    | none => exact .fail hd
    | some p =>
      obtain ⟨x, r⟩ := p
      obtain ⟨v, hder, hval⟩ := parseScalar_sound hp
      obtain ⟨d', hstore, hd', hmap⟩ := hd.storeScalar hblock.2 x r
      rw [hstore]
      refine .done hd' ⟨v.toJson, _, hw, hder, v.namesOk_toJson, ?_⟩
      rw [v.visits_toJson, place_cons_eq_some]
      exact ⟨hblock.1, hblock.2, x, hval, by rw [place, hmap]⟩

theorem SoundAt.array_succ {s path : CStr} {d : Dict} {depth : ℕ}
    (hfuel : 3 * s.length + 2 ≤ fuel) (hd : AddOnly dictHash d) :
    Returns dictHash (fun r d' ↦ ∃ es, Derives (.value (.arr es)) (lbracket :: s) r ∧
        es.NamesOk ∧ place strtod d.toMap (es.visits path (depth + 1) 0) = some d'.toMap)
      (jsonParseArray strtod dictHash (fuel + 1) s path d depth) := by
  have hw := ws_skipWs s
  have hlen := hw.length_le
  rw [jsonParseArray]
  split
  · rename_i hc
    exact .done hd ⟨.nil, .emptyArr (ws_of_head? hc), trivial, rfl⟩
  · refine (ih.elements _ path d depth 0 (by omega) hd).mono fun r d' h ↦ ?_
    obtain ⟨es, hder, hes⟩ := h
    exact ⟨es, .arr (hder.ws_elements hw), hes⟩

theorem SoundAt.obj_succ {s path : CStr} {d : Dict} {depth : ℕ}
    (hfuel : 3 * s.length + 2 ≤ fuel) (hd : AddOnly dictHash d) :
    Returns dictHash (fun r d' ↦ ∃ ms, Derives (.value (.obj ms)) (lbrace :: s) r ∧
        (Json.obj ms).NamesOk ∧ place strtod d.toMap (ms.visits path (depth + 1)) = some d'.toMap)
      (jsonParseObj strtod dictHash (fuel + 1) s path d depth) := by
  have hw := ws_skipWs s
  have hlen := hw.length_le
  rw [jsonParseObj]
  split
  · rename_i hc
    exact .done hd ⟨.nil, .emptyObj (ws_of_head? hc), ⟨by simp [Members.names], List.nodup_nil,
      trivial⟩, rfl⟩
  · refine (ih.members _ path d depth dictNew (by omega) addOnly_dictNew hd).mono fun r d' h ↦ ?_
    obtain ⟨ms, hder, hdec, hnodup, -, hnames, hplace⟩ := h
    exact ⟨ms, .obj (hder.ws_members hw), ⟨hdec, hnodup, hnames⟩, hplace⟩

theorem SoundAt.elements_succ {s path : CStr} {d : Dict} {depth idx : ℕ}
    (hfuel : 3 * s.length + 1 ≤ fuel) (hd : AddOnly dictHash d) :
    Returns dictHash (IsElements strtod s path d depth idx)
      (jsonParseElements strtod dictHash (fuel + 1) s path d depth idx) := by
  rw [jsonParseElements]
  split
  · exact .fail hd
  obtain ⟨res, d₁, hv, hd₁, hq⟩ := ih.value s (pathAppend path (indexText idx)) d (depth + 1) hfuel hd
  rw [hv]
  simp only [Option.bind_eq_bind, Option.bind_some, Option.pure_def]
  cases res with
  | none => exact .fail hd₁
  | some s₂ =>
    obtain ⟨j, s₁, hw, hder, hnames, hplace⟩ := hq s₂ rfl
    have hlen := hw.length_le
    have hlen' := hder.length_lt
    dsimp only
    split
    · rename_i hc
      refine .done hd₁ ⟨.cons j .nil, .element hw hder (ws_of_head? hc), ⟨hnames, trivial⟩, ?_⟩
      rwa [Elements.visits, Elements.visits, List.append_nil]
    split
    · exact .fail hd₁
    rename_i hc
    have hw' := ws_of_head? (not_not.mp hc)
    split
    · exact .fail hd₁
    have hlen₂ := hw'.length_le
    have hlen₃ := (ws_skipWs (skipWs s₂).tail).length_le
    rw [List.length_cons] at hlen₂
    refine (ih.elements _ path d₁ depth (idx + 1) (by omega) hd₁).mono fun r d' h ↦ ?_
    obtain ⟨es, hes, hnames', hplace'⟩ := h
    refine ⟨.cons j es, .elements hw hder hw' (hes.ws_elements (ws_skipWs _)), ⟨hnames, hnames'⟩, ?_⟩
    rw [Elements.visits, place_append, hplace, Option.bind_some, hplace']

theorem SoundAt.members_succ {s path : CStr} {d keys : Dict} {depth : ℕ}
    (hfuel : 3 * s.length + 1 ≤ fuel) (hkeys : AddOnly dictHash keys) (hd : AddOnly dictHash d) :
    Returns dictHash (IsMembers strtod s path d depth keys)
      (jsonParseMembers strtod dictHash (fuel + 1) s path d depth keys) := by
  cases hp : jsonParseStr s with
  | none =>
    rw [jsonParseMembers, hp]
    exact .fail hd
  | some p =>
    obtain ⟨out, s₂⟩ := p
    obtain ⟨name, hn, hout⟩ := jsonParseStr_iff.mp hp
    have hlen := hn.length_lt
    have hdec : decodeItems name ≠ none := by rw [hout]; simp
    obtain ⟨t, ht, hiff⟩ := hkeys.dictGetType_valEnd out
    by_cases hfresh : keys.toMap out = none
    · by_cases hcolon : (skipWs s₂).head? = some colon
      · have hc := ws_of_head? hcolon
        have hlen₁ := hc.length_le
        rw [List.length_cons] at hlen₁
        obtain ⟨res, d₁, hv, hd₁, hq⟩ := ih.value (skipWs s₂).tail (pathAppend path out) d (depth + 1)
          (by omega) hd
        cases res with
        | none =>
          obtain ⟨keys', hstore, -⟩ := hkeys.store hfresh (.bool true)
          rw [jsonParseMembers, hp]
          simp only [ht, Option.bind_eq_bind, Option.bind_some, Option.pure_def]
          rw [if_neg (not_not_intro (hiff.mpr hfresh)), dictAddBool, hstore]
          simp only [Option.bind_some, hcolon, hv, reduceCtorEq, not_true_eq_false, if_false, ne_eq]
          exact .fail hd₁
        | some s₅ =>
          obtain ⟨j, s₄, hw', hder, hnames, hplace⟩ := hq s₅ rfl
          have hlen₂ := hw'.length_le
          have hlen₃ := hder.length_lt
          rw [← nameOf_eq hout] at hfresh hv hplace
          obtain ⟨keys', hkeys', hmap, heq⟩ := jsonParseMembers_value strtod dictHash hkeys hn hdec
            hfresh hc hv
          rw [heq]
          split
          · rename_i hclose
            refine .done hd₁ ⟨.cons name j .nil,
              .member (.refl s) hn hc hw' hder (ws_of_head? hclose), ?_, ?_, ?_, ⟨hnames, trivial⟩, ?_⟩
            · simpa [Members.names] using hdec
            · simp [Members.names]
            · simpa [Members.names] using hfresh
            · rwa [Members.visits, Members.visits, List.append_nil]
          split
          · exact .fail hd₁
          rename_i hcomma
          have hw'' := ws_of_head? (not_not.mp hcomma)
          split
          · exact .fail hd₁
          have hlen₄ := hw''.length_le
          have hlen₅ := (ws_skipWs (skipWs s₅).tail).length_le
          rw [List.length_cons] at hlen₄
          refine (ih.members _ path d₁ depth keys' (by omega) hkeys' hd₁).mono fun r d' h ↦ ?_
          obtain ⟨ms, hms, hdec', hnodup, hfresh', hnames', hplace'⟩ := h
          simp only [hmap, update_some_eq_none] at hfresh'
          refine ⟨.cons name j ms,
            .members (.refl s) hn hc hw' hder hw'' (hms.ws_members (ws_skipWs _)), ?_, ?_, ?_,
            ⟨hnames, hnames'⟩, ?_⟩
          · exact List.forall_mem_cons.mpr ⟨hdec, hdec'⟩
          · refine List.nodup_cons.mpr ⟨fun hmem ↦ ?_, hnodup⟩
            obtain ⟨n, hn', he⟩ := List.mem_map.mp hmem
            exact (hfresh' n hn').1 he
          · exact List.forall_mem_cons.mpr ⟨hfresh, fun n hn' ↦ (hfresh' n hn').2⟩
          · rw [Members.visits, place_append, hplace, Option.bind_some, hplace']
      · obtain ⟨keys', hstore, -⟩ := hkeys.store hfresh (.bool true)
        rw [jsonParseMembers, hp]
        simp only [ht, Option.bind_eq_bind, Option.bind_some, Option.pure_def]
        rw [if_neg (not_not_intro (hiff.mpr hfresh)), dictAddBool, hstore]
        simp only [Option.bind_some, hcolon, ne_eq, not_false_eq_true, if_true, reduceCtorEq, if_false]
        exact .fail hd
    · rw [jsonParseMembers, hp]
      simp only [ht, Option.bind_eq_bind, Option.bind_some, Option.pure_def]
      rw [if_pos (mt hiff.mp hfresh)]
      exact .fail hd

omit ih

/-- **Soundness.** -/
theorem sound (fuel : ℕ) : SoundAt strtod dictHash fuel := by
  induction fuel with
  | zero =>
    refine ⟨?_, ?_, ?_, ?_, ?_⟩
    all_goals
      intros
      omega
  | succ fuel ih =>
    exact {
      value := fun s path d depth hfuel hd ↦ ih.value_succ (by omega) hd
      obj := fun s path d depth hfuel hd ↦ ih.obj_succ (by omega) hd
      members := fun s path d depth keys hfuel hkeys hd ↦ ih.members_succ (by omega) hkeys hd
      array := fun s path d depth hfuel hd ↦ ih.array_succ (by omega) hd
      elements := fun s path d depth idx hfuel hd ↦ ih.elements_succ (by omega) hd }

end Parser

/-! ## The whole text -/

section Json2dict

variable {strtod : CStr → UInt64 × CStr × Bool} {dictHash : CStr → UInt32}

theorem toMap_dictNew : dictNew.toMap = fun _ ↦ none := by
  funext key
  rfl

theorem acceptable_iff {j : Json} : Acceptable strtod j ↔ j.NamesOk ∧
    place strtod (fun _ ↦ none) (j.visits [] 0)
      = some (stored (fun _ ↦ none) (j.leaves strtod)) := by
  rw [place_eq_some_iff]
  constructor
  · exact fun h ↦ ⟨h.names, h.depth, h.value, fun _ _ ↦ rfl, h.paths, rfl⟩
  · exact fun ⟨hn, hdepth, hvalue, _, hpaths, _⟩ ↦ ⟨hdepth, hvalue, hn, hpaths⟩

/-- The leaves of an acceptable text have distinct paths. -/
theorem Acceptable.nodup {j : Json} (h : Acceptable strtod j) :
    ((j.leaves strtod).map Prod.fst).Nodup := by
  rw [List.Nodup, List.pairwise_map, Json.leaves, List.pairwise_filterMap]
  refine h.paths.imp fun {u v} huv l hl l' hl' ↦ ?_
  obtain ⟨hu, c, hc, -⟩ := Visit.leaf_eq_some.mp hl
  obtain ⟨hv, -⟩ := Visit.leaf_eq_some.mp hl'
  rw [hu, hv]
  exact (huv (by simp [hc])).symm

/-- The table holds the leaves of the text, found by their paths, and no two leaves share one. -/
structure Flattened (strtod : CStr → UInt64 × CStr × Bool) (dictHash : CStr → UInt32) (j : Json)
    (d : Dict) : Prop where
  table : WellFormed dictHash d
  nodup : ((j.leaves strtod).map Prod.fst).Nodup
  holds : Holds d (j.leaves strtod)

theorem Acceptable.flattened {j : Json} (h : Acceptable strtod j) {d : Dict}
    (hd : AddOnly dictHash d) (hmap : d.toMap = stored (fun _ ↦ none) (j.leaves strtod)) :
    Flattened strtod dictHash j d :=
  ⟨hd.toWellFormed, h.nodup, hd.toCoherent.holds h.nodup hmap⟩

variable (strtod dictHash)

theorem json2dict_complete {j : Json} {text : CStr} (ht : JsonText j text)
    (h : Acceptable strtod j) :
    ∃ d, json2dict strtod dictHash text = some (some d) ∧ Flattened strtod dictHash j d := by
  obtain ⟨s, r, hw, hder, hr⟩ := ht
  obtain ⟨hnames, hplace⟩ := acceptable_iff.mp h
  obtain ⟨d, hv, hd, hmap⟩ := complete strtod dictHash hder (3 * text.length + 3) text [] dictNew 0 _
    (by omega) hw hr.follow_nil hnames addOnly_dictNew hplace
  refine ⟨d, ?_, h.flattened hd hmap⟩
  have hne : text ≠ [] := by
    rintro rfl
    have hlen := hw.length_le
    rw [List.length_nil] at hlen
    have := hder.length_lt
    omega
  rw [json2dict, if_neg hne, hv]
  simp [hr.skipWs_eq (by simp)]

theorem json2dict_sound (text : CStr) :
    json2dict strtod dictHash text = some none ∨ ∃ d j, json2dict strtod dictHash text = some (some d)
      ∧ JsonText j text ∧ Acceptable strtod j ∧ Flattened strtod dictHash j d := by
  rw [json2dict]
  split
  · exact .inl rfl
  obtain ⟨res, d, hv, hd, hq⟩ := (sound (3 * text.length + 3)).value text [] dictNew 0 (by omega)
    (@addOnly_dictNew dictHash)
  rw [hv]
  cases res with
  | none => exact .inl rfl
  | some r =>
    simp only [Option.bind_eq_bind, Option.bind_some, Option.pure_def]
    split
    · rename_i hr
      obtain ⟨j, s, hw, hder, hnames, hplace⟩ := hq r rfl
      rw [toMap_dictNew] at hplace
      have hmap := (place_eq_some_iff.mp hplace).2.2.2.2
      have hacc : Acceptable strtod j := acceptable_iff.mpr ⟨hnames, by rw [hplace, hmap]; rfl⟩
      exact .inr ⟨d, j, rfl, ⟨s, r, hw, hder, hr ▸ ws_skipWs r⟩, hacc, hacc.flattened hd hmap⟩
    · exact .inl rfl

/-- **`json2dict` is an exact recogniser and a lossless flattener.**  It always returns.  It returns
a table exactly if the text is one JSON value of the grammar that is acceptable, and the table then
has exactly one entry for each scalar leaf, at the path of the leaf and with its value. -/
theorem json2dict_exact (text : CStr) :
    (∃ r, json2dict strtod dictHash text = some r) ∧
    (∀ d, json2dict strtod dictHash text = some (some d) →
      ∃ j, JsonText j text ∧ Acceptable strtod j ∧ Flattened strtod dictHash j d) ∧
    (∀ j, JsonText j text → Acceptable strtod j →
      ∃ d, json2dict strtod dictHash text = some (some d) ∧ Flattened strtod dictHash j d) := by
  refine ⟨?_, fun d hd ↦ ?_, fun j ht h ↦ json2dict_complete strtod dictHash ht h⟩
  · rcases json2dict_sound strtod dictHash text with h | ⟨d, j, h, -⟩
    · exact ⟨_, h⟩
    · exact ⟨_, h⟩
  · rcases json2dict_sound strtod dictHash text with h | ⟨d', j, h, ht⟩
    · simp [hd] at h
    · obtain rfl : d = d' := by simpa [hd] using h
      exact ⟨j, ht⟩

end Json2dict

end Rustyaxe
