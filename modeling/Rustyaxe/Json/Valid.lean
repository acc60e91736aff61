import Rustyaxe.Json.RoundTrip
import Rustyaxe.Json.Unambiguous
import Rustyaxe.Lib.Utf8

/-!
# When the encoder prints JSON

`dict2json` on any dictionary.  Every value is printed as a scalar of the grammar, except that
`printf` writes `inf` and `nan` for the floating-point numbers that are none, and that the bytes of
keys and strings are copied, whether they are UTF-8 or not.

`validObject_iff` says for a tree of texts when it is printed as a JSON object, from the texts of
the nodes; `dict2json_valid_iff` says it for a dictionary, from the entries that are printed.
-/

set_option autoImplicit false

namespace Rustyaxe

open JsonNode Utf8

/-! ## What is printed of a value -/

/-- The number is neither infinite nor a NaN. -/
def floatFinite (f : UInt32) : Prop := f &&& 0x7fffffff < 0x7f800000

/-- The number is neither infinite nor a NaN. -/
def doubleFinite (d : UInt64) : Prop := d &&& 0x7fffffffffffffff < 0x7ff0000000000000

/-- What `printf` writes for the others. -/
def nonFiniteTexts : List CStr := [lit "inf", lit "-inf", lit "nan", lit "-nan"]

/-- Finite numbers are printed as numbers of the grammar, the others are not. -/
structure Printf.Conforms (printf : Printf) : Prop where
  g9_finite : ∀ f, floatFinite f → NumberText (printf.g9 f)
  g9_other : ∀ f, ¬ floatFinite f → printf.g9 f ∈ nonFiniteTexts
  g17_finite : ∀ d, doubleFinite d → NumberText (printf.g17 d)
  g17_other : ∀ d, ¬ doubleFinite d → printf.g17 d ∈ nonFiniteTexts

/-- JSON can say it: a finite number, or a text in UTF-8. -/
def DictValue.Sayable : DictValue → Prop
  | .str (some s) => IsUtf8 s
  | .char c => c < 0x80
  | .float f => floatFinite f
  | .double d => doubleFinite d
  | _ => True

/-- No later entry has the same segments. -/
def LastAt (kps : List Keypair) (kp : Keypair) : Prop :=
  ∃ before after, kps = before ++ kp :: after ∧ ∀ kp' ∈ after, tokens kp'.key ≠ tokens kp.key

/-- The value of the entry is printed: its key has a segment, no later entry has the same segments,
and none goes on from there. -/
def Printed (kps : List Keypair) (kp : Keypair) : Prop :=
  LastAt kps kp ∧ tokens kp.key ≠ [] ∧
    ∀ kp' ∈ kps, ∀ q ≠ [], tokens kp'.key ≠ tokens kp.key ++ q

/-- The text is one JSON object, in UTF-8, in which no object repeats a name. -/
def ValidObject (t : CStr) : Prop :=
  IsUtf8 t ∧ ∃ ms, JsonText (.obj ms) t ∧ (Json.obj ms).NamesOk

/-! ## Texts of values -/

/-- The text is a scalar, wherever it stands. -/
def SpellsScalar (t : CStr) : Prop := ∃ c : Scalar, ∀ r, Derives (.value c.toJson) (t ++ r) r

/-- No value begins with the text. -/
def SpellsNothing (t : CStr) : Prop := ∀ j r s r', Ws (t ++ r) s → ¬ Derives (.value j) s r'

theorem NumberText.head {t : CStr} (h : NumberText t) :
    ∃ c t', isdigit c = true ∧ (t = c :: t' ∨ t = minus :: c :: t') := by
  obtain ⟨sign, int, frac, exp, rfl, hsign, hint, -, -⟩ := h
  have hfirst : ∃ c int', int = c :: int' ∧ isdigit c = true := by
    rcases hint with rfl | ⟨c, ds, rfl, h1, h9, -⟩
    · exact ⟨0x30, [], rfl, rfl⟩
    · have hge : (0x30 : UInt8) ≤ c := by
        rw [UInt8.le_iff_toNat_le] at *
        exact le_trans (by decide) h1
      exact ⟨c, ds, rfl, by simp [isdigit, hge, h9]⟩
  obtain ⟨c, int', rfl, hc⟩ := hfirst
  rcases hsign with rfl | rfl
  · exact ⟨c, int' ++ (frac ++ exp), hc, .inl rfl⟩
  · exact ⟨c, int' ++ (frac ++ exp), hc, .inr rfl⟩

/-- What a value begins with: a quote or a bracket, a digit or a minus sign and a digit, or one of
the three names. -/
def startsValue (s : CStr) : Bool :=
  s.head?.any (fun c ↦ c == quote || c == lbracket || c == lbrace || isdigit c) ||
    (s.head? == some minus && s.tail.head?.any isdigit) ||
    startsWith (lit "null") s || startsWith (lit "true") s || startsWith (lit "false") s

theorem Derives.startsValue {j : Json} {s r : CStr} (h : Derives (.value j) s r) :
    startsValue s = Bool.true := by
  rw [Rustyaxe.startsValue]
  rcases h.value_cases with ⟨c, -, hscalar, -⟩ | ⟨es, t, -, rfl, -⟩ | ⟨ms, t, -, rfl, -⟩
  · rcases hscalar.scalar with ⟨items, -, hs⟩ | ⟨t, ht, rfl⟩
    · rw [hs.2]
      rfl
    · match c, ht with
      | .null, ht => rw [show t = lit "null" from ht]; rfl
      | .bool Bool.true, ht => rw [show t = lit "true" from ht]; rfl
      | .bool Bool.false, ht => rw [show t = lit "false" from ht]; rfl
      | .num n, ht =>
        obtain ⟨rfl, hn⟩ := ht
        obtain ⟨c, t', hc, rfl | rfl⟩ := hn.head
        · simp [hc]
        · simp [hc]
  · rfl
  · rfl

/-- An infinity or a NaN is no JSON value. -/
theorem spellsNothing_of_mem {t : CStr} (h : t ∈ nonFiniteTexts) : SpellsNothing t := by
  intro j r s r' hws hd
  have hskip : skipWs (t ++ r) = t ++ r ∧ startsValue (t ++ r) = false := by
    simp only [nonFiniteTexts, List.mem_cons, List.not_mem_nil, or_false] at h
    rcases h with rfl | rfl | rfl | rfl <;> exact ⟨rfl, rfl⟩
  have hstart := hd.startsValue
  rw [← hd.skipWs_eq hws, hskip.1, hskip.2] at hstart
  exact absurd hstart Bool.false_ne_true

/-! ## Trees of texts -/

/-- What is printed after the name of a node. -/
def nodeText (value : Option CStr) (child : JsonNode CStr) : CStr :=
  (shown value child).getD (dumpJson child)

theorem dumpMembers_eq (key : CStr) (value : Option CStr) (child next : JsonNode CStr) :
    dumpMembers (.node key value child next) = jsonEscape (some key) ++ colon ::
      (nodeText value child ++ if next = .null then [] else comma :: dumpMembers next) := by
  rw [dumpMembers.eq_def]
  dsimp only
  cases child with
  | null => cases value <;> rfl
  | node k v c n => cases value <;> rfl

/-- A node whose text is a scalar, or that has children, is printed as a value. -/
theorem forall_nodes_node {p : List CStr × Option CStr → Prop} {key : CStr} {value : Option CStr}
    {child next : JsonNode CStr} : (∀ n ∈ (node key value child next).nodes, p n) ↔
      p ([key], shown value child) ∧ (∀ n ∈ child.nodes, p (key :: n.1, n.2)) ∧
        ∀ n ∈ next.nodes, p n := by
  rw [nodes, List.forall_mem_append, List.forall_mem_cons, List.forall_mem_map, and_assoc]

/-! ### The grammar -/

/-- Every text that is printed is a scalar. -/
def AllSpell (list : JsonNode CStr) : Prop := ∀ n ∈ list.nodes, ∀ t ∈ n.2, SpellsScalar t

theorem allSpell_node {key : CStr} {value : Option CStr} {child next : JsonNode CStr} :
    AllSpell (.node key value child next) ↔
      (∀ t ∈ shown value child, SpellsScalar t) ∧ AllSpell child ∧ AllSpell next :=
  forall_nodes_node (p := fun n ↦ ∀ t ∈ n.2, SpellsScalar t)

/-- The value that is printed for a node, if its children are printed as members. -/
theorem exists_nodeText {value : Option CStr} {child : JsonNode CStr} {ms : Members}
    (hspell : ∀ t ∈ shown value child, SpellsScalar t) (hnil : child = .null → ms = .nil)
    (hd : child ≠ .null →
      ∀ r, Derives (.members ms) (dumpMembers child ++ rbrace :: r) (rbrace :: r))
    (hok : (Json.obj ms).NamesOk) :
    ∃ j : Json, (∀ r, Derives (.value j) (nodeText value child ++ r) r) ∧ j.NamesOk := by
  rw [nodeText]
  cases hs : shown value child with
  | some t =>
    obtain ⟨c, hc⟩ := hspell t hs
    exact ⟨c.toJson, hc, c.namesOk_toJson⟩
  | none =>
    refine ⟨.obj ms, fun r ↦ ?_, hok⟩
    simp only [Option.getD_none, dumpJson, List.cons_append, List.append_assoc, List.nil_append]
    by_cases hc : child = .null
    · subst hc
      rw [hnil rfl]
      exact .emptyObj (.refl _)
    · exact .obj (hd hc r)

/-- The members that are printed for some nodes. -/
theorem JsonNode.Tidy.members {P : CStr → Prop} (hP : ∀ key, P key → 0 ∉ key)
    {list : JsonNode CStr} (h : list.Tidy P) (hall : AllSpell list) :
    ∃ ms, (list = .null → ms = .nil) ∧
      (list ≠ .null → ∀ r, Derives (.members ms) (dumpMembers list ++ rbrace :: r) (rbrace :: r)) ∧
      (Json.obj ms).NamesOk ∧ ∀ key, key ∈ ms.names.map nameOf ↔ list.hasKey key = true := by
  induction list with
  | null =>
    exact ⟨.nil, fun _ ↦ rfl, fun hne ↦ absurd rfl hne, ⟨by simp [Members.names],
      by simp [Members.names], trivial⟩, by simp [Members.names, hasKey]⟩
  | node key value child next ihc ihn =>
    obtain ⟨hkey, hfresh, -, hchild, hnext⟩ := h
    obtain ⟨hspell, hallc, halln⟩ := allSpell_node.mp hall
    obtain ⟨msc, hnilc, hdc, hokc, -⟩ := ihc hchild hallc
    obtain ⟨ms, hniln, hdn, ⟨hdecode, hnodup, hok⟩, hnames⟩ := ihn hnext halln
    obtain ⟨j, hj, hjok⟩ := exists_nodeText hspell hnilc hdc hokc
    have hname := nameOf_escapeItems (hP key hkey)
    refine ⟨.cons (escapeItems key) j ms, fun h ↦ by simp at h, fun _ r ↦ ?_,
      ⟨?_, ?_, hjok, hok⟩, ?_⟩
    · rw [dumpMembers_eq, List.append_assoc, List.cons_append, List.append_assoc]
      by_cases hn : next = .null
      · subst hn
        rw [hniln rfl, if_pos rfl, List.nil_append]
        exact .member (.refl _) (jsonEscape_spells key _) (.refl _) (.refl _) (hj _) (.refl _)
      · rw [if_neg hn, List.cons_append]
        exact .members (.refl _) (jsonEscape_spells key _) (.refl _) (.refl _) (hj _) (.refl _)
          (hdn hn r)
    · rw [Members.names]
      refine List.forall_mem_cons.mpr ⟨?_, hdecode⟩
      rw [decodeItems_escapeItems (hP key hkey)]
      simp
    · rw [Members.names, List.map_cons, hname]
      refine List.nodup_cons.mpr ⟨?_, hnodup⟩
      rw [hnames, hfresh]
      simp
    · intro k
      rw [Members.names, List.map_cons, List.mem_cons, hnames, hname, hasKey, Bool.or_eq_true,
        beq_iff_eq, eq_comm]

/-- The first of some members that begin with the name of a node. -/
theorem Derives.first_member {ms : Members} {key rest x : CStr}
    (h : Derives (.members ms) (jsonEscape (some key) ++ colon :: rest) (rbrace :: x)) :
    ∃ j s s', Ws rest s ∧ Derives (.value j) s s' ∧ (Ws s' (rbrace :: x) ∨
      ∃ ms' s'', Ws s' (comma :: s'') ∧ Derives (.members ms') s'' (rbrace :: x)) := by
  have hname := jsonEscape_spells key (colon :: rest)
  cases h with
  | member hw hn hc hw' h hw'' =>
    obtain ⟨-, rfl⟩ := StrText.first (.refl _) hname (.refl _) hw hn hc
    exact ⟨_, _, _, hw', h, .inl hw''⟩
  | members hw hn hc hw' h hw'' h' =>
    obtain ⟨-, rfl⟩ := StrText.first (.refl _) hname (.refl _) hw hn hc
    exact ⟨_, _, _, hw', h, .inr ⟨_, _, hw'', h'⟩⟩

/-- Members that begin with the name of a node do not begin with a closing brace. -/
theorem dumpMembers_head {list : JsonNode CStr} (h : list ≠ .null) :
    ∃ t, dumpMembers list = quote :: t := by
  cases list with
  | null => exact absurd rfl h
  | node key value child next => exact ⟨_, by rw [dumpMembers_eq]; rfl⟩

/-- A text that the grammar derives only spells scalars. -/
theorem JsonNode.Tidy.allSpell {P : CStr → Prop} (hP : ∀ key, P key → 0 ∉ key)
    {list : JsonNode CStr} (h : list.Tidy P)
    (heach : ∀ n ∈ list.nodes, ∀ t ∈ n.2, SpellsScalar t ∨ SpellsNothing t) (hne : list ≠ .null)
    {ms : Members} {r x : CStr}
    (hd : Derives (.members ms) (dumpMembers list ++ rbrace :: r) (rbrace :: x)) :
    AllSpell list := by
  induction list generalizing ms r x with
  | null => exact absurd rfl hne
  | node key value child next ihc ihn =>
    obtain ⟨hkey, hfresh, hvalue, hchild, hnext⟩ := h
    obtain ⟨heach, heachc, heachn⟩ :=
      (forall_nodes_node (p := fun n ↦ ∀ t ∈ n.2, SpellsScalar t ∨ SpellsNothing t)).mp heach
    rw [dumpMembers_eq, List.append_assoc, List.cons_append, List.append_assoc] at hd
    obtain ⟨j, s, s', hws, hvalue', hend⟩ := hd.first_member
    set rest := (if next = .null then [] else comma :: dumpMembers next) ++ rbrace :: r with hrest
    have hfollow : Follow s' := by
      rcases hend with hend | ⟨_, _, hend, -⟩ <;> exact hend.follow rfl
    have hfollow' : Follow rest := by
      rw [hrest]
      split <;> exact follow_cons rfl
    -- the value of the node is a scalar or the object of its children
    have hthis : (∀ t ∈ shown value child, SpellsScalar t) ∧ AllSpell child := by
      rw [nodeText] at hws
      cases hs : shown value child with
      | some t =>
        rw [hs] at hws
        obtain ⟨-, rfl⟩ := shown_eq_some.mp hs
        refine ⟨fun t' ht' ↦ ?_, fun n hn ↦ absurd hn List.not_mem_nil⟩
        obtain rfl := Option.some.inj ht'
        exact (heach t hs).resolve_right fun hnothing ↦ hnothing j rest s s' hws hvalue'
      | none =>
        refine ⟨by simp, ?_⟩
        have hcne : child ≠ .null := by
          rintro rfl
          exact hvalue.elim (fun h ↦ h hs) fun h ↦ h rfl
        rw [hs, Option.getD_none] at hws
        simp only [dumpJson, List.cons_append, List.append_assoc, List.nil_append] at hws
        obtain rfl := hvalue'.skipWs_eq hws
        have hskip : skipWs (lbrace :: (dumpMembers child ++ rbrace :: rest))
            = lbrace :: (dumpMembers child ++ rbrace :: rest) := rfl
        rw [hskip] at hvalue'
        rcases hvalue'.value_cases with ⟨_, -, -, hbrace, -⟩ | ⟨_, _, -, heq, -⟩ |
          ⟨msc, t, -, heq, hms⟩
        · exact absurd rfl hbrace
        · exact absurd (List.cons.inj heq).1 (by decide)
        · obtain ⟨-, rfl⟩ := List.cons.inj heq
          rcases hms with ⟨-, hclose⟩ | hms
          · obtain ⟨t, ht⟩ := dumpMembers_head hcne
            rw [ht, List.cons_append] at hclose
            exact absurd (hclose.unique rfl (.refl _) rfl).1 (by decide)
          · exact ihc hchild heachc hcne hms
    -- so it ends where its text does
    obtain rfl : s' = rest := by
      obtain ⟨msc, hnilc, hdc, hokc, -⟩ := hchild.members hP hthis.2
      obtain ⟨j', hj', -⟩ := exists_nodeText hthis.1 hnilc hdc hokc
      exact ((hj' rest).determined.first (.refl _) (hj' rest) hfollow' hws hvalue' hfollow).2
    refine allSpell_node.mpr ⟨hthis.1, hthis.2, ?_⟩
    by_cases hn : next = .null
    · subst hn
      exact fun n hn ↦ absurd hn List.not_mem_nil
    · rw [if_neg hn, List.cons_append] at hrest
      rcases hend with hend | ⟨ms', s'', hend, hd'⟩
      · rw [hrest] at hend
        exact absurd (hend.unique rfl (.refl _) rfl).1 (by decide)
      · rw [hrest] at hend
        obtain ⟨-, rfl⟩ := hend.unique rfl (.refl _) rfl
        exact ihn hnext heachn hn hd'

/-- **What is printed is one object of the grammar** exactly if every text in it is a scalar. -/
theorem jsonText_dumpJson_iff {P : CStr → Prop} (hP : ∀ key, P key → 0 ∉ key)
    {list : JsonNode CStr} (h : list.Tidy P)
    (heach : ∀ n ∈ list.nodes, ∀ t ∈ n.2, SpellsScalar t ∨ SpellsNothing t) :
    (∃ ms, JsonText (.obj ms) (dumpJson list) ∧ (Json.obj ms).NamesOk) ↔ AllSpell list := by
  constructor
  · rintro ⟨ms, ⟨s, r, hws, hd, hend⟩, -⟩
    have hskip : skipWs (dumpJson list) = dumpJson list := rfl
    obtain rfl : dumpJson list = s := hskip.symm.trans (hd.skipWs_eq hws)
    by_cases hne : list = .null
    · subst hne
      exact fun n hn ↦ absurd hn List.not_mem_nil
    rcases hd.value_cases with ⟨_, -, -, hbrace, -⟩ | ⟨_, _, -, heq, -⟩ | ⟨ms', t, -, heq, hms⟩
    · exact absurd rfl hbrace
    · exact absurd (List.cons.inj heq).1 (by decide)
    · rw [dumpJson, List.cons_append] at heq
      obtain ⟨-, rfl⟩ := List.cons.inj heq
      rcases hms with ⟨-, hclose⟩ | hms
      · obtain ⟨t, ht⟩ := dumpMembers_head hne
        rw [ht, List.cons_append] at hclose
        exact absurd (hclose.unique rfl (.refl _) rfl).1 (by decide)
      · exact h.allSpell hP heach hne hms
  · intro hall
    obtain ⟨ms, hnil, hd, hok, -⟩ := h.members hP hall
    refine ⟨ms, ⟨_, [], .refl _, ?_, .refl _⟩, hok⟩
    rw [dumpJson, List.cons_append]
    by_cases hne : list = .null
    · subst hne
      rw [hnil rfl]
      exact .emptyObj (.refl _)
    · exact .obj (hd hne [])

/-! ### The encoding -/

/-- Escaping rewrites ASCII bytes. -/
theorem escapeByte_spec : ∀ b : UInt8, (0x80 ≤ b → escapeByte b = [b]) ∧ escapeByte b ≠ [] ∧
    (b < 0x80 → ∀ x ∈ escapeByte b, x < 0x80) :=
  forall_byte (by decide +kernel)

theorem isUtf8_jsonEscape (s : CStr) : IsUtf8 (jsonEscape (some s)) ↔ IsUtf8 s := by
  have hquote : quote < 0x80 := by decide
  rw [jsonEscape, List.cons_append, isUtf8_cons hquote, isUtf8_append_cons hquote,
    and_iff_left isUtf8_nil]
  exact isUtf8_flatMap (fun b ↦ (escapeByte_spec b).1) (fun b ↦ (escapeByte_spec b).2.1)
    (fun b ↦ (escapeByte_spec b).2.2) s

/-- **What is printed is UTF-8** exactly if the names and the texts in it are. -/
theorem isUtf8_dumpMembers (list : JsonNode CStr) : IsUtf8 (dumpMembers list) ↔
    ∀ n ∈ list.nodes, (∀ s ∈ n.1, IsUtf8 s) ∧ ∀ t ∈ n.2, IsUtf8 t := by
  induction list with
  | null => exact iff_of_true isUtf8_nil fun n hn ↦ absurd hn List.not_mem_nil
  | node key value child next ihc ihn =>
    have hvalue : IsUtf8 (nodeText value child) ↔ (∀ t ∈ shown value child, IsUtf8 t) ∧
        ∀ n ∈ child.nodes, (∀ s ∈ n.1, IsUtf8 s) ∧ ∀ t ∈ n.2, IsUtf8 t := by
      rw [nodeText]
      cases hs : shown value child with
      | some t =>
        obtain ⟨-, rfl⟩ := shown_eq_some.mp hs
        simp [nodes]
      | none =>
        rw [Option.getD_none, dumpJson, List.cons_append, isUtf8_cons (by decide),
          isUtf8_append_cons (by decide), and_iff_left isUtf8_nil, ihc]
        simp
    have hrest :
        IsUtf8 (nodeText value child ++ if next = .null then [] else comma :: dumpMembers next) ↔
          IsUtf8 (nodeText value child) ∧ IsUtf8 (dumpMembers next) := by
      split
      · next hn =>
        subst hn
        rw [List.append_nil]
        exact (and_iff_left isUtf8_nil).symm
      · exact isUtf8_append_cons (by decide)
    rw [dumpMembers_eq, isUtf8_append_cons (by decide), isUtf8_jsonEscape, hrest, hvalue, ihn,
      forall_nodes_node (p := fun n ↦ (∀ s ∈ n.1, IsUtf8 s) ∧ ∀ t ∈ n.2, IsUtf8 t)]
    simp only [List.forall_mem_cons, List.not_mem_nil, false_imp_iff, implies_true, and_true]
    constructor
    · rintro ⟨hkey, ⟨hshown, hchild⟩, hnext⟩
      exact ⟨⟨hkey, hshown⟩, fun n hn ↦ ⟨⟨hkey, (hchild n hn).1⟩, (hchild n hn).2⟩, hnext⟩
    · rintro ⟨⟨hkey, hshown⟩, hchild, hnext⟩
      exact ⟨hkey, ⟨hshown, fun n hn ↦ ⟨(hchild n hn).1.2, (hchild n hn).2⟩⟩, hnext⟩

/-- **When a tree of texts is printed as a JSON object.** -/
theorem validObject_dumpJson_iff {P : CStr → Prop} (hP : ∀ key, P key → 0 ∉ key)
    {list : JsonNode CStr} (h : list.Tidy P)
    (heach : ∀ n ∈ list.nodes, ∀ t ∈ n.2, SpellsScalar t ∨ SpellsNothing t) :
    ValidObject (dumpJson list) ↔ ∀ n ∈ list.nodes, (∀ s ∈ n.1, IsUtf8 s) ∧
      ∀ t ∈ n.2, IsUtf8 t ∧ SpellsScalar t := by
  have hbrace : IsUtf8 (dumpJson list) ↔ IsUtf8 (dumpMembers list) := by
    rw [dumpJson, List.cons_append, isUtf8_cons (by decide), isUtf8_append_cons (by decide),
      and_iff_left isUtf8_nil]
  rw [ValidObject, hbrace, isUtf8_dumpMembers, jsonText_dumpJson_iff hP h heach, AllSpell]
  constructor
  · rintro ⟨hutf8, hall⟩ n hn
    exact ⟨(hutf8 n hn).1, fun t ht ↦ ⟨(hutf8 n hn).2 t ht, hall n hn t ht⟩⟩
  · intro hboth
    exact ⟨fun n hn ↦ ⟨(hboth n hn).1, fun t ht ↦ ((hboth n hn).2 t ht).1⟩,
      fun n hn t ht ↦ ((hboth n hn).2 t ht).2⟩

/-! ## Dictionaries -/

/-! ### The entries that are printed -/

theorem not_lastAt_nil (kp : Keypair) : ¬ LastAt [] kp := by
  rintro ⟨before, after, h, -⟩
  simp at h

theorem lastAt_concat {kps : List Keypair} {kp kp' : Keypair} : LastAt (kps ++ [kp']) kp ↔
    kp = kp' ∨ LastAt kps kp ∧ tokens kp'.key ≠ tokens kp.key := by
  constructor
  · rintro ⟨before, after, heq, hafter⟩
    induction after using List.reverseRecOn with
    | nil =>
      obtain ⟨-, heq⟩ := List.append_inj' heq rfl
      exact .inl (List.cons.inj heq).1.symm
    | append_singleton after last _ =>
      rw [← List.cons_append, ← List.append_assoc] at heq
      obtain ⟨rfl, hlast⟩ := List.append_inj' heq rfl
      obtain rfl := (List.cons.inj hlast).1
      exact .inr ⟨⟨before, after, rfl, fun k hk ↦ hafter k (List.mem_append_left _ hk)⟩,
        hafter kp' (List.mem_append_right _ List.mem_cons_self)⟩
  · rintro (rfl | ⟨⟨before, after, rfl, hafter⟩, hne⟩)
    · exact ⟨kps, [], rfl, fun k hk ↦ absurd hk List.not_mem_nil⟩
    · refine ⟨before, after ++ [kp'], by simp, fun k hk ↦ ?_⟩
      rcases List.mem_append.mp hk with hk | hk
      · exact hafter k hk
      · exact List.mem_singleton.mp hk ▸ hne

theorem LastAt.mem {kps : List Keypair} {kp : Keypair} (h : LastAt kps kp) : kp ∈ kps := by
  obtain ⟨before, after, rfl, -⟩ := h
  simp

/-- Of the entries with some segments one is the last. -/
theorem exists_lastAt {kps : List Keypair} {kp : Keypair} (h : kp ∈ kps) :
    ∃ kp', LastAt kps kp' ∧ tokens kp'.key = tokens kp.key := by
  induction kps using List.reverseRecOn with
  | nil => exact absurd h List.not_mem_nil
  | append_singleton kps last ih =>
    by_cases heq : tokens last.key = tokens kp.key
    · exact ⟨last, lastAt_concat.mpr (.inl rfl), heq⟩
    · rcases List.mem_append.mp h with h | h
      · obtain ⟨kp', hlast, htoks⟩ := ih h
        exact ⟨kp', lastAt_concat.mpr (.inr ⟨hlast, htoks ▸ heq⟩), htoks⟩
      · exact absurd (List.mem_singleton.mp h ▸ rfl) heq

/-- The tree of `dict2json`. -/
def textTree (printf : Printf) (kps : List Keypair) : JsonNode CStr :=
  kps.foldl (fun root kp ↦ jsonInsert (tokens kp.key) (jsonVal printf kp.value) root) .null

theorem dict2json_eq_dumpJson (printf : Printf) (d : Dict) :
    dict2json printf d = dumpJson (textTree printf d.entries) := by
  rw [dict2json, dictEnumerateAll_eq]
  rfl

section TextTree

variable {printf : Printf} {kps : List Keypair}

theorem textTree_concat (kp : Keypair) : textTree printf (kps ++ [kp])
    = jsonInsert (tokens kp.key) (jsonVal printf kp.value) (textTree printf kps) := by
  rw [textTree, List.foldl_append]
  rfl

theorem tidy_textTree (h : ∀ kp ∈ kps, 0 ∉ kp.key) : (textTree printf kps).Tidy Segment := by
  induction kps using List.reverseRecOn with
  | nil => trivial
  | append_singleton kps kp ih =>
    rw [textTree_concat]
    refine (ih fun k hk ↦ h k (List.mem_append_left _ hk)).jsonInsert (fun t ht ↦ ?_) _
    exact segment_of_mem_tokens (h kp (List.mem_append_right _ List.mem_cons_self)) ht

/-- The value at a path is that of the last entry with these segments. -/
theorem get_textTree {path : List CStr} {x : CStr} : (textTree printf kps).get path = some x ↔
    path ≠ [] ∧ ∃ kp, LastAt kps kp ∧ tokens kp.key = path ∧ jsonVal printf kp.value = x := by
  induction kps using List.reverseRecOn with
  | nil => simp [textTree, not_lastAt_nil]
  | append_singleton kps last ih =>
    rw [textTree_concat]
    -- an entry before the last one counts if it has other segments
    have hbefore : path ≠ tokens last.key → ((∃ kp, LastAt (kps ++ [last]) kp ∧
        tokens kp.key = path ∧ jsonVal printf kp.value = x) ↔
          ∃ kp, LastAt kps kp ∧ tokens kp.key = path ∧ jsonVal printf kp.value = x) := by
      intro hne
      refine exists_congr fun kp ↦ ?_
      rw [lastAt_concat]
      constructor
      · rintro ⟨rfl | ⟨hlast, -⟩, hpath, hval⟩
        · exact absurd hpath.symm hne
        · exact ⟨hlast, hpath, hval⟩
      · rintro ⟨hlast, hpath, hval⟩
        exact ⟨.inr ⟨hlast, hpath ▸ Ne.symm hne⟩, hpath, hval⟩
    by_cases hnil : tokens last.key = []
    · rw [hnil, jsonInsert, ih]
      exact and_congr_right fun hne ↦ (hbefore (hnil ▸ hne)).symm
    · rw [get_jsonInsert hnil]
      by_cases hpath : path = tokens last.key
      · rw [if_pos hpath, hpath, Option.some_inj]
        constructor
        · exact fun hval ↦ ⟨hnil, last, lastAt_concat.mpr (.inl rfl), rfl, hval⟩
        · rintro ⟨-, kp, hlast, htoks, hval⟩
          rcases lastAt_concat.mp hlast with rfl | ⟨-, hne⟩
          · exact hval
          · exact absurd htoks.symm hne
      · rw [if_neg hpath, hbefore hpath, ih]

/-- The texts that are printed are those of the entries that are shown. -/
theorem mem_nodes_textTree (h : ∀ kp ∈ kps, 0 ∉ kp.key) {path : List CStr} {x : CStr} :
    (path, some x) ∈ (textTree printf kps).nodes ↔
      ∃ kp, Printed kps kp ∧ tokens kp.key = path ∧ jsonVal printf kp.value = x := by
  rw [mem_nodes_iff (tidy_textTree h), get_textTree]
  -- nothing lies below a path exactly if no entry goes on from there
  have hbelow : (∀ q ≠ [], (textTree printf kps).get (path ++ q) = none) ↔
      ∀ kp ∈ kps, ∀ q ≠ [], tokens kp.key ≠ path ++ q := by
    constructor
    · intro hnone kp hkp q hq heq
      obtain ⟨kp', hlast, htoks⟩ := exists_lastAt hkp
      have hsome : (textTree printf kps).get (path ++ q) = some (jsonVal printf kp'.value) :=
        get_textTree.mpr ⟨by simp [hq], kp', hlast, htoks.trans heq, rfl⟩
      rw [hnone q hq] at hsome
      cases hsome
    · intro hall q hq
      by_contra hsome
      obtain ⟨x, hx⟩ := Option.ne_none_iff_exists'.mp hsome
      obtain ⟨-, kp, hlast, htoks, -⟩ := get_textTree.mp hx
      exact hall kp hlast.mem q hq htoks
  rw [hbelow]
  constructor
  · rintro ⟨⟨hne, kp, hlast, rfl, hval⟩, hall⟩
    exact ⟨kp, ⟨hlast, hne, hall⟩, rfl, hval⟩
  · rintro ⟨kp, ⟨hlast, hne, hall⟩, rfl, hval⟩
    exact ⟨⟨hne, kp, hlast, rfl, hval⟩, hall⟩

end TextTree

/-- There is a node for every path that has a value. -/
theorem exists_node_of_get {list : JsonNode CStr} {path : List CStr} {x : CStr}
    (h : list.get path = some x) : ∃ n ∈ list.nodes, n.1 = path := by
  induction list generalizing path with
  | null => simp at h
  | node key value child next ihc ihn =>
    cases path with
    | nil => simp at h
    | cons s path =>
      rw [get_node] at h
      split at h
      · next hs =>
        subst hs
        split at h
        · next hp =>
          subst hp
          exact ⟨_, List.mem_cons_self, rfl⟩
        · obtain ⟨n, hn, rfl⟩ := ihc h
          exact ⟨(s :: n.1, n.2), List.mem_append_left _ (List.mem_cons_of_mem _
            (List.mem_map_of_mem hn)), rfl⟩
      · obtain ⟨n, hn, hpath⟩ := ihn h
        exact ⟨n, List.mem_append_right _ hn, hpath⟩

/-- The names that are printed are the segments of the keys. -/
theorem forall_names_textTree {printf : Printf} {kps : List Keypair} (h : ∀ kp ∈ kps, 0 ∉ kp.key)
    {p : CStr → Prop} : (∀ n ∈ (textTree printf kps).nodes, ∀ s ∈ n.1, p s) ↔
      ∀ kp ∈ kps, ∀ s ∈ tokens kp.key, p s := by
  constructor
  · intro hall kp hkp s hs
    obtain ⟨kp', hlast, htoks⟩ := exists_lastAt hkp
    have hget : (textTree printf kps).get (tokens kp.key) = some (jsonVal printf kp'.value) :=
      get_textTree.mpr ⟨List.ne_nil_of_mem hs, kp', hlast, htoks, rfl⟩
    obtain ⟨n, hn, hpath⟩ := exists_node_of_get hget
    exact hall n hn s (hpath ▸ hs)
  · intro hall n hn s hs
    obtain ⟨q, x, hx⟩ := exists_get (tidy_textTree h) hn
    obtain ⟨-, kp, hlast, htoks, -⟩ := get_textTree.mp hx
    exact hall kp hlast.mem s (htoks ▸ List.mem_append_left _ hs)

/-- A key is UTF-8 if its segments are. -/
theorem isUtf8_key (k : CStr) : IsUtf8 k ↔ ∀ s ∈ tokens k, IsUtf8 s := by
  have hsplit : IsUtf8 k ↔ ∀ s ∈ k.splitOn dot, IsUtf8 s := by
    have hk : [dot].intercalate (k.splitOn dot) = k := List.intercalate_splitOn dot
    conv_lhs => rw [← hk]
    generalize k.splitOn dot = segs
    induction segs with
    | nil => exact iff_of_true isUtf8_nil fun s hs ↦ absurd hs List.not_mem_nil
    | cons s segs ih =>
      cases segs with
      | nil => simp
      | cons s' segs =>
        rw [List.intercalate_cons_cons, List.append_assoc, List.singleton_append,
          isUtf8_append_cons (by decide), ih, List.forall_mem_cons (l := s' :: segs)]
  rw [hsplit, tokens]
  refine forall_congr' fun s ↦ ?_
  rw [List.mem_filter]
  constructor
  · exact fun hall hs ↦ hall hs.1
  · intro hall hs
    by_cases hne : s = []
    · exact hne ▸ isUtf8_nil
    · exact hall ⟨hs, by simpa using hne⟩

/-! ### Values -/

theorem SpellsNothing.not_spellsScalar {t : CStr} (h : SpellsNothing t) : ¬ SpellsScalar t := by
  rintro ⟨c, hc⟩
  exact h c.toJson [] _ [] (.refl _) (hc [])

theorem NumberByte.lt {c : UInt8} (h : NumberByte c) : c < 0x80 := by
  rcases h.bounds with rfl | rfl | rfl | rfl | rfl | ⟨-, h9⟩
  any_goals decide
  exact UInt8.lt_of_le_of_lt h9 (by decide)

theorem NumberText.isUtf8 {t : CStr} (h : NumberText t) : IsUtf8 t :=
  isUtf8_of_ascii fun b hb ↦ (h.bytes b hb).lt

/-- A scalar in UTF-8, and a value that JSON can say. -/
theorem SpellsScalar.sayable {t : CStr} {v : DictValue} (h : SpellsScalar t)
    (hutf8 : IsUtf8 t ↔ v.Sayable) : (SpellsScalar t ∨ SpellsNothing t) ∧
      (IsUtf8 t ∧ SpellsScalar t ↔ v.Sayable) :=
  ⟨.inl h, (and_iff_left h).trans hutf8⟩

theorem SpellsScalar.num {t : CStr} (h : NumberText t) : SpellsScalar t :=
  ⟨.num t, fun _ ↦ .num h⟩

/-- A floating-point number. -/
theorem sayable_of_finite {t : CStr} {v : DictValue} (hfinite : v.Sayable → NumberText t)
    (hother : ¬ v.Sayable → t ∈ nonFiniteTexts) : (SpellsScalar t ∨ SpellsNothing t) ∧
      (IsUtf8 t ∧ SpellsScalar t ↔ v.Sayable) := by
  by_cases hv : v.Sayable
  · have hn := hfinite hv
    exact (SpellsScalar.num hn).sayable (iff_of_true hn.isUtf8 hv)
  · have hn := spellsNothing_of_mem (hother hv)
    exact ⟨.inr hn, iff_of_false (fun h ↦ hn.not_spellsScalar h.2) hv⟩

/-- What is printed for a value is a scalar or no value at all, and a scalar in UTF-8 exactly if
JSON can say the value. -/
theorem Printf.Conforms.jsonVal {printf : Printf} (hprintf : printf.Conforms) (v : DictValue) :
    (SpellsScalar (jsonVal printf v) ∨ SpellsNothing (jsonVal printf v)) ∧
      (IsUtf8 (jsonVal printf v) ∧ SpellsScalar (jsonVal printf v) ↔ v.Sayable) := by
  have hint : ∀ i : ℤ, SpellsScalar (decimalInt i) ∧ IsUtf8 (decimalInt i) := fun i ↦
    ⟨.num (numberText_decimalInt i), (numberText_decimalInt i).isUtf8⟩
  have hnat : ∀ n : ℕ, SpellsScalar (decimal n) ∧ IsUtf8 (decimal n) := fun n ↦
    decimal_eq_decimalInt n ▸ hint n
  have hstr : ∀ s, SpellsScalar (jsonEscape (some s)) := fun s ↦
    ⟨.str (escapeItems s), fun r ↦ .str (jsonEscape_spells s r)⟩
  have hnull : SpellsScalar (lit "null") ∧ IsUtf8 (lit "null") :=
    ⟨⟨.null, fun _ ↦ .null⟩, isUtf8_of_ascii (by decide +kernel)⟩
  cases v with
  | null => exact hnull.1.sayable (iff_of_true hnull.2 trivial)
  | ptr p => exact hnull.1.sayable (iff_of_true hnull.2 trivial)
  | bool b =>
    cases b with
    | true =>
      have htrue : IsUtf8 (lit "true") := isUtf8_of_ascii (by decide +kernel)
      exact SpellsScalar.sayable ⟨.bool true, fun _ ↦ .true⟩ (iff_of_true htrue trivial)
    | false =>
      have hfalse : IsUtf8 (lit "false") := isUtf8_of_ascii (by decide +kernel)
      exact SpellsScalar.sayable ⟨.bool false, fun _ ↦ .false⟩ (iff_of_true hfalse trivial)
  | str s =>
    cases s with
    | none =>
      exact (hstr []).sayable (iff_of_true ((isUtf8_jsonEscape []).mpr isUtf8_nil) trivial)
    | some s => exact (hstr s).sayable (isUtf8_jsonEscape s)
  | char c =>
    refine (hstr _).sayable ((isUtf8_jsonEscape _).trans ?_)
    split
    · next hc =>
      subst hc
      exact iff_of_true isUtf8_nil (by decide : (0 : UInt8) < 0x80)
    · exact isUtf8_singleton_iff
  | int i => exact (hint _).1.sayable (iff_of_true (hint _).2 trivial)
  | uint ui => exact (hnat _).1.sayable (iff_of_true (hnat _).2 trivial)
  | long l => exact (hint _).1.sayable (iff_of_true (hint _).2 trivial)
  | ulong ul => exact (hnat _).1.sayable (iff_of_true (hnat _).2 trivial)
  | llong ll => exact (hint _).1.sayable (iff_of_true (hint _).2 trivial)
  | ullong ull => exact (hnat _).1.sayable (iff_of_true (hnat _).2 trivial)
  | float f => exact sayable_of_finite (hprintf.g9_finite f) (hprintf.g9_other f)
  | double d => exact sayable_of_finite (hprintf.g17_finite d) (hprintf.g17_other d)

/-- **When a dictionary is encoded as a JSON object**: exactly if its keys are UTF-8 and JSON can
say the values that are printed. -/
theorem dict2json_valid_iff {printf : Printf} (hprintf : printf.Conforms) {d : Dict}
    (hnul : ∀ kp ∈ d.entries, 0 ∉ kp.key) : ValidObject (dict2json printf d) ↔
      (∀ kp ∈ d.entries, IsUtf8 kp.key) ∧
        ∀ kp, Printed d.entries kp → kp.value.Sayable := by
  have hP : ∀ key, Segment key → 0 ∉ key := fun _ h ↦ h.2.2
  have heach : ∀ n ∈ (textTree printf d.entries).nodes, ∀ t ∈ n.2,
      SpellsScalar t ∨ SpellsNothing t := by
    rintro ⟨path, o⟩ hn t rfl
    obtain ⟨kp, -, -, rfl⟩ := (mem_nodes_textTree hnul).mp hn
    exact (hprintf.jsonVal kp.value).1
  rw [dict2json_eq_dumpJson, validObject_dumpJson_iff hP (tidy_textTree hnul) heach]
  have hkeys : (∀ kp ∈ d.entries, IsUtf8 kp.key) ↔
      ∀ n ∈ (textTree printf d.entries).nodes, ∀ s ∈ n.1, IsUtf8 s := by
    rw [forall_names_textTree hnul]
    exact forall₂_congr fun kp _ ↦ isUtf8_key kp.key
  have hvalues : (∀ kp, Printed d.entries kp → kp.value.Sayable) ↔
      ∀ n ∈ (textTree printf d.entries).nodes, ∀ t ∈ n.2, IsUtf8 t ∧ SpellsScalar t := by
    constructor
    · rintro hall ⟨path, o⟩ hn t rfl
      obtain ⟨kp, hshown, -, rfl⟩ := (mem_nodes_textTree hnul).mp hn
      exact (hprintf.jsonVal kp.value).2.mpr (hall kp hshown)
    · intro hall kp hshown
      exact (hprintf.jsonVal kp.value).2.mp
        (hall _ ((mem_nodes_textTree hnul).mpr ⟨kp, hshown, rfl, rfl⟩) _ rfl)
  rw [hkeys, hvalues]
  constructor
  · exact fun hall ↦ ⟨fun n hn ↦ (hall n hn).1, fun n hn ↦ (hall n hn).2⟩
  · exact fun hall n hn ↦ ⟨hall.1 n hn, hall.2 n hn⟩

/-! ### A floating-point number -/

instance : DecidablePred floatFinite := fun _ ↦ inferInstanceAs (Decidable (_ < _))

instance : DecidablePred doubleFinite := fun _ ↦ inferInstanceAs (Decidable (_ < _))

/-- A `printf` for zero and for what is not finite. -/
def printfZero : Printf where
  g9 f := if floatFinite f then lit "0" else lit (if f < 0x80000000 then "inf" else "-inf")
  g17 d := if doubleFinite d then lit "0" else lit (if d < 0x8000000000000000 then "inf" else "-inf")

theorem printfZero_conforms : printfZero.Conforms := by
  have hzero : NumberText (lit "0") :=
    ⟨[], lit "0", [], [], rfl, .inl rfl, .inl rfl, .inl rfl, .inl rfl⟩
  have hinf : ∀ b : Bool, lit (if b then "inf" else "-inf") ∈ nonFiniteTexts := by decide
  constructor
  · exact fun f hf ↦ by simpa only [printfZero, if_pos hf] using hzero
  · exact fun f hf ↦ by simpa [printfZero, hf] using hinf (f < 0x80000000)
  · exact fun d hd ↦ by simpa only [printfZero, if_pos hd] using hzero
  · exact fun d hd ↦ by simpa [printfZero, hd] using hinf (d < 0x8000000000000000)

/-- The settings of a rig, with a number that is no integer. -/
def rigDrift : Dict :=
  dictStoreAt rigDict 4 (lit "rig.drift") (.double 0) (dictHashMurmur (lit "rig.drift"))

theorem dict2json_valid_iff_rigDrift : ValidObject (dict2json printfZero rigDrift) := by
  have hkeys : ∀ kp ∈ rigDrift.entries, 0 ∉ kp.key ∧ ∀ b ∈ kp.key, b < 0x80 := by decide +kernel
  have hvalues : rigDrift.entries.map Keypair.value
      = [.str (some (lit "a\"b")), .int (-7), .double 0, .bool true] := by decide +kernel
  refine (dict2json_valid_iff printfZero_conforms fun kp hkp ↦ (hkeys kp hkp).1).mpr
    ⟨fun kp hkp ↦ isUtf8_of_ascii (hkeys kp hkp).2, fun kp hshown ↦ ?_⟩
  obtain ⟨⟨before, after, hentries, -⟩, -, -⟩ := hshown
  have hmem : kp ∈ rigDrift.entries := hentries ▸ List.mem_append_right _ List.mem_cons_self
  have hvalue := List.mem_map_of_mem (f := Keypair.value) hmem
  rw [hvalues] at hvalue
  simp only [List.mem_cons, List.not_mem_nil, or_false] at hvalue
  rcases hvalue with h | h | h | h
  · rw [h]
    exact isUtf8_of_ascii (by decide)
  · rw [h]
    trivial
  · rw [h, DictValue.Sayable]
    decide +kernel
  · rw [h]
    trivial

/-- The table that holds a number under the one key `a`. -/
def oneDouble (d : UInt64) : Dict :=
  dictStoreAt dictNew 7 [97] (.double d) (dictHashMurmur [97])

/-- An infinity is printed as `inf`, after the name `a`. -/
theorem not_validObject_inf :
    ¬ ValidObject (dict2json printfZero (oneDouble 0x7ff0000000000000)) := by
  have htext : dict2json printfZero (oneDouble 0x7ff0000000000000)
      = lbrace :: (jsonEscape (some [97]) ++ colon :: (lit "inf" ++ [rbrace])) := by
    decide +kernel
  rintro ⟨-, ms, ⟨s, r, hws, hd, -⟩, -⟩
  rw [htext] at hws
  obtain rfl := hd.skipWs_eq hws
  rcases hd.value_cases with ⟨_, -, -, hbrace, -⟩ | ⟨_, _, -, heq, -⟩ | ⟨ms', t, -, heq, hms⟩
  · exact absurd rfl hbrace
  · exact absurd (List.cons.inj heq).1 (by decide)
  · obtain ⟨-, rfl⟩ := List.cons.inj heq
    rcases hms with ⟨-, hclose⟩ | hms
    · exact absurd (hclose.unique rfl (.refl _) rfl).1 (by decide)
    · obtain ⟨j, s, s', hws, hvalue, -⟩ := hms.first_member
      exact spellsNothing_of_mem (by decide) j _ s s' hws hvalue

end Rustyaxe
