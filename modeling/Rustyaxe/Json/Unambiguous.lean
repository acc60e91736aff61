import Rustyaxe.Json.Phrases

/-!
# The grammar is unambiguous

`JsonText.unique`: a text has at most one syntax tree.  A value and what follows it are determined
by the text as long as what follows it ends a primitive (`Follow`), and that is the case wherever a
value stands in a text.
-/

set_option autoImplicit false

namespace Rustyaxe

/-! ## Tokens -/

theorem bodyText_inj {items items' : List StrItem} (h : ∀ i ∈ items, i.Valid)
    (h' : ∀ i ∈ items', i.Valid) (heq : bodyText items = bodyText items') : items = items' := by
  induction items generalizing items' with
  | nil =>
    cases items' with
    | nil => rfl
    | cons i items' => cases i <;> simp [StrItem.text] at heq
  | cons i items ih =>
    obtain ⟨hi, hrest⟩ := List.forall_mem_cons.mp h
    cases items' with
    | nil => cases i <;> simp [StrItem.text] at heq
    | cons i' items' =>
      obtain ⟨hi', hrest'⟩ := List.forall_mem_cons.mp h'
      rw [bodyText_cons, bodyText_cons] at heq
      cases i with
      | byte b =>
        cases i' with
        | byte b' =>
          obtain ⟨rfl, hbody⟩ := List.cons.inj heq
          rw [ih hrest hrest' hbody]
        | esc e => exact absurd (List.cons.inj heq).1 hi.2.2
        | unicode a b c d => exact absurd (List.cons.inj heq).1 hi.2.2
      | esc e =>
        cases i' with
        | byte b => exact absurd (List.cons.inj heq).1.symm hi'.2.2
        | esc e' =>
          obtain ⟨-, heq⟩ := List.cons.inj heq
          obtain ⟨rfl, hbody⟩ := List.cons.inj heq
          rw [ih hrest hrest' hbody]
        | unicode a b c d =>
          exact absurd (List.cons.inj (List.cons.inj heq).2).1 (ne_u_of_escape hi)
      | unicode a b c d =>
        cases i' with
        | byte b => exact absurd (List.cons.inj heq).1.symm hi'.2.2
        | esc e =>
          exact absurd (List.cons.inj (List.cons.inj heq).2).1.symm (ne_u_of_escape hi')
        | unicode a' b' c' d' =>
          simp only [StrItem.text, List.cons_append, List.nil_append, List.cons.injEq, true_and] at heq
          obtain ⟨rfl, rfl, rfl, rfl, hbody⟩ := heq
          rw [ih hrest hrest' hbody]

theorem StrText.unique {items items' : List StrItem} {s r r' : CStr} (h : StrText items s r)
    (h' : StrText items' s r') : items' = items ∧ r' = r := by
  obtain ⟨hv, hs⟩ := h
  obtain ⟨hv', hs'⟩ := h'
  have htail : bodyText items ++ quote :: r = bodyText items' ++ quote :: r' :=
    (List.cons.inj (hs.symm.trans hs')).2
  have hend := strEnd_bodyText r hv
  rw [htail, strEnd_bodyText r' hv'] at hend
  obtain ⟨hbody, rfl⟩ := Prod.mk.inj (Option.some_inj.mp hend)
  exact ⟨bodyText_inj hv' hv hbody, rfl⟩

theorem Scalar.Token.unique {c c' : Scalar} {t : CStr} (h : c.Token t) (h' : c'.Token t) :
    c' = c := by
  have hnum : ∀ {n}, (Scalar.num n).Token t → t ≠ lit "null" ∧ t ≠ lit "true" ∧ t ≠ lit "false" :=
    fun hn ↦ hn.1 ▸ hn.2.ne_lit
  match c, c', h, h' with
  | .null, .null, _, _ => rfl
  | .null, .bool true, h, h' => exact absurd (h.symm.trans h') (by decide)
  | .null, .bool false, h, h' => exact absurd (h.symm.trans h') (by decide)
  | .null, .num n, h, h' => exact absurd h (hnum h').1
  | .bool true, .null, h, h' => exact absurd (h.symm.trans h') (by decide)
  | .bool true, .bool true, _, _ => rfl
  | .bool true, .bool false, h, h' => exact absurd (h.symm.trans h') (by decide)
  | .bool true, .num n, h, h' => exact absurd h (hnum h').2.1
  | .bool false, .null, h, h' => exact absurd (h.symm.trans h') (by decide)
  | .bool false, .bool true, h, h' => exact absurd (h.symm.trans h') (by decide)
  | .bool false, .bool false, _, _ => rfl
  | .bool false, .num n, h, h' => exact absurd h (hnum h').2.2
  | .num n, .null, h, h' => exact absurd h' (hnum h).1
  | .num n, .bool true, h, h' => exact absurd h' (hnum h).2.1
  | .num n, .bool false, h, h' => exact absurd h' (hnum h).2.2
  | .num n, .num n', h, h' => rw [← h.1, ← h'.1]

theorem Derives.scalar_unique {c c' : Scalar} {s r r' : CStr} (h : Derives (.value c.toJson) s r)
    (hr : Follow r) (h' : Derives (.value c'.toJson) s r') (hr' : Follow r') :
    c' = c ∧ r' = r := by
  rcases h.scalar with ⟨items, rfl, hs⟩ | ⟨t, ht, hst⟩ <;>
    rcases h'.scalar with ⟨items', rfl, hs'⟩ | ⟨t', ht', hst'⟩
  · obtain ⟨rfl, rfl⟩ := hs.unique hs'
    exact ⟨rfl, rfl⟩
  · obtain ⟨b, t', rfl⟩ := List.exists_cons_of_ne_nil ht'.ne_nil
    exact absurd (List.cons.inj (hst'.symm.trans hs.2)).1 (ht'.bytes b List.mem_cons_self).2.1
  · obtain ⟨b, t, rfl⟩ := List.exists_cons_of_ne_nil ht.ne_nil
    exact absurd (List.cons.inj (hst.symm.trans hs'.2)).1 (ht.bytes b List.mem_cons_self).2.1
  · have hp := jsonParsePrimitive_append ht.ne_nil (fun x hx ↦ (ht.bytes x hx).1) hr
    have hp' := jsonParsePrimitive_append ht'.ne_nil (fun x hx ↦ (ht'.bytes x hx).1) hr'
    rw [← hst, hst', hp'] at hp
    obtain ⟨rfl, rfl⟩ := Prod.mk.inj (Option.some_inj.mp hp)
    exact ⟨ht.unique ht', rfl⟩

/-! ## Phrases -/

theorem Derives.scalar_head {c : Scalar} {s r : CStr} (h : Derives (.value c.toJson) s r) :
    s.head? ≠ some lbrace ∧ s.head? ≠ some lbracket := by
  rcases h.scalar with ⟨items, -, hs⟩ | ⟨t, ht, rfl⟩
  · have hq : s.head? = some quote := by rw [hs.2]; rfl
    rw [hq]
    exact ⟨by decide, by decide⟩
  · obtain ⟨b, t, rfl⟩ := List.exists_cons_of_ne_nil ht.ne_nil
    have hb := (ht.bytes b List.mem_cons_self).2.2
    exact ⟨by simpa using hb.1, by simpa using hb.2⟩

/-- A value is a scalar, an array or an object, and its first byte tells which. -/
theorem Derives.value_cases {j : Json} {s r : CStr} (h : Derives (.value j) s r) :
    (∃ c : Scalar, j = c.toJson ∧ Derives (.value c.toJson) s r ∧ s.head? ≠ some lbrace ∧
      s.head? ≠ some lbracket) ∨
    (∃ es t, j = .arr es ∧ s = lbracket :: t ∧
      (es = .nil ∧ Ws t (rbracket :: r) ∨ Derives (.elements es) t (rbracket :: r))) ∨
    ∃ ms t, j = .obj ms ∧ s = lbrace :: t ∧
      (ms = .nil ∧ Ws t (rbrace :: r) ∨ Derives (.members ms) t (rbrace :: r)) := by
  cases j with
  | null => exact .inl ⟨.null, rfl, h, h.scalar_head (c := .null)⟩
  | bool b => exact .inl ⟨.bool b, rfl, h, h.scalar_head (c := .bool b)⟩
  | num t => exact .inl ⟨.num t, rfl, h, h.scalar_head (c := .num t)⟩
  | str items => exact .inl ⟨.str items, rfl, h, h.scalar_head (c := .str items)⟩
  | arr es =>
    cases h with
    | emptyArr hw => exact .inr (.inl ⟨_, _, rfl, rfl, .inl ⟨rfl, hw⟩⟩)
    | arr h => exact .inr (.inl ⟨_, _, rfl, rfl, .inr h⟩)
  | obj ms =>
    cases h with
    | emptyObj hw => exact .inr (.inr ⟨_, _, rfl, rfl, .inl ⟨rfl, hw⟩⟩)
    | obj h => exact .inr (.inr ⟨_, _, rfl, rfl, .inr h⟩)

/-- Blanks end in one place. -/
theorem Ws.unique {s r r' : CStr} {c c' : UInt8} (h : Ws s (c :: r)) (hc : isJsonWs c = false)
    (h' : Ws s (c' :: r')) (hc' : isJsonWs c' = false) : c' = c ∧ r' = r := by
  have := (h'.skipWs_cons hc').symm.trans (h.skipWs_cons hc)
  exact List.cons.inj this

/-- What is determined by the text: a value and its end, if a delimiter follows; and the elements or
members up to the closing bracket. -/
def Determined : Phrase → (s r : CStr) → Prop
  | .value j, s, r => Follow r → ∀ j' r', Derives (.value j') s r' → Follow r' → j' = j ∧ r' = r
  | .elements es, s, r => ∀ x es' x', r = rbracket :: x →
      Derives (.elements es') s (rbracket :: x') → es' = es ∧ x' = x
  | .members ms, s, r => ∀ x ms' x', r = rbrace :: x →
      Derives (.members ms') s (rbrace :: x') → ms' = ms ∧ x' = x

theorem determined_scalar {c : Scalar} {s r : CStr} (h : Derives (.value c.toJson) s r) :
    Determined (.value c.toJson) s r := by
  intro hr j' r' h' hr'
  rcases h'.value_cases with ⟨c', rfl, h', -⟩ | ⟨es, t, -, rfl, -⟩ | ⟨ms, t, -, rfl, -⟩
  · obtain ⟨rfl, rfl⟩ := h.scalar_unique hr h' hr'
    exact ⟨rfl, rfl⟩
  · exact absurd rfl h.scalar_head.2
  · exact absurd rfl h.scalar_head.1

theorem Derives.nil_ne_elements {es : Elements} {t r r' : CStr} (hw : Ws t (rbracket :: r))
    (h : Derives (.elements es) t r') : False := by
  obtain ⟨c, t', hs, hc⟩ := h.elements_head
  rw [hw.skipWs_cons rfl] at hs
  obtain ⟨rfl, -⟩ := List.cons.inj hs
  exact absurd hc (by decide)

theorem Derives.nil_ne_members {ms : Members} {t r r' : CStr} (hw : Ws t (rbrace :: r))
    (h : Derives (.members ms) t r') : False := by
  have hq := h.members_head
  rw [hw.skipWs_cons rfl] at hq
  exact absurd (Option.some_inj.mp hq) (by decide)

/-- The first value of a list, and what follows it. -/
theorem Determined.first {j j' : Json} {s s₁ s₁' s₂ s₂' : CStr} (hj : Determined (.value j) s₁ s₂)
    (hw : Ws s s₁) (h : Derives (.value j) s₁ s₂) (hf : Follow s₂) (hw' : Ws s s₁')
    (h' : Derives (.value j') s₁' s₂') (hf' : Follow s₂') : j' = j ∧ s₂' = s₂ := by
  obtain rfl : s₁' = s₁ := (h'.skipWs_eq hw').symm.trans (h.skipWs_eq hw)
  exact hj hf j' s₂' h' hf'

/-- The first name of an object, up to the value after it. -/
theorem StrText.first {name name' : List StrItem} {s s₁ s₁' s₂ s₂' s₃ s₃' : CStr} (hw : Ws s s₁)
    (hn : StrText name s₁ s₂) (hc : Ws s₂ (colon :: s₃)) (hw' : Ws s s₁')
    (hn' : StrText name' s₁' s₂') (hc' : Ws s₂' (colon :: s₃')) : name' = name ∧ s₃' = s₃ := by
  obtain rfl : s₁' = s₁ := (hn'.skipWs_eq hw').symm.trans (hn.skipWs_eq hw)
  obtain ⟨rfl, rfl⟩ := hn.unique hn'
  exact ⟨rfl, (hc.unique rfl hc' rfl).2⟩

/-- What begins with a bracket is an array. -/
theorem Derives.arr_cases {j : Json} {s r : CStr} (h : Derives (.value j) (lbracket :: s) r) :
    (j = .arr .nil ∧ Ws s (rbracket :: r)) ∨
      ∃ es, j = .arr es ∧ Derives (.elements es) s (rbracket :: r) := by
  rcases h.value_cases with ⟨c, -, -, -, hne⟩ | ⟨es, t, rfl, heq, hes⟩ | ⟨ms, t, -, heq, -⟩
  · exact absurd rfl hne
  · obtain ⟨-, rfl⟩ := List.cons.inj heq
    rcases hes with ⟨rfl, hw⟩ | hes
    · exact .inl ⟨rfl, hw⟩
    · exact .inr ⟨es, rfl, hes⟩
  · exact absurd (List.cons.inj heq).1 (by decide)

/-- What begins with a brace is an object. -/
theorem Derives.obj_cases {j : Json} {s r : CStr} (h : Derives (.value j) (lbrace :: s) r) :
    (j = .obj .nil ∧ Ws s (rbrace :: r)) ∨
      ∃ ms, j = .obj ms ∧ Derives (.members ms) s (rbrace :: r) := by
  rcases h.value_cases with ⟨c, -, -, hne, -⟩ | ⟨es, t, -, heq, -⟩ | ⟨ms, t, rfl, heq, hms⟩
  · exact absurd rfl hne
  · exact absurd (List.cons.inj heq).1 (by decide)
  · obtain ⟨-, rfl⟩ := List.cons.inj heq
    rcases hms with ⟨rfl, hw⟩ | hms
    · exact .inl ⟨rfl, hw⟩
    · exact .inr ⟨ms, rfl, hms⟩

/-- Elements after whose first value nothing else can be read begin with that value. -/
theorem Determined.elements_cases {j : Json} {es : Elements} {s s₁ s₂ x : CStr}
    (hj : Determined (.value j) s₁ s₂) (hw : Ws s s₁) (h : Derives (.value j) s₁ s₂)
    (hf : Follow s₂) (hes : Derives (.elements es) s (rbracket :: x)) :
    (es = .cons j .nil ∧ Ws s₂ (rbracket :: x)) ∨
      ∃ es' s₃, es = .cons j es' ∧ Ws s₂ (comma :: s₃) ∧
        Derives (.elements es') s₃ (rbracket :: x) := by
  cases hes with
  | element hv hd hv' =>
    obtain ⟨rfl, rfl⟩ := hj.first hw h hf hv hd (hv'.follow rfl)
    exact .inl ⟨rfl, hv'⟩
  | elements hv hd hv' hes' =>
    obtain ⟨rfl, rfl⟩ := hj.first hw h hf hv hd (hv'.follow rfl)
    exact .inr ⟨_, _, rfl, hv', hes'⟩

/-- Members after whose first name and value nothing else can be read begin with these. -/
theorem Determined.members_cases {name : List StrItem} {j : Json} {ms : Members}
    {s s₁ s₂ s₃ s₄ s₅ x : CStr} (hj : Determined (.value j) s₄ s₅) (hw : Ws s s₁)
    (hn : StrText name s₁ s₂) (hc : Ws s₂ (colon :: s₃)) (hw' : Ws s₃ s₄)
    (h : Derives (.value j) s₄ s₅) (hf : Follow s₅)
    (hms : Derives (.members ms) s (rbrace :: x)) :
    (ms = .cons name j .nil ∧ Ws s₅ (rbrace :: x)) ∨
      ∃ ms' s₆, ms = .cons name j ms' ∧ Ws s₅ (comma :: s₆) ∧
        Derives (.members ms') s₆ (rbrace :: x) := by
  cases hms with
  | member hv hn' hc' hv' hd hv'' =>
    obtain ⟨rfl, rfl⟩ := StrText.first hw hn hc hv hn' hc'
    obtain ⟨rfl, rfl⟩ := hj.first hw' h hf hv' hd (hv''.follow rfl)
    exact .inl ⟨rfl, hv''⟩
  | members hv hn' hc' hv' hd hv'' hms' =>
    obtain ⟨rfl, rfl⟩ := StrText.first hw hn hc hv hn' hc'
    obtain ⟨rfl, rfl⟩ := hj.first hw' h hf hv' hd (hv''.follow rfl)
    exact .inr ⟨_, _, rfl, hv'', hms'⟩

/-- **What is derived is determined by the text.** -/
theorem Derives.determined {ph : Phrase} {s r : CStr} (h : Derives ph s r) : Determined ph s r := by
  induction h with
  | null => exact determined_scalar (c := .null) .null
  | true => exact determined_scalar (c := .bool Bool.true) .true
  | false => exact determined_scalar (c := .bool Bool.false) .false
  | @num t _ h => exact determined_scalar (c := .num t) (.num h)
  | @str items _ _ h => exact determined_scalar (c := .str items) (.str h)
  | emptyArr hw =>
    intro _ j' r' h' _
    rcases h'.arr_cases with ⟨rfl, hw'⟩ | ⟨es, rfl, hes⟩
    · exact ⟨rfl, (hw.unique rfl hw' rfl).2⟩
    · exact (nil_ne_elements hw hes).elim
  | arr h ih =>
    intro _ j' r' h' _
    rcases h'.arr_cases with ⟨rfl, hw'⟩ | ⟨es, rfl, hes⟩
    · exact (nil_ne_elements hw' h).elim
    · obtain ⟨rfl, rfl⟩ := ih _ es r' rfl hes
      exact ⟨rfl, rfl⟩
  | emptyObj hw =>
    intro _ j' r' h' _
    rcases h'.obj_cases with ⟨rfl, hw'⟩ | ⟨ms, rfl, hms⟩
    · exact ⟨rfl, (hw.unique rfl hw' rfl).2⟩
    · exact (nil_ne_members hw hms).elim
  | obj h ih =>
    intro _ j' r' h' _
    rcases h'.obj_cases with ⟨rfl, hw'⟩ | ⟨ms, rfl, hms⟩
    · exact (nil_ne_members hw' h).elim
    · obtain ⟨rfl, rfl⟩ := ih _ ms r' rfl hms
      exact ⟨rfl, rfl⟩
  | element hw h hw' ih =>
    rintro x es' x' rfl h'
    rcases ih.elements_cases hw h (hw'.follow rfl) h' with ⟨rfl, hv⟩ | ⟨es, s₃, rfl, hv, -⟩
    · exact ⟨rfl, (hw'.unique rfl hv rfl).2⟩
    · exact absurd (hw'.unique rfl hv rfl).1 (by decide)
  | elements hw h hw' _ ih ih' =>
    rintro x es' x' rfl h'
    rcases ih.elements_cases hw h (hw'.follow rfl) h' with ⟨rfl, hv⟩ | ⟨es, s₃, rfl, hv, hes⟩
    · exact absurd (hw'.unique rfl hv rfl).1 (by decide)
    · obtain ⟨-, rfl⟩ := hw'.unique rfl hv rfl
      obtain ⟨rfl, rfl⟩ := ih' _ _ _ rfl hes
      exact ⟨rfl, rfl⟩
  | member hw hn hc hw' h hw'' ih =>
    rintro x ms' x' rfl h'
    rcases ih.members_cases hw hn hc hw' h (hw''.follow rfl) h' with
      ⟨rfl, hv⟩ | ⟨ms, s₆, rfl, hv, -⟩
    · exact ⟨rfl, (hw''.unique rfl hv rfl).2⟩
    · exact absurd (hw''.unique rfl hv rfl).1 (by decide)
  | members hw hn hc hw' h hw'' _ ih ih' =>
    rintro x ms' x' rfl h'
    rcases ih.members_cases hw hn hc hw' h (hw''.follow rfl) h' with
      ⟨rfl, hv⟩ | ⟨ms, s₆, rfl, hv, hms⟩
    · exact absurd (hw''.unique rfl hv rfl).1 (by decide)
    · obtain ⟨-, rfl⟩ := hw''.unique rfl hv rfl
      obtain ⟨rfl, rfl⟩ := ih' _ _ _ rfl hms
      exact ⟨rfl, rfl⟩

/-- **A text has at most one syntax tree.** -/
theorem JsonText.unique {j j' : Json} {t : CStr} (h : JsonText j t) (h' : JsonText j' t) :
    j' = j := by
  obtain ⟨s, r, hw, hd, hr⟩ := h
  obtain ⟨s', r', hw', hd', hr'⟩ := h'
  exact (hd.determined.first hw hd hr.follow_nil hw' hd' hr'.follow_nil).1

end Rustyaxe
