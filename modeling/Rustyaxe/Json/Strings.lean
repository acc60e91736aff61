import Rustyaxe.Json.Grammar

/-!
# Reading strings

`json_parse_str` looks for the closing quote first and decodes the token afterwards.  Both passes
agree with the grammar: `jsonParseStr_iff` says that it accepts exactly the strings of the grammar
that decode, and returns what they decode to.
-/

set_option autoImplicit false

namespace Rustyaxe

/-! ## Bytes -/

theorem isHex_plain {c : UInt8} (h : IsHex c) : 0x20 ≤ c ∧ c ≠ quote ∧ c ≠ backslash := by
  have hrange : (0x30 ≤ c ∧ c ≤ 0x39) ∨ (0x61 ≤ c ∧ c ≤ 0x66) ∨ (0x41 ≤ c ∧ c ≤ 0x46) := by
    by_contra hno
    simp only [not_or] at hno
    rw [IsHex, hexDigit, if_neg hno.1, if_neg hno.2.1, if_neg hno.2.2] at h
    exact h rfl
  simp only [quote, backslash, ne_eq, UInt8.le_iff_toNat_le, ← UInt8.toNat_inj] at *
  simp only [UInt8.reduceToNat] at *
  omega

theorem simpleEscape_u : simpleEscape 0x75 = none := by decide

theorem ne_u_of_escape {e : UInt8} (h : simpleEscape e ≠ none) : e ≠ 0x75 := by
  rintro rfl
  exact h simpleEscape_u

theorem jsonHex4_eq_some {a b c d : UInt8} {n : ℕ} (h : jsonHex4 a b c d = some n) :
    IsHex a ∧ IsHex b ∧ IsHex c ∧ IsHex d := by
  simp only [jsonHex4, Option.bind_eq_bind, Option.bind_eq_some_iff] at h
  obtain ⟨na, ha, nb, hb, nc, hc, nd, hd, -⟩ := h
  exact ⟨by simp [IsHex, ha], by simp [IsHex, hb], by simp [IsHex, hc], by simp [IsHex, hd]⟩

@[simp] theorem bodyText_nil : bodyText [] = [] := rfl

@[simp] theorem bodyText_cons (i : StrItem) (items : List StrItem) :
    bodyText (i :: items) = i.text ++ bodyText items := rfl

/-! ## Finding the closing quote -/

theorem strEnd_plain {c : UInt8} (h : 0x20 ≤ c ∧ c ≠ quote ∧ c ≠ backslash) (s : CStr) :
    strEnd (c :: s) = (strEnd s).map fun p ↦ (c :: p.1, p.2) := by
  rw [strEnd.eq_def]
  dsimp only
  rw [if_neg h.2.1, if_neg (by simpa using h.1), if_neg h.2.2]

theorem strEnd_escape (e : UInt8) (s : CStr) :
    strEnd (backslash :: e :: s) = (strEnd s).map fun p ↦ (backslash :: e :: p.1, p.2) := by
  rw [strEnd.eq_def]
  dsimp only
  rw [if_neg (by decide), if_neg (by decide), if_pos rfl]

/-- The scan goes over the items of a string and stops at the quote after them. -/
theorem strEnd_bodyText (r : CStr) : ∀ {items : List StrItem}, (∀ i ∈ items, i.Valid) →
    strEnd (bodyText items ++ quote :: r) = some (bodyText items, r)
  | [], _ => by
    rw [bodyText_nil, List.nil_append, strEnd.eq_def]
    exact if_pos rfl
  | i :: items, h => by
    obtain ⟨hi, h⟩ := List.forall_mem_cons.mp h
    have ih := strEnd_bodyText r h
    cases i with
    | byte b =>
      simp only [bodyText_cons, StrItem.text, List.cons_append, List.nil_append]
      rw [strEnd_plain hi, ih]
      rfl
    | esc e =>
      simp only [bodyText_cons, StrItem.text, List.cons_append, List.nil_append]
      rw [strEnd_escape, ih]
      rfl
    | unicode a b c d =>
      simp only [bodyText_cons, StrItem.text, List.cons_append, List.nil_append]
      rw [strEnd_escape, strEnd_plain (isHex_plain hi.1), strEnd_plain (isHex_plain hi.2.1),
        strEnd_plain (isHex_plain hi.2.2.1), strEnd_plain (isHex_plain hi.2.2.2), ih]
      rfl

theorem strEnd_eq : ∀ {s body r : CStr}, strEnd s = some (body, r) → s = body ++ quote :: r
  | [], _, _, h => by simp [strEnd] at h
  | c :: s, body, r, h => by
    rw [strEnd.eq_def] at h
    dsimp only at h
    split at h
    · rename_i hc
      obtain ⟨rfl, rfl⟩ : [] = body ∧ s = r := by simpa using h
      rw [hc, List.nil_append]
    · split at h
      · simp at h
      · split at h
        · cases s with
          | nil => simp at h
          | cons e s =>
            obtain ⟨⟨body', r'⟩, hs, heq⟩ := Option.map_eq_some_iff.mp h
            obtain ⟨rfl, rfl⟩ := Prod.mk.inj heq
            rw [strEnd_eq hs]
            rfl
        · obtain ⟨⟨body', r'⟩, hs, heq⟩ := Option.map_eq_some_iff.mp h
          obtain ⟨rfl, rfl⟩ := Prod.mk.inj heq
          rw [strEnd_eq hs]
          rfl

/-! ## Decoding -/

theorem unescapeLoop_plain {c : UInt8} (h : 0x20 ≤ c ∧ c ≠ quote ∧ c ≠ backslash) (p : CStr) :
    unescapeLoop (c :: p) = (unescapeLoop p).map (c :: ·) := by
  rw [unescapeLoop.eq_def]
  dsimp only
  rw [if_neg (by simpa using ⟨h.1, h.2.1⟩), if_pos h.2.2]

theorem unescapeLoop_escape {e : UInt8} (he : e ≠ 0x75) (p : CStr) :
    unescapeLoop (backslash :: e :: p)
      = (simpleEscape e).bind fun b ↦ (unescapeLoop p).map (b :: ·) := by
  rw [unescapeLoop.eq_def]
  dsimp only
  rw [if_neg (by decide), if_neg (by simp), if_pos he]

/-- What `json_unescape` makes of the text after a high surrogate. -/
def unescapeLow (code : ℕ) : (p : CStr) → Option CStr
  | b :: u :: l₁ :: l₂ :: l₃ :: l₄ :: p =>
    if b ≠ backslash ∨ u ≠ 0x75 then none
    else (jsonHex4 l₁ l₂ l₃ l₄).bind fun low ↦
      if low < 0xDC00 ∨ low > 0xDFFF then none
      else (unescapeLoop p).map (utf8 (pairCode code low) ++ ·)
  | _ => none

theorem unescapeLoop_unicode (a b c d : UInt8) (p : CStr) :
    unescapeLoop (backslash :: 0x75 :: a :: b :: c :: d :: p)
      = (jsonHex4 a b c d).bind fun code ↦
        if code = 0 then none
        else if 0xD800 ≤ code ∧ code ≤ 0xDBFF then unescapeLow code p
        else if 0xDC00 ≤ code ∧ code ≤ 0xDFFF then none
        else (unescapeLoop p).map (utf8 code ++ ·) := by
  rw [unescapeLoop.eq_def]
  dsimp only
  rw [if_neg (by decide), if_neg (by simp), if_neg (by simp)]
  refine Option.bind_congr fun code _ ↦ ?_
  rcases p with _ | ⟨_, _ | ⟨_, _ | ⟨_, _ | ⟨_, _ | ⟨_, _ | ⟨_, p⟩⟩⟩⟩⟩⟩ <;> rfl

/-- A high surrogate must be followed by `\u`. -/
theorem unescapeLow_eq_none {code : ℕ} {p : CStr}
    (h : ∀ q, p ≠ backslash :: 0x75 :: q) : unescapeLow code p = none := by
  unfold unescapeLow
  split
  · rename_i b u l₁ l₂ l₃ l₄ q
    rw [if_pos]
    by_contra hno
    obtain ⟨rfl, rfl⟩ : b = backslash ∧ u = 0x75 := by simpa using hno
    exact h _ rfl
  · rfl

theorem unescapeLow_unicode (code : ℕ) (a b c d : UInt8) (p : CStr) :
    unescapeLow code (backslash :: 0x75 :: a :: b :: c :: d :: p)
      = (jsonHex4 a b c d).bind fun low ↦
        if low < 0xDC00 ∨ low > 0xDFFF then none
        else (unescapeLoop p).map (utf8 (pairCode code low) ++ ·) := by
  rw [unescapeLow, if_neg (by simp)]

/-- What the items after a high surrogate decode to. -/
def decodeLow (code : ℕ) : List StrItem → Option CStr
  | .unicode a b c d :: items => (jsonHex4 a b c d).bind fun low ↦
    if low < 0xDC00 ∨ low > 0xDFFF then none
    else (decodeItems items).map (utf8 (pairCode code low) ++ ·)
  | _ => none

theorem decodeItems_unicode (a b c d : UInt8) (items : List StrItem) :
    decodeItems (.unicode a b c d :: items)
      = (jsonHex4 a b c d).bind fun code ↦
        if code = 0 then none
        else if 0xD800 ≤ code ∧ code ≤ 0xDBFF then decodeLow code items
        else if 0xDC00 ≤ code ∧ code ≤ 0xDFFF then none
        else (decodeItems items).map (utf8 code ++ ·) := by
  rcases items with _ | ⟨_ | _ | _, items⟩ <;> rfl

/-- Decoding the text of a string is decoding its items. -/
theorem unescapeLoop_bodyText : ∀ {items : List StrItem}, (∀ i ∈ items, i.Valid) →
    unescapeLoop (bodyText items) = decodeItems items
  | [], _ => rfl
  | .byte b :: items, h => by
    obtain ⟨hi, h⟩ := List.forall_mem_cons.mp h
    rw [decodeItems, ← unescapeLoop_bodyText h]
    exact unescapeLoop_plain hi _
  | .esc e :: items, h => by
    obtain ⟨hi, h⟩ := List.forall_mem_cons.mp h
    rw [decodeItems, ← unescapeLoop_bodyText h]
    exact unescapeLoop_escape (ne_u_of_escape hi) _
  | .unicode a b c d :: items, h => by
    obtain ⟨-, h⟩ := List.forall_mem_cons.mp h
    have hlow : ∀ code, unescapeLow code (bodyText items) = decodeLow code items := by
      intro code
      match items, h with
      | [], _ => rfl
      | .byte x :: items, h =>
        exact unescapeLow_eq_none fun q hq ↦
          (List.forall_mem_cons.mp h).1.2.2 (List.cons.inj hq).1
      | .esc e :: items, h =>
        exact unescapeLow_eq_none fun q hq ↦
          ne_u_of_escape (List.forall_mem_cons.mp h).1 (List.cons.inj (List.cons.inj hq).2).1
      | .unicode a b c d :: items, h =>
        rw [decodeLow, ← unescapeLoop_bodyText (List.forall_mem_cons.mp h).2]
        exact unescapeLow_unicode code a b c d _
    have hbody : bodyText (.unicode a b c d :: items)
        = backslash :: 0x75 :: a :: b :: c :: d :: bodyText items := rfl
    rw [hbody, unescapeLoop_unicode, decodeItems_unicode, unescapeLoop_bodyText h]
    simp only [hlow]
  termination_by items => items.length

theorem unescapeLow_eq_some {code : ℕ} {p out : CStr} (h : unescapeLow code p = some out) :
    ∃ a b c d q low out', p = backslash :: 0x75 :: a :: b :: c :: d :: q ∧
      jsonHex4 a b c d = some low ∧ unescapeLoop q = some out' := by
  unfold unescapeLow at h
  split at h
  · rename_i b u l₁ l₂ l₃ l₄ q
    split at h
    · simp at h
    · rename_i hbu
      obtain ⟨rfl, rfl⟩ : b = backslash ∧ u = 0x75 := by simpa using hbu
      obtain ⟨low, hlow, h⟩ := Option.bind_eq_some_iff.mp h
      split at h
      · simp at h
      · obtain ⟨out', hout, -⟩ := Option.map_eq_some_iff.mp h
        exact ⟨l₁, l₂, l₃, l₄, q, low, out', rfl, hlow, hout⟩
  · simp at h

/-- Whatever `json_unescape` accepts is the text of a string. -/
theorem exists_items (n : ℕ) : ∀ {body out : CStr}, body.length ≤ n →
    unescapeLoop body = some out → ∃ items, (∀ i ∈ items, i.Valid) ∧ body = bodyText items := by
  induction n with
  | zero =>
    intro body out hn h
    obtain rfl := List.length_eq_zero_iff.mp (Nat.le_zero.mp hn)
    exact ⟨[], by simp, rfl⟩
  | succ n ih =>
    intro body out hn h
    match body with
    | [] => exact ⟨[], by simp, rfl⟩
    | c :: p =>
      rw [List.length_cons, Nat.add_le_add_iff_right] at hn
      by_cases hb : c = backslash
      · subst hb
        match p with
        | [] => simp [unescapeLoop, backslash, quote] at h
        | e :: p =>
          rw [List.length_cons] at hn
          by_cases he : e = 0x75
          · subst he
            rcases p with _ | ⟨h₁, _ | ⟨h₂, _ | ⟨h₃, _ | ⟨h₄, p⟩⟩⟩⟩
            · simp [unescapeLoop, backslash, quote] at h
            · simp [unescapeLoop, backslash, quote] at h
            · simp [unescapeLoop, backslash, quote] at h
            · simp [unescapeLoop, backslash, quote] at h
            · rw [unescapeLoop_unicode, Option.bind_eq_some_iff] at h
              obtain ⟨code, hcode, h⟩ := h
              have hvalid := jsonHex4_eq_some hcode
              simp only [List.length_cons] at hn
              split at h
              · simp at h
              · split at h
                · -- a high surrogate takes the low one with it
                  obtain ⟨a, b, c, d, q, low, out', rfl, hlow, hq⟩ := unescapeLow_eq_some h
                  simp only [List.length_cons] at hn
                  obtain ⟨items, hitems, rfl⟩ := ih (by omega) hq
                  refine ⟨.unicode h₁ h₂ h₃ h₄ :: .unicode a b c d :: items, ?_, rfl⟩
                  exact List.forall_mem_cons.mpr
                    ⟨hvalid, List.forall_mem_cons.mpr ⟨jsonHex4_eq_some hlow, hitems⟩⟩
                · split at h
                  · simp at h
                  · obtain ⟨out', hout, -⟩ := Option.map_eq_some_iff.mp h
                    obtain ⟨items, hitems, rfl⟩ := ih (by omega) hout
                    exact ⟨.unicode h₁ h₂ h₃ h₄ :: items,
                      List.forall_mem_cons.mpr ⟨hvalid, hitems⟩, rfl⟩
          · rw [unescapeLoop_escape he, Option.bind_eq_some_iff] at h
            obtain ⟨b, hesc, h⟩ := h
            obtain ⟨out', hout, -⟩ := Option.map_eq_some_iff.mp h
            obtain ⟨items, hitems, rfl⟩ := ih (by omega) hout
            exact ⟨.esc e :: items,
              List.forall_mem_cons.mpr ⟨by rw [StrItem.Valid, hesc]; simp, hitems⟩, rfl⟩
      · have hc : ¬ (c < 0x20 ∨ c = quote) := by
          intro hc
          rw [unescapeLoop.eq_def] at h
          simp [hc] at h
        have hplain : 0x20 ≤ c ∧ c ≠ quote ∧ c ≠ backslash := by
          simp only [not_or, UInt8.not_lt] at hc
          exact ⟨hc.1, hc.2, hb⟩
        rw [unescapeLoop_plain hplain] at h
        obtain ⟨out', hout, -⟩ := Option.map_eq_some_iff.mp h
        obtain ⟨items, hitems, rfl⟩ := ih hn hout
        exact ⟨.byte c :: items, List.forall_mem_cons.mpr ⟨hplain, hitems⟩, rfl⟩

theorem jsonUnescape_quoted (body : CStr) :
    jsonUnescape (quote :: body ++ [quote]) = unescapeLoop body := by
  rw [jsonUnescape, if_neg]
  · rw [List.cons_append, List.tail_cons, List.dropLast_concat]
  · simp [List.getLast?_cons]

/-- **`json_parse_str`** accepts the strings of the grammar that decode. -/
theorem jsonParseStr_iff {s out r : CStr} :
    jsonParseStr s = some (out, r) ↔ ∃ items, StrText items s r ∧ decodeItems items = some out := by
  constructor
  · intro h
    match s with
    | [] => simp [jsonParseStr] at h
    | c :: s =>
      rw [jsonParseStr] at h
      split at h
      · simp at h
      · rename_i hc
        obtain rfl : c = quote := by simpa using hc
        simp only [Option.bind_eq_bind, Option.bind_eq_some_iff, Option.pure_def,
          Option.some.injEq, Prod.mk.injEq] at h
        obtain ⟨⟨body, r'⟩, hend, out', hout, rfl, rfl⟩ := h
        rw [jsonUnescape_quoted] at hout
        obtain ⟨items, hvalid, rfl⟩ := exists_items _ le_rfl hout
        exact ⟨items, ⟨hvalid, by rw [strEnd_eq hend]; rfl⟩,
          (unescapeLoop_bodyText hvalid).symm.trans hout⟩
  · rintro ⟨items, ⟨hvalid, rfl⟩, hout⟩
    rw [List.cons_append, jsonParseStr, if_neg (by simp), strEnd_bodyText r hvalid]
    simp only [Option.bind_eq_bind, Option.bind_some]
    rw [jsonUnescape_quoted, unescapeLoop_bodyText hvalid, hout]
    rfl

end Rustyaxe
