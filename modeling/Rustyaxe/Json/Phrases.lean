import Rustyaxe.Json.Flatten
import Rustyaxe.Json.Numbers
import Rustyaxe.Json.Strings

/-!
# Phrases of the grammar, as the parser meets them

Where `skip_ws` stops, what a phrase starts with, and that the scalars the parser reads
(`parseScalar`) are the scalars of the grammar.
-/

set_option autoImplicit false

namespace Rustyaxe

/-! ## Blanks -/

theorem Ws.refl (s : CStr) : Ws s s := ⟨[], by simp, rfl⟩

theorem Ws.trans {s t u : CStr} (h : Ws s t) (h' : Ws t u) : Ws s u := by
  obtain ⟨w, hw, rfl⟩ := h
  obtain ⟨w', hw', rfl⟩ := h'
  refine ⟨w ++ w', fun c hc ↦ ?_, (List.append_assoc ..).symm⟩
  rcases List.mem_append.mp hc with hc | hc
  · exact hw c hc
  · exact hw' c hc

theorem ws_skipWs (s : CStr) : Ws s (skipWs s) :=
  ⟨s.takeWhile isJsonWs, fun _ ↦ List.mem_takeWhile_imp, List.takeWhile_append_dropWhile.symm⟩

theorem Ws.length_le {s r : CStr} (h : Ws s r) : r.length ≤ s.length := by
  obtain ⟨w, -, rfl⟩ := h
  simp

/-- `skip_ws` stops where the text goes on with something else. -/
theorem Ws.skipWs_eq {s r : CStr} (h : Ws s r) (hr : ∀ c, r.head? = some c → isJsonWs c = false) :
    skipWs s = r := by
  obtain ⟨w, hw, rfl⟩ := h
  exact dropWhile_append_of_all hw hr

theorem Ws.skipWs_cons {s r : CStr} {c : UInt8} (h : Ws s (c :: r)) (hc : isJsonWs c = false) :
    skipWs s = c :: r :=
  h.skipWs_eq fun x hx ↦ by
    obtain rfl : c = x := by simpa using hx
    exact hc

/-- Blanks, and then a byte that ends a primitive. -/
theorem Ws.follow {s r : CStr} {c : UInt8} (h : Ws s (c :: r)) (hc : isDelimiter c = true) :
    Follow s := by
  obtain ⟨w, hw, rfl⟩ := h
  cases w with
  | nil => exact follow_cons hc
  | cons b w => exact follow_cons (by simp [isDelimiter, hw b List.mem_cons_self])

theorem Ws.follow_nil {s : CStr} (h : Ws s []) : Follow s := by
  obtain ⟨w, hw, rfl⟩ := h
  cases w with
  | nil => exact Rustyaxe.follow_nil
  | cons b w => exact follow_cons (by simp [isDelimiter, hw b List.mem_cons_self])

theorem cons_of_head? {s : CStr} {c : UInt8} (h : s.head? = some c) : s = c :: s.tail := by
  cases s with
  | nil => simp at h
  | cons b s => simpa using h

/-- What `skip_ws` finds, when it finds `c`. -/
theorem ws_of_head? {s : CStr} {c : UInt8} (h : (skipWs s).head? = some c) :
    Ws s (c :: (skipWs s).tail) :=
  cons_of_head? h ▸ ws_skipWs s

/-! ## Phrases -/

/-- A scalar as a tree. -/
def Scalar.toJson : Scalar → Json
  | .null => .null
  | .bool b => .bool b
  | .num t => .num t
  | .str items => .str items

theorem Scalar.visits_toJson (c : Scalar) (path : CStr) (depth : ℕ) :
    c.toJson.visits path depth = [⟨path, depth, some c⟩] := by
  cases c <;> rfl

theorem Scalar.namesOk_toJson (c : Scalar) : c.toJson.NamesOk := by
  cases c <;> simp [Scalar.toJson, Json.NamesOk]

theorem StrText.length_lt {items : List StrItem} {s r : CStr} (h : StrText items s r) :
    r.length < s.length := by
  rw [h.2]
  simp only [List.length_append, List.length_cons]
  omega

/-- A phrase is not empty. -/
theorem Derives.length_lt {ph : Phrase} {s r : CStr} (h : Derives ph s r) :
    r.length < s.length := by
  induction h with
  | null => simp [lit]; omega
  | true => simp [lit]; omega
  | false => simp [lit]; omega
  | num h => simpa using List.length_pos_iff.mpr h.ne_nil
  | str h => exact h.length_lt
  | emptyArr hw => have := hw.length_le; simp only [List.length_cons] at *; omega
  | arr _ ih => simp only [List.length_cons] at *; omega
  | emptyObj hw => have := hw.length_le; simp only [List.length_cons] at *; omega
  | obj _ ih => simp only [List.length_cons] at *; omega
  | element hw _ hw' ih => have := hw.length_le; have := hw'.length_le; omega
  | elements hw _ hw' _ ih ih' =>
    have := hw.length_le
    have := hw'.length_le
    simp only [List.length_cons] at *
    omega
  | member hw hn hc hw' _ hw'' ih =>
    have := hw.length_le
    have := hn.length_lt
    have := hc.length_le
    have := hw'.length_le
    have := hw''.length_le
    simp only [List.length_cons] at *
    omega
  | members hw hn hc hw' _ hw'' _ ih ih' =>
    have := hw.length_le
    have := hn.length_lt
    have := hc.length_le
    have := hw'.length_le
    have := hw''.length_le
    simp only [List.length_cons] at *
    omega

theorem Scalar.Token.derives {c : Scalar} {t : CStr} (h : c.Token t) (r : CStr) :
    Derives (.value c.toJson) (t ++ r) r := by
  match c, h with
  | .null, h => rw [show t = lit "null" from h]; exact .null
  | .bool true, h => rw [show t = lit "true" from h]; exact .true
  | .bool false, h => rw [show t = lit "false" from h]; exact .false
  | .num n, h => rw [h.1]; exact .num h.2

/-- Blanks in front of the elements of an array are part of them. -/
theorem Derives.ws_elements {es : Elements} {s s' r : CStr} (hw : Ws s s')
    (h : Derives (.elements es) s' r) : Derives (.elements es) s r := by
  cases h with
  | element hw₁ h hw₂ => exact .element (hw.trans hw₁) h hw₂
  | elements hw₁ h hw₂ h' => exact .elements (hw.trans hw₁) h hw₂ h'

/-- Blanks in front of the members of an object are part of them. -/
theorem Derives.ws_members {ms : Members} {s s' r : CStr} (hw : Ws s s')
    (h : Derives (.members ms) s' r) : Derives (.members ms) s r := by
  cases h with
  | member hw₁ hn hc hw₂ h hw₃ => exact .member (hw.trans hw₁) hn hc hw₂ h hw₃
  | members hw₁ hn hc hw₂ h hw₃ h' => exact .members (hw.trans hw₁) hn hc hw₂ h hw₃ h'

/-- A value does not start with a blank or a closing bracket. -/
theorem Derives.value_head {j : Json} {s r : CStr} (h : Derives (.value j) s r) :
    ∃ c t, s = c :: t ∧ isDelimiter c = Bool.false := by
  cases h with
  | null => exact ⟨0x6e, _, rfl, rfl⟩
  | true => exact ⟨0x74, _, rfl, rfl⟩
  | false => exact ⟨0x66, _, rfl, rfl⟩
  | @num t _ h =>
    obtain ⟨c, t', rfl⟩ := List.exists_cons_of_ne_nil h.ne_nil
    exact ⟨c, t' ++ r, rfl, (h.bytes c List.mem_cons_self).not_isDelimiter⟩
  | str h => exact ⟨quote, _, h.2, rfl⟩
  | emptyArr _ => exact ⟨lbracket, _, rfl, rfl⟩
  | arr _ => exact ⟨lbracket, _, rfl, rfl⟩
  | emptyObj _ => exact ⟨lbrace, _, rfl, rfl⟩
  | obj _ => exact ⟨lbrace, _, rfl, rfl⟩

theorem isJsonWs_of_not_isDelimiter {c : UInt8} (h : isDelimiter c = false) :
    isJsonWs c = false := by
  simp only [isDelimiter, Bool.or_eq_false_iff] at h
  exact h.2

/-- `skip_ws` stops at a value. -/
theorem Derives.skipWs_eq {j : Json} {s s' r : CStr} (hw : Ws s s') (h : Derives (.value j) s' r) :
    skipWs s = s' := by
  obtain ⟨c, t, rfl, hc⟩ := h.value_head
  exact hw.skipWs_cons (isJsonWs_of_not_isDelimiter hc)

theorem Derives.elements_head {es : Elements} {s r : CStr} (h : Derives (.elements es) s r) :
    ∃ c t, skipWs s = c :: t ∧ isDelimiter c = Bool.false := by
  cases h with
  | element hw h _ => rw [h.skipWs_eq hw]; exact h.value_head
  | elements hw h _ _ => rw [h.skipWs_eq hw]; exact h.value_head

theorem StrText.skipWs_eq {items : List StrItem} {s s' r : CStr} (hw : Ws s s')
    (h : StrText items s' r) : skipWs s = s' :=
  hw.skipWs_eq fun c hc ↦ by
    obtain rfl : quote = c := by simpa [h.2] using hc
    rfl

theorem Derives.members_head {ms : Members} {s r : CStr} (h : Derives (.members ms) s r) :
    (skipWs s).head? = some quote := by
  cases h with
  | member hw hn _ _ _ _ => rw [hn.skipWs_eq hw, hn.2]; rfl
  | members hw hn _ _ _ _ _ => rw [hn.skipWs_eq hw, hn.2]; rfl

/-! ## Scalars -/

section Scalars

variable (strtod : CStr → UInt64 × CStr × Bool)

/-- What `json_parse_value` reads if there is neither an object nor an array: the value of a string
or a primitive, and what follows. -/
def parseScalar (s : CStr) : Option (DictValue × CStr) :=
  if s.head? = some quote then (jsonParseStr s).map fun p ↦ (.str (some p.1), p.2)
  else (jsonParsePrimitive s).bind fun p ↦ (primitiveValue strtod p.1).map fun x ↦ (x, p.2)

variable {strtod}

/-- A scalar that is read is in the text. -/
theorem parseScalar_sound {s r : CStr} {x : DictValue} (h : parseScalar strtod s = some (x, r)) :
    ∃ c : Scalar, Derives (.value c.toJson) s r ∧ c.value strtod = some x := by
  rw [parseScalar] at h
  split at h
  · obtain ⟨⟨out, r'⟩, hp, heq⟩ := Option.map_eq_some_iff.mp h
    obtain ⟨rfl, rfl⟩ := Prod.mk.inj heq
    obtain ⟨items, hs, hdec⟩ := jsonParseStr_iff.mp hp
    exact ⟨.str items, .str hs, by simp [Scalar.value, hdec]⟩
  · obtain ⟨⟨t, r'⟩, hp, heq⟩ := Option.bind_eq_some_iff.mp h
    obtain ⟨x', hx, heq⟩ := Option.map_eq_some_iff.mp heq
    obtain ⟨rfl, rfl⟩ := Prod.mk.inj heq
    obtain ⟨rfl, -, -⟩ := jsonParsePrimitive_eq_some hp
    obtain ⟨c, hc, hval⟩ := primitiveValue_eq_some strtod hx
    exact ⟨c, hc.derives r', hval⟩

/-- The text of a scalar. -/
theorem Derives.scalar {c : Scalar} {s r : CStr} (h : Derives (.value c.toJson) s r) :
    (∃ items, c = .str items ∧ StrText items s r) ∨ ∃ t, c.Token t ∧ s = t ++ r := by
  cases c with
  | null => cases h with | null => exact .inr ⟨_, rfl, rfl⟩
  | bool b =>
    cases h with
    | true => exact .inr ⟨_, rfl, rfl⟩
    | false => exact .inr ⟨_, rfl, rfl⟩
  | num t => cases h with | num h => exact .inr ⟨t, ⟨rfl, h⟩, rfl⟩
  | str items => cases h with | str h => exact .inl ⟨items, rfl, h⟩

/-- A scalar in the text is read. -/
theorem parseScalar_complete {c : Scalar} {s r : CStr} {x : DictValue}
    (h : Derives (.value c.toJson) s r) (hr : Follow r) (hx : c.value strtod = some x) :
    s.head? ≠ some lbrace ∧ s.head? ≠ some lbracket ∧ parseScalar strtod s = some (x, r) := by
  rcases h.scalar with ⟨items, rfl, hs⟩ | ⟨t, ht, rfl⟩
  · obtain ⟨out, hdec, rfl⟩ := Option.map_eq_some_iff.mp hx
    have hparse := jsonParseStr_iff.mpr ⟨items, hs, hdec⟩
    have hhead : s.head? = some quote := by rw [hs.2]; rfl
    refine ⟨by rw [hhead]; decide, by rw [hhead]; decide, ?_⟩
    rw [parseScalar, if_pos hhead, hparse]
    rfl
  · obtain ⟨b, t', rfl⟩ := List.exists_cons_of_ne_nil ht.ne_nil
    obtain ⟨-, hq, hlb, hlk⟩ := ht.bytes b List.mem_cons_self
    refine ⟨by simpa using hlb, by simpa using hlk, ?_⟩
    rw [parseScalar, if_neg (by simpa using hq),
      jsonParsePrimitive_append ht.ne_nil (fun y hy ↦ (ht.bytes y hy).1) hr, Option.bind_some,
      primitiveValue_token strtod ht, hx]
    rfl

end Scalars

end Rustyaxe
