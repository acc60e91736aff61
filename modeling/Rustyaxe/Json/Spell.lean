import Rustyaxe.Json.Encode
import Rustyaxe.Json.Phrases

/-!
# What the encoder writes for a string and for a value

`jsonEscape_spells`: an escaped string is a string of the grammar, and it decodes to what was
escaped.  `leaf_text` and `leaf_same` say the same of the values that `dict2json` can print without
loss: the text is a scalar of the grammar, and reading it back gives the same value, or for
integers the same number.
-/

set_option autoImplicit false

namespace Rustyaxe

/-! ## Strings -/

/-- The item `json_escape` writes for a byte. -/
def escapeItem (c : UInt8) : StrItem :=
  if c = quote then .esc quote
  else if c = backslash then .esc backslash
  else if c = 0x08 then .esc 0x62
  else if c = 0x0c then .esc 0x66
  else if c = 0x0a then .esc 0x6e
  else if c = 0x0d then .esc 0x72
  else if c = 0x09 then .esc 0x74
  else if c < 0x20 then .unicode 0x30 0x30 (hexChar (c.toNat / 16)) (hexChar (c.toNat % 16))
  else .byte c

theorem escapeItem_text (c : UInt8) : (escapeItem c).text = escapeByte c := by
  simp only [escapeItem, apply_ite StrItem.text]
  rfl

/-- How a byte is escaped. -/
theorem escapeItem_cases (c : UInt8) :
    (∃ e, escapeItem c = .esc e ∧ simpleEscape e = some c) ∨
      c < 0x20 ∧ escapeItem c =
        .unicode 0x30 0x30 (hexChar (c.toNat / 16)) (hexChar (c.toNat % 16)) ∨
      0x20 ≤ c ∧ c ≠ quote ∧ c ≠ backslash ∧ escapeItem c = .byte c := by
  rw [escapeItem]
  split_ifs with h1 h2 h3 h4 h5 h6 h7 h8
  · exact .inl ⟨_, rfl, by rw [h1]; rfl⟩
  · exact .inl ⟨_, rfl, by rw [h2]; rfl⟩
  · exact .inl ⟨_, rfl, by rw [h3]; rfl⟩
  · exact .inl ⟨_, rfl, by rw [h4]; rfl⟩
  · exact .inl ⟨_, rfl, by rw [h5]; rfl⟩
  · exact .inl ⟨_, rfl, by rw [h6]; rfl⟩
  · exact .inl ⟨_, rfl, by rw [h7]; rfl⟩
  · exact .inr (.inl ⟨h8, rfl⟩)
  · exact .inr (.inr ⟨UInt8.not_lt.mp h8, h1, h2, rfl⟩)

/-- `"%04x"` and `json_hex4` are inverse, for the bytes that are escaped this way. -/
theorem jsonHex4_hexChar : ∀ n < 32,
    jsonHex4 0x30 0x30 (hexChar (n / 16)) (hexChar (n % 16)) = some n := by
  decide

theorem isHex_hexChar : ∀ n < 16, hexDigit (hexChar n) ≠ none := by
  decide

theorem toNat_lt_of_lt {c d : UInt8} (h : c < d) : c.toNat < d.toNat := UInt8.lt_iff_toNat_lt.mp h

theorem escapeItem_valid (c : UInt8) : (escapeItem c).Valid := by
  obtain ⟨e, hitem, he⟩ | ⟨hlt, hitem⟩ | ⟨hle, hquote, hbackslash, hitem⟩ := escapeItem_cases c
  · rw [hitem, StrItem.Valid, he]
    exact Option.some_ne_none c
  · have hlt32 : c.toNat < 32 := toNat_lt_of_lt hlt
    have hzero : hexDigit 0x30 ≠ none := by decide
    rw [hitem]
    exact ⟨hzero, hzero, isHex_hexChar _ (by omega), isHex_hexChar _ (by omega)⟩
  · rw [hitem]
    exact ⟨hle, hquote, hbackslash⟩

/-- An escaped byte decodes to itself. -/
theorem decodeItems_escapeItem {c : UInt8} (hc : c ≠ 0) (items : List StrItem) :
    decodeItems (escapeItem c :: items) = (decodeItems items).map (c :: ·) := by
  obtain ⟨e, hitem, he⟩ | ⟨hlt, hitem⟩ | ⟨-, -, -, hitem⟩ := escapeItem_cases c
  · rw [hitem, decodeItems.eq_def]
    dsimp only
    rw [he, Option.bind_some]
  · have hlt32 : c.toNat < 32 := toNat_lt_of_lt hlt
    have hne : c.toNat ≠ 0 := fun h ↦ hc (UInt8.toNat_inj.mp h)
    rw [hitem, decodeItems.eq_def]
    dsimp only
    rw [jsonHex4_hexChar _ hlt32, Option.bind_some, if_neg hne, if_neg (by omega),
      if_neg (by omega), utf8, if_pos (by omega), UInt8.ofNat_toNat]
    rfl
  · rw [hitem, decodeItems.eq_def]

/-- The items `json_escape` writes for a string. -/
def escapeItems (s : CStr) : List StrItem := s.map escapeItem

theorem decodeItems_escapeItems {s : CStr} (h : 0 ∉ s) : decodeItems (escapeItems s) = some s := by
  induction s with
  | nil => rw [escapeItems, List.map_nil, decodeItems]
  | cons c s ih =>
    rw [List.mem_cons, not_or] at h
    rw [escapeItems, List.map_cons, decodeItems_escapeItem (Ne.symm h.1), ← escapeItems, ih h.2]
    rfl

theorem nameOf_escapeItems {s : CStr} (h : 0 ∉ s) : nameOf (escapeItems s) = s := by
  rw [nameOf, decodeItems_escapeItems h]
  rfl

/-- **An escaped string is a string of the grammar.** -/
theorem jsonEscape_spells (s r : CStr) :
    StrText (escapeItems s) (jsonEscape (some s) ++ r) r := by
  refine ⟨fun i hi ↦ ?_, ?_⟩
  · obtain ⟨c, -, rfl⟩ := List.mem_map.mp hi
    exact escapeItem_valid c
  · simp [jsonEscape, bodyText, escapeItems, List.flatMap_map, escapeItem_text]

theorem jsonUnescape_jsonEscape {s : CStr} (hs : 0 ∉ s) :
    jsonUnescape (jsonEscape (some s)) = some s := by
  obtain ⟨hvalid, htext⟩ := jsonEscape_spells s []
  have hbody : jsonEscape (some s) = quote :: bodyText (escapeItems s) ++ [quote] := by
    simpa using htext
  rw [hbody, jsonUnescape_quoted, unescapeLoop_bodyText hvalid, decodeItems_escapeItems hs]

/-- The memory that `json_escape` allocates is enough. -/
theorem length_jsonEscape_lt (s : CStr) : (jsonEscape (some s)).length < 6 * s.length + 3 := by
  have hbyte : ∀ c, (escapeByte c).length ≤ 6 := fun c ↦ by
    rw [← escapeItem_text]
    cases escapeItem c <;> simp [StrItem.text]
  have hall : (s.flatMap escapeByte).length ≤ 6 * s.length := by
    induction s with
    | nil => exact Nat.le_refl 0
    | cons c s ih =>
      have hc := hbyte c
      rw [List.flatMap_cons, List.length_append, List.length_cons]
      omega
  rw [jsonEscape, List.length_append, List.length_cons, List.length_singleton]
  omega

/-- **Escaping, delimiting and unescaping agree** on every string, whatever follows it. -/
theorem jsonEscape_roundTrip {s : CStr} (hs : 0 ∉ s) (t : CStr) :
    jsonUnescape (jsonEscape (some s)) = some s ∧
      (jsonEscape (some s)).length + 1 ≤ 6 * s.length + 3 ∧
      jsonParseStr (jsonEscape (some s) ++ t) = some (s, t) :=
  ⟨jsonUnescape_jsonEscape hs, length_jsonEscape_lt s,
    jsonParseStr_iff.mpr ⟨_, jsonEscape_spells s t, decodeItems_escapeItems hs⟩⟩

theorem jsonEscape_roundTrip_bell :
    jsonUnescape (jsonEscape (some [0x07, 0x22, 0xff])) = some [0x07, 0x22, 0xff] ∧
      (jsonEscape (some [0x07, 0x22, 0xff])).length + 1 ≤ 6 * 3 + 3 ∧
      jsonParseStr (jsonEscape (some [0x07, 0x22, 0xff]) ++ [comma])
        = some ([0x07, 0x22, 0xff], [comma]) :=
  jsonEscape_roundTrip (by decide) [comma]

/-! ## Numbers -/

theorem decimal_first : ∀ d < 10, d ≠ 0 → (0x31 : UInt8) ≤ UInt8.ofNat (0x30 + d) ∧
    UInt8.ofNat (0x30 + d) ≤ 0x39 := by decide

theorem intText_append {ds : CStr} {c : UInt8} (h : IntText ds) (hds : ds ≠ [0x30])
    (hc : isdigit c = true) : IntText (ds ++ [c]) := by
  obtain ⟨c', ds', rfl, h1, h2, h3⟩ := h.resolve_left hds
  refine .inr ⟨c', ds' ++ [c], rfl, h1, h2, fun x hx ↦ ?_⟩
  rcases List.mem_append.mp hx with hx | hx
  · exact h3 x hx
  · rw [List.mem_singleton.mp hx]
    exact hc

/-- A decimal number has no leading zeros. -/
theorem intText_decimal (n : ℕ) : IntText (decimal n) := by
  induction n using Nat.strong_induction_on with
  | _ n ih =>
    rw [decimal_eq]
    split
    · rename_i h
      by_cases h0 : n = 0
      · exact .inl (by rw [h0]; rfl)
      · exact .inr ⟨_, [], rfl, (decimal_first n h h0).1, (decimal_first n h h0).2, by simp⟩
    · refine intText_append (ih _ (by omega)) (fun h ↦ ?_) (isdigit_digit _ (Nat.mod_lt n (by decide)))
      have := digitsVal_decimal (n / 10)
      rw [h] at this
      have : digitsVal [0x30] = 0 := rfl
      omega

theorem numberText_decimalInt (i : ℤ) : NumberText (decimalInt i) := by
  rw [decimalInt]
  split
  · exact ⟨[minus], decimal i.natAbs, [], [], by simp, .inr rfl, intText_decimal _, .inl rfl, .inl rfl⟩
  · exact ⟨[], decimal i.natAbs, [], [], by simp, .inl rfl, intText_decimal _, .inl rfl, .inl rfl⟩

theorem jsonNumberIsInteger_decimalInt (i : ℤ) : jsonNumberIsInteger (decimalInt i) = true := by
  have hdec : ∀ c ∈ decimal i.natAbs, (c == dot || c == 0x65 || c == 0x45) = false := fun c hc ↦ by
    have hb := (isdigit_iff c).mp ((intText_decimal _).bytes c hc)
    simp only [Bool.or_eq_false_iff, beq_eq_false_iff_ne]
    refine ⟨⟨?_, ?_⟩, ?_⟩ <;> rintro rfl
    · exact absurd hb.1 (by decide)
    · exact absurd hb.2 (by decide)
    · exact absurd hb.2 (by decide)
  rw [jsonNumberIsInteger, Bool.not_eq_true', List.any_eq_false, decimalInt]
  split
  · rintro c hc
    rcases List.mem_cons.mp hc with rfl | hc
    · decide
    · rw [hdec c hc]; decide
  · intro c hc
    rw [hdec c hc]; decide

theorem intOf_decimalInt (i : ℤ) : intOf (decimalInt i) = i := by
  rw [decimalInt]
  split
  · rw [intOf, if_pos (List.head?_cons ..), List.tail_cons, digitsVal_decimal]
    omega
  · have hm : (decimal i.natAbs).head? ≠ some minus := by
      simpa using (intText_decimal i.natAbs).head_ne_minus (r := [])
    rw [intOf, if_neg hm, digitsVal_decimal]
    omega

/-! ## Values -/

/-- The same string, boolean or null, or integers of the same value. -/
def SameValue (a b : DictValue) : Prop := a = b ∨ ∃ n, a.toInt = some n ∧ b.toInt = some n

/-- Strings, booleans, nulls and the six native integer types. -/
def DictValue.Plain : DictValue → Prop
  | .null => True
  | .str (some s) => 0 ∉ s
  | .bool _ => True
  | .int _ => True
  | .uint _ => True
  | .long _ => True
  | .ulong _ => True
  | .llong _ => True
  | .ullong _ => True
  | _ => False

/-- The integers some native type holds. -/
theorem intValue_eq_none_iff (n : ℤ) : intValue n = none ↔ n < -2 ^ 63 ∨ 2 ^ 64 - 1 < n := by
  rw [intValue]
  split_ifs <;> simp <;> omega

/-- An integer is stored exactly. -/
theorem toInt_intValue {n : ℤ} {v : DictValue} (h : intValue n = some v) : v.toInt = some n := by
  rw [intValue] at h
  split_ifs at h with h1 h2 h3
  · obtain rfl := Option.some_inj.mp h
    rw [DictValue.toInt, Int32.toInt_ofInt_of_le (by omega) (by omega)]
  · obtain rfl := Option.some_inj.mp h
    rw [DictValue.toInt, Int64.toInt_ofInt_of_le (by omega) (by omega)]
  · obtain rfl := Option.some_inj.mp h
    rw [DictValue.toInt, UInt64.toNat_ofNat_of_lt' (by simp only [UInt64.size]; omega),
      Int.toNat_of_nonneg h3.1]

/-- A scalar together with its text and with the value it is stored as. -/
structure Leaf where
  scalar : Scalar
  text : CStr
  value : DictValue
  spells : ∀ r, Derives (.value scalar.toJson) (text ++ r) r
  decodes : ∀ strtod, scalar.value strtod = some value

namespace Leaf

def ofNull : Leaf := ⟨.null, lit "null", .null, fun _ ↦ .null, fun _ ↦ rfl⟩

def ofBool (b : Bool) : Leaf :=
  ⟨.bool b, if b then lit "true" else lit "false", .bool b,
    fun r ↦ by cases b; exacts [.false, .true], fun _ ↦ rfl⟩

def ofStr (s : CStr) (h : 0 ∉ s) : Leaf :=
  ⟨.str (escapeItems s), jsonEscape (some s), .str (some s), fun r ↦ .str (jsonEscape_spells s r),
    fun _ ↦ by rw [Scalar.value, decodeItems_escapeItems h]; rfl⟩

theorem isSome_intValue {n : ℤ} (h : -2 ^ 63 ≤ n ∧ n ≤ 2 ^ 64 - 1) : (intValue n).isSome := by
  rw [Option.isSome_iff_ne_none, Ne, intValue_eq_none_iff]
  omega

def ofInt (n : ℤ) (h : -2 ^ 63 ≤ n ∧ n ≤ 2 ^ 64 - 1) : Leaf :=
  ⟨.num (decimalInt n), decimalInt n, (intValue n).get (isSome_intValue h),
    fun _ ↦ .num (numberText_decimalInt n),
    fun _ ↦ by rw [Scalar.value, jsonNumberIsInteger_decimalInt, intOf_decimalInt]; simp⟩

theorem toInt_ofInt {n : ℤ} (h : -2 ^ 63 ≤ n ∧ n ≤ 2 ^ 64 - 1) :
    (ofInt n h).value.toInt = some n :=
  toInt_intValue (Option.some_get _).symm

end Leaf

/-- A plain value as a leaf; any other is `null`. -/
def DictValue.leaf : DictValue → Leaf
  | .bool b => .ofBool b
  | .str (some s) => if h : 0 ∉ s then .ofStr s h else .ofNull
  | .int i => .ofInt i.toInt (by have := i.le_toInt; have := i.toInt_lt; omega)
  | .uint ui => .ofInt ui.toNat (by have := ui.toNat_lt; omega)
  | .long l => .ofInt l.toInt (by have := l.le_toInt; have := l.toInt_lt; omega)
  | .ulong ul => .ofInt ul.toNat (by have := ul.toNat_lt; omega)
  | .llong ll => .ofInt ll.toInt (by have := ll.le_toInt; have := ll.toInt_lt; omega)
  | .ullong ull => .ofInt ull.toNat (by have := ull.toNat_lt; omega)
  | _ => .ofNull

/-- **The encoder writes the text of the leaf.** -/
theorem leaf_text (printf : Printf) {v : DictValue} (h : v.Plain) :
    v.leaf.text = jsonVal printf v := by
  match v, h with
  | .null, _ => rfl
  | .bool b, _ => rfl
  | .str (some s), h => rw [DictValue.leaf, dif_pos (show 0 ∉ s from h)]; rfl
  | .int i, _ => rfl
  | .uint ui, _ => rw [jsonVal, decimal_eq_decimalInt]; rfl
  | .long l, _ => rfl
  | .ulong ul, _ => rw [jsonVal, decimal_eq_decimalInt]; rfl
  | .llong ll, _ => rfl
  | .ullong ull, _ => rw [jsonVal, decimal_eq_decimalInt]; rfl

/-- **Reading the text of a leaf back gives the same value.** -/
theorem leaf_same {v : DictValue} (h : v.Plain) : SameValue v v.leaf.value := by
  match v, h with
  | .null, _ => exact .inl rfl
  | .bool b, _ => exact .inl rfl
  | .str (some s), h => rw [DictValue.leaf, dif_pos (show 0 ∉ s from h)]; exact .inl rfl
  | .int i, _ => exact .inr ⟨_, rfl, by rw [DictValue.leaf, Leaf.toInt_ofInt]⟩
  | .uint ui, _ => exact .inr ⟨_, rfl, by rw [DictValue.leaf, Leaf.toInt_ofInt]⟩
  | .long l, _ => exact .inr ⟨_, rfl, by rw [DictValue.leaf, Leaf.toInt_ofInt]⟩
  | .ulong ul, _ => exact .inr ⟨_, rfl, by rw [DictValue.leaf, Leaf.toInt_ofInt]⟩
  | .llong ll, _ => exact .inr ⟨_, rfl, by rw [DictValue.leaf, Leaf.toInt_ofInt]⟩
  | .ullong ull, _ => exact .inr ⟨_, rfl, by rw [DictValue.leaf, Leaf.toInt_ofInt]⟩

end Rustyaxe
