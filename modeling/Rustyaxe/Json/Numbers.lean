import Rustyaxe.Json.Grammar
import Mathlib.Data.List.Basic

/-!
# Reading numbers and other primitives

`scanNumber_iff`: the scan accepts the numbers of the grammar.  `integerValue_eq`: the detour
through `strtoll` and `strtoull` stores an integer in the first native type that holds it, and
refuses it if none does.  `primitiveValue_iff` gathers what a primitive token is stored as.
-/

set_option autoImplicit false

namespace Rustyaxe

/-! ## Runs of digits -/

/-- The text does not go on with a digit. -/
def NoDigit (r : CStr) : Prop := ∀ c, r.head? = some c → isdigit c = false

theorem noDigit_nil : NoDigit [] := by simp [NoDigit]

theorem ExpText.noDigit {t : CStr} (h : ExpText t) : NoDigit t := by
  rcases h with rfl | ⟨e, sign, ds, rfl, he, -, -⟩
  · exact noDigit_nil
  · intro c hc
    obtain rfl : e = c := by simpa using hc
    rcases he with rfl | rfl <;> rfl

theorem FracText.noDigit {f e : CStr} (hf : FracText f) (he : ExpText e) : NoDigit (f ++ e) := by
  rcases hf with rfl | ⟨ds, rfl, -⟩
  · exact he.noDigit
  · intro c hc
    obtain rfl : dot = c := by simpa using hc
    rfl

/-! ## The parts of a number -/

theorem scanDigits_append {ds r : CStr} (hds : DigitsText ds) (hr : NoDigit r) :
    scanDigits (ds ++ r) = some r := by
  obtain ⟨hne, hall⟩ := hds
  obtain ⟨c, ds, rfl⟩ := List.exists_cons_of_ne_nil hne
  rw [scanDigits, dropWhile_append_of_all hall hr, if_pos]
  simpa using hall c (by simp)

theorem scanDigits_eq_some {t r : CStr} (h : scanDigits t = some r) :
    ∃ ds, DigitsText ds ∧ t = ds ++ r := by
  rw [scanDigits] at h
  split at h
  · rename_i hd
    obtain rfl := Option.some_inj.mp h
    refine ⟨t.takeWhile isdigit, ⟨?_, fun c hc ↦ List.mem_takeWhile_imp hc⟩,
      (List.takeWhile_append_dropWhile ..).symm⟩
    cases t with
    | nil => simp at hd
    | cons c t => rw [List.takeWhile_cons_of_pos (by simpa using hd)]; simp
  · simp at h

theorem scanInt_append {t r : CStr} (h : IntText t) (hr : NoDigit r) :
    scanInt (t ++ r) = some r := by
  rcases h with rfl | ⟨c, ds, rfl, h1, h2, hds⟩
  · rw [List.cons_append, scanInt, if_pos rfl, List.nil_append]
  · rw [List.cons_append, scanInt, if_neg, if_pos ⟨h1, h2⟩, dropWhile_append_of_all hds hr]
    rintro rfl
    exact absurd h1 (by decide)

theorem scanInt_eq_some {t r : CStr} (h : scanInt t = some r) : ∃ int, IntText int ∧ t = int ++ r := by
  cases t with
  | nil => simp [scanInt] at h
  | cons c t =>
    rw [scanInt] at h
    split at h
    · rename_i hc
      obtain rfl := Option.some_inj.mp h
      exact ⟨[0x30], .inl rfl, by rw [hc]; rfl⟩
    · split at h
      · rename_i hc
        obtain rfl := Option.some_inj.mp h
        refine ⟨c :: t.takeWhile isdigit,
          .inr ⟨c, _, rfl, hc.1, hc.2, fun x hx ↦ List.mem_takeWhile_imp hx⟩, ?_⟩
        rw [List.cons_append, List.takeWhile_append_dropWhile]
      · simp at h

theorem scanFrac_append {f e : CStr} (hf : FracText f) (he : ExpText e) :
    scanFrac (f ++ e) = some e := by
  rcases hf with rfl | ⟨ds, rfl, hds⟩
  · rw [scanFrac, if_neg, List.nil_append]
    intro hdot
    rcases he with rfl | ⟨x, sign, ds, rfl, hx, -, -⟩
    · simp at hdot
    · obtain rfl : x = dot := by simpa using hdot
      exact absurd hx (by decide)
  · rw [scanFrac, List.cons_append, if_pos (List.head?_cons ..)]
    exact scanDigits_append hds he.noDigit

theorem scanFrac_eq_some {t r : CStr} (h : scanFrac t = some r) : ∃ f, FracText f ∧ t = f ++ r := by
  rw [scanFrac] at h
  split at h
  · rename_i hdot
    obtain ⟨ds, hds, ht⟩ := scanDigits_eq_some h
    refine ⟨dot :: ds, .inr ⟨ds, rfl, hds⟩, ?_⟩
    rw [← List.cons_head?_tail hdot, ht]
    rfl
  · obtain rfl := Option.some_inj.mp h
    exact ⟨[], .inl rfl, rfl⟩

theorem scanExp_of_expText {e : CStr} (h : ExpText e) : scanExp e = some [] := by
  rcases h with rfl | ⟨x, sign, ds, rfl, hx, hsign, hds⟩
  · rfl
  · have hdigits := scanDigits_append hds noDigit_nil
    rw [List.append_nil] at hdigits
    obtain ⟨c, ds', rfl⟩ := List.exists_cons_of_ne_nil hds.1
    have hc := hds.2 c (by simp)
    have hns : ¬ (c = 0x2b ∨ c = minus) := by
      rintro (rfl | rfl) <;> exact absurd hc (by decide)
    rw [scanExp, if_pos (by simpa using hx)]
    rcases hsign with rfl | rfl | rfl
    · simpa [hns] using hdigits
    · simpa using hdigits
    · simpa using hdigits

theorem scanExp_eq_nil {t : CStr} (h : scanExp t = some []) : ExpText t := by
  rw [scanExp] at h
  split at h
  · rename_i hx
    obtain ⟨x, t, rfl⟩ : ∃ x s, t = x :: s := by
      cases t with
      | nil => simp at hx
      | cons x t => exact ⟨x, t, rfl⟩
    rw [List.head?_cons, Option.some_inj, Option.some_inj] at hx
    rw [List.tail_cons] at h
    by_cases hsign : t.head? = some 0x2b ∨ t.head? = some minus
    · rw [if_pos hsign] at h
      obtain ⟨ds, hds, ht⟩ := scanDigits_eq_some h
      rw [List.append_nil] at ht
      rcases hsign with hs | hs
      · refine .inr ⟨x, [0x2b], ds, ?_, hx, .inr (.inl rfl), hds⟩
        rw [← List.cons_head?_tail hs, ht]
        rfl
      · refine .inr ⟨x, [minus], ds, ?_, hx, .inr (.inr rfl), hds⟩
        rw [← List.cons_head?_tail hs, ht]
        rfl
    · rw [if_neg hsign] at h
      obtain ⟨ds, hds, ht⟩ := scanDigits_eq_some h
      rw [List.append_nil] at ht
      exact .inr ⟨x, [], ds, by rw [ht]; rfl, hx, .inl rfl, hds⟩
  · obtain rfl := Option.some_inj.mp h
    exact .inl rfl

theorem IntText.head_ne_minus {t r : CStr} (h : IntText t) : (t ++ r).head? ≠ some minus := by
  rcases h with rfl | ⟨c, ds, rfl, h1, h2, -⟩
  · simp [minus]
  · intro hc
    obtain rfl : c = minus := by simpa using hc
    exact absurd h1 (by decide)

/-- **The scan accepts the numbers of the grammar.** -/
theorem scanNumber_iff (t : CStr) : scanNumber t = true ↔ NumberText t := by
  rw [scanNumber, beq_iff_eq]
  constructor
  · intro h
    obtain ⟨t₂, h₂, h⟩ := Option.bind_eq_some_iff.mp h
    obtain ⟨t₁, h₁, h₂⟩ := Option.bind_eq_some_iff.mp h₂
    obtain ⟨int, hint, hi⟩ := scanInt_eq_some h₁
    obtain ⟨f, hf, rfl⟩ := scanFrac_eq_some h₂
    have he := scanExp_eq_nil h
    split at hi
    · rename_i hm
      refine ⟨[minus], int, f, t₂, ?_, .inr rfl, hint, hf, he⟩
      rw [← hi]
      exact (List.cons_head?_tail hm).symm
    · exact ⟨[], int, f, t₂, hi, .inl rfl, hint, hf, he⟩
  · rintro ⟨sign, int, f, e, rfl, hsign, hint, hf, he⟩
    have hscan : ((scanInt (int ++ (f ++ e))).bind scanFrac).bind scanExp = some [] := by
      rw [scanInt_append hint (hf.noDigit he), Option.bind_some, scanFrac_append hf he,
        Option.bind_some, scanExp_of_expText he]
    rcases hsign with rfl | rfl
    · rw [List.nil_append, if_neg hint.head_ne_minus, hscan]
    · rw [List.cons_append, if_pos (List.head?_cons ..)]
      exact hscan

/-! ## The bytes of a number -/

/-- The bytes numbers are made of. -/
def NumberByte (c : UInt8) : Prop :=
  isdigit c = true ∨ c = minus ∨ c = 0x2b ∨ c = dot ∨ c = 0x65 ∨ c = 0x45

theorem isdigit_iff (c : UInt8) : isdigit c = true ↔ 0x30 ≤ c ∧ c ≤ 0x39 := by
  simp [isdigit]

theorem NumberByte.bounds {c : UInt8} (h : NumberByte c) :
    c = 0x2b ∨ c = 0x2d ∨ c = 0x2e ∨ c = 0x45 ∨ c = 0x65 ∨ 0x30 ≤ c ∧ c ≤ 0x39 := by
  rcases h with h | h | h | h | h | h
  · exact .inr (.inr (.inr (.inr (.inr ((isdigit_iff c).mp h)))))
  · exact .inr (.inl h)
  · exact .inl h
  · exact .inr (.inr (.inl h))
  · exact .inr (.inr (.inr (.inr (.inl h))))
  · exact .inr (.inr (.inr (.inl h)))

theorem NumberByte.not_isDelimiter {c : UInt8} (h : NumberByte c) : isDelimiter c = false := by
  rcases h.bounds with rfl | rfl | rfl | rfl | rfl | ⟨h1, h2⟩
  any_goals rfl
  rw [Bool.eq_false_iff]
  intro hd
  simp only [isDelimiter, isJsonWs, comma, rbracket, rbrace, Bool.or_eq_true, beq_iff_eq] at hd
  rcases hd with ((rfl | rfl) | rfl) | ((rfl | rfl) | rfl) | rfl
  all_goals first | exact absurd h1 (by decide) | exact absurd h2 (by decide)

theorem NumberByte.ne_open {c : UInt8} (h : NumberByte c) :
    c ≠ quote ∧ c ≠ lbrace ∧ c ≠ lbracket := by
  have hb := h.bounds
  simp only [quote, lbrace, lbracket]
  grind

theorem IntText.bytes {t : CStr} (h : IntText t) : ∀ c ∈ t, isdigit c = true := by
  rcases h with rfl | ⟨c, ds, rfl, h1, h2, hds⟩
  · decide +kernel
  · intro x hx
    rcases List.mem_cons.mp hx with rfl | hx
    · exact (isdigit_iff x).mpr ⟨UInt8.le_trans (by decide : (0x30 : UInt8) ≤ 0x31) h1, h2⟩
    · exact hds x hx

theorem IntText.ne_nil {t : CStr} (h : IntText t) : t ≠ [] := by
  rcases h with rfl | ⟨c, ds, rfl, -⟩ <;> simp

theorem NumberText.bytes {t : CStr} (h : NumberText t) : ∀ c ∈ t, NumberByte c := by
  obtain ⟨sign, int, f, e, rfl, hsign, hint, hf, he⟩ := h
  intro c hc
  simp only [List.mem_append] at hc
  rcases hc with hc | hc | hc | hc
  · rcases hsign with rfl | rfl
    · simp at hc
    · exact .inr (.inl (List.mem_singleton.mp hc))
  · exact .inl (hint.bytes c hc)
  · rcases hf with rfl | ⟨ds, rfl, -, hds⟩
    · simp at hc
    · rcases List.mem_cons.mp hc with rfl | hc
      · exact .inr (.inr (.inr (.inl rfl)))
      · exact .inl (hds c hc)
  · rcases he with rfl | ⟨x, s, ds, rfl, hx, hs, -, hds⟩
    · simp at hc
    · simp only [List.mem_cons, List.mem_append] at hc
      rcases hc with (rfl | hc) | hc
      · exact .inr (.inr (.inr (.inr hx)))
      · rcases hs with rfl | rfl | rfl
        · simp at hc
        · exact .inr (.inr (.inl (List.mem_singleton.mp hc)))
        · exact .inr (.inl (List.mem_singleton.mp hc))
      · exact .inl (hds c hc)

theorem NumberText.ne_nil {t : CStr} (h : NumberText t) : t ≠ [] := by
  obtain ⟨sign, int, f, e, rfl, -, hint, -, -⟩ := h
  simp [hint.ne_nil]

/-- A number is not one of the literals. -/
theorem NumberText.ne_lit {t : CStr} (h : NumberText t) :
    t ≠ lit "null" ∧ t ≠ lit "true" ∧ t ≠ lit "false" := by
  obtain ⟨c, t, rfl⟩ := List.exists_cons_of_ne_nil h.ne_nil
  have hb := (h.bytes c (by simp)).bounds
  refine ⟨fun he ↦ ?_, fun he ↦ ?_, fun he ↦ ?_⟩
  · obtain rfl : c = 0x6e := (List.cons.inj he).1
    exact absurd hb (by decide)
  · obtain rfl : c = 0x74 := (List.cons.inj he).1
    exact absurd hb (by decide)
  · obtain rfl : c = 0x66 := (List.cons.inj he).1
    exact absurd hb (by decide)

/-! ## Integers -/

/-- An integer number is a sign and digits. -/
theorem NumberText.integer {t : CStr} (h : NumberText t) (hi : jsonNumberIsInteger t = true) :
    ∃ int, IntText int ∧ (t = int ∨ t = minus :: int) := by
  obtain ⟨sign, int, f, e, rfl, hsign, hint, hf, he⟩ := h
  have hnone : ∀ c ∈ sign ++ (int ++ (f ++ e)), c ≠ dot ∧ c ≠ 0x65 ∧ c ≠ 0x45 := by
    simpa only [jsonNumberIsInteger, Bool.not_eq_true', List.any_eq_false, Bool.or_eq_true,
      beq_iff_eq, not_or, and_assoc] using hi
  obtain rfl : f = [] := by
    rcases hf with rfl | ⟨ds, rfl, -⟩
    · rfl
    · exact absurd rfl (hnone dot (by simp)).1
  obtain rfl : e = [] := by
    rcases he with rfl | ⟨x, s, ds, rfl, hx, -⟩
    · rfl
    · have := hnone x (by simp)
      exact absurd hx (by simp [this.2])
  refine ⟨int, hint, ?_⟩
  rcases hsign with rfl | rfl
  · exact .inl (by simp)
  · exact .inr (by simp)

theorem strtoScan_int {int : CStr} (h : IntText int) : strtoScan int = (false, int, []) := by
  obtain ⟨c, ds, rfl⟩ := List.exists_cons_of_ne_nil h.ne_nil
  have hc := (isdigit_iff c).mp (h.bytes c (by simp))
  have hsp : isspace c = false := by
    rw [Bool.eq_false_iff]
    simp only [isspace]
    grind
  have hsign : ¬ (c = minus ∨ c = 0x2b) := by
    simp only [minus]
    grind
  have ht : (c :: ds).takeWhile isdigit = c :: ds := by
    simpa using takeWhile_append_of_all h.bytes noDigit_nil
  have hd : (c :: ds).dropWhile isdigit = [] := by
    simpa using dropWhile_append_of_all h.bytes noDigit_nil
  rw [not_or] at hsign
  simp [strtoScan, List.dropWhile_cons_of_neg, hsp, hsign.1, hsign.2, ht, hd]

theorem strtoScan_minus {int : CStr} (h : IntText int) :
    strtoScan (minus :: int) = (true, int, []) := by
  have ht : int.takeWhile isdigit = int := by
    simpa using takeWhile_append_of_all h.bytes noDigit_nil
  have hd : int.dropWhile isdigit = [] := by
    simpa using dropWhile_append_of_all h.bytes noDigit_nil
  have hsp : isspace minus = false := rfl
  simp [strtoScan, List.dropWhile_cons_of_neg, hsp, ht, hd]

theorem strtoll_int {int : CStr} (h : IntText int) :
    strtoll int = if (digitsVal int : ℤ) > 2 ^ 63 - 1 then (2 ^ 63 - 1, [], true)
      else ((digitsVal int : ℤ), [], false) := by
  rw [strtoll, strtoScan_int h]
  simp only [if_neg h.ne_nil, Bool.false_eq_true, if_false]
  rw [if_neg (by omega)]

theorem strtoll_minus {int : CStr} (h : IntText int) :
    strtoll (minus :: int) = if -(digitsVal int : ℤ) < -2 ^ 63 then (-2 ^ 63, [], true)
      else (-(digitsVal int : ℤ), [], false) := by
  rw [strtoll, strtoScan_minus h]
  simp only [if_neg h.ne_nil, if_true]
  rw [if_neg (c := -(digitsVal int : ℤ) > 2 ^ 63 - 1) (by omega)]

theorem strtoull_int {int : CStr} (h : IntText int) :
    strtoull int = if digitsVal int > 2 ^ 64 - 1 then (2 ^ 64 - 1, [], true)
      else (digitsVal int, [], false) := by
  rw [strtoull, strtoScan_int h]
  simp only [if_neg h.ne_nil, Bool.false_eq_true, if_false]

/-- **An integer is stored in the first native type that holds it.** -/
theorem integerValue_eq {t : CStr} (h : NumberText t) (hi : jsonNumberIsInteger t = true) :
    integerValue t = intValue (intOf t) := by
  obtain ⟨int, hint, rfl | rfl⟩ := h.integer hi
  · have hhead : t.head? ≠ some minus := by simpa using hint.head_ne_minus (r := [])
    rw [integerValue, intValue, intOf, if_neg hhead, strtoll_int hint, strtoull_int hint]
    by_cases hll : (digitsVal t : ℤ) > 2 ^ 63 - 1
    · simp only [if_pos hll, Bool.true_eq_false, false_and, if_false, hhead, ne_eq,
        not_false_eq_true, if_true]
      rw [if_neg (c := -2 ^ 31 ≤ (digitsVal t : ℤ) ∧ _) (by omega),
        if_neg (c := -2 ^ 63 ≤ (digitsVal t : ℤ) ∧ _) (by omega)]
      by_cases hull : digitsVal t > 2 ^ 64 - 1
      · simp only [if_pos hull, true_or, if_true]
        rw [if_neg (by omega)]
      · simp only [if_neg hull, Bool.false_eq_true, hint.ne_nil.symm, not_true_eq_false,
          or_false, if_false, Int.toNat_natCast]
        rw [if_neg (by omega), if_pos (by omega), if_pos (by omega)]
    · simp only [if_neg hll, hint.ne_nil.symm, ne_eq, not_false_eq_true, and_true, if_true]
      split_ifs <;> first | rfl | omega
  · rw [integerValue, intValue, intOf, if_pos (List.head?_cons ..), List.tail_cons,
      strtoll_minus hint]
    by_cases hll : -(digitsVal int : ℤ) < -2 ^ 63
    · simp only [if_pos hll, Bool.true_eq_false, false_and, if_false, List.head?_cons, ne_eq,
        not_true_eq_false]
      rw [if_neg (by omega), if_neg (by omega), if_neg (by omega)]
    · simp only [if_neg hll, List.nil_eq, reduceCtorEq, ne_eq, not_false_eq_true, and_true,
        if_true]
      split_ifs <;> first | rfl | omega

/-! ## Primitive tokens -/

/-- `t` is how the scalar is written, if it is not a string. -/
def Scalar.Token : Scalar → CStr → Prop
  | .null, t => t = lit "null"
  | .bool true, t => t = lit "true"
  | .bool false, t => t = lit "false"
  | .num n, t => t = n ∧ NumberText n
  | .str _, _ => False

/-- The text ends, or goes on with a byte that ends a primitive. -/
def Follow (r : CStr) : Prop := ∀ c, r.head? = some c → isDelimiter c = true

theorem follow_nil : Follow [] := by simp [Follow]

theorem follow_cons {c : UInt8} {r : CStr} (h : isDelimiter c = true) : Follow (c :: r) := by
  intro x hx
  obtain rfl : c = x := by simpa using hx
  exact h

theorem Scalar.Token.ne_nil {c : Scalar} {t : CStr} (h : c.Token t) : t ≠ [] := by
  match c, h with
  | .null, h => rw [show t = lit "null" from h]; decide +kernel
  | .bool true, h => rw [show t = lit "true" from h]; decide +kernel
  | .bool false, h => rw [show t = lit "false" from h]; decide +kernel
  | .num n, h => rw [h.1]; exact h.2.ne_nil

/-- No byte of a primitive ends it, and none opens a string, an array or an object. -/
theorem Scalar.Token.bytes {c : Scalar} {t : CStr} (h : c.Token t) :
    ∀ x ∈ t, isDelimiter x = false ∧ x ≠ quote ∧ x ≠ lbrace ∧ x ≠ lbracket := by
  match c, h with
  | .null, h => rw [show t = lit "null" from h]; decide +kernel
  | .bool true, h => rw [show t = lit "true" from h]; decide +kernel
  | .bool false, h => rw [show t = lit "false" from h]; decide +kernel
  | .num n, h =>
    intro x hx
    have hb := h.2.bytes x (h.1 ▸ hx)
    exact ⟨hb.not_isDelimiter, hb.ne_open⟩

theorem jsonParsePrimitive_append {t r : CStr} (hne : t ≠ []) (ht : ∀ x ∈ t, isDelimiter x = false)
    (hr : Follow r) : jsonParsePrimitive (t ++ r) = some (t, r) := by
  have ht' : ∀ x ∈ t, (!isDelimiter x) = true := fun x hx ↦ by rw [ht x hx]; rfl
  have hr' : ∀ x, r.head? = some x → (!isDelimiter x) = false := fun x hx ↦ by rw [hr x hx]; rfl
  rw [jsonParsePrimitive, takeWhile_append_of_all ht' hr', dropWhile_append_of_all ht' hr', if_neg hne]

theorem jsonParsePrimitive_eq_some {s t r : CStr} (h : jsonParsePrimitive s = some (t, r)) :
    s = t ++ r ∧ t ≠ [] ∧ Follow r := by
  rw [jsonParsePrimitive] at h
  split at h
  · simp at h
  · rename_i hne
    obtain ⟨rfl, rfl⟩ := Prod.mk.inj (Option.some_inj.mp h)
    refine ⟨List.takeWhile_append_dropWhile.symm, hne, fun c hc ↦ ?_⟩
    have hnot := List.head?_dropWhile_not (fun c ↦ !isDelimiter c) s
    rw [hc] at hnot
    simpa using hnot

section Values

variable (strtod : CStr → UInt64 × CStr × Bool)

theorem primitiveValue_num {t : CStr} (h : NumberText t) :
    primitiveValue strtod t = (Scalar.num t).value strtod := by
  obtain ⟨hn, ht, hf⟩ := h.ne_lit
  rw [primitiveValue, if_neg hn, if_neg ht, if_neg hf, (scanNumber_iff _).mpr h,
    if_neg (by decide), Scalar.value]
  split
  · rename_i hi
    exact integerValue_eq h hi
  · rfl

theorem primitiveValue_token {c : Scalar} {t : CStr} (h : c.Token t) :
    primitiveValue strtod t = c.value strtod := by
  match c, h with
  | .null, h => rw [show t = lit "null" from h]; rfl
  | .bool true, h => rw [show t = lit "true" from h]; rfl
  | .bool false, h => rw [show t = lit "false" from h]; rfl
  | .num n, h => rw [h.1, primitiveValue_num strtod h.2]

/-- **What is stored for a primitive is the value of the scalar it spells.** -/
theorem primitiveValue_eq_some {t : CStr} {v : DictValue} (h : primitiveValue strtod t = some v) :
    ∃ c : Scalar, c.Token t ∧ c.value strtod = some v := by
  by_cases hn : t = lit "null"
  · exact ⟨.null, hn, (primitiveValue_token strtod (c := .null) hn).symm.trans h⟩
  by_cases ht : t = lit "true"
  · exact ⟨.bool true, ht, (primitiveValue_token strtod (c := .bool true) ht).symm.trans h⟩
  by_cases hf : t = lit "false"
  · exact ⟨.bool false, hf, (primitiveValue_token strtod (c := .bool false) hf).symm.trans h⟩
  have hs : NumberText t := by
    rw [primitiveValue, if_neg hn, if_neg ht, if_neg hf] at h
    split at h
    · simp at h
    · rename_i hs
      exact (scanNumber_iff t).mp (by simpa using hs)
  exact ⟨.num t, ⟨rfl, hs⟩, (primitiveValue_num strtod hs).symm.trans h⟩

end Values

end Rustyaxe
