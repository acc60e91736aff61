import Mathlib.Algebra.Order.Floor.Ring
import Mathlib.Data.Rat.Floor
import Rustyaxe.Dict.Refinement
import Rustyaxe.Strtol

/-!
# The integer accessors

`dict_get_int` and its five siblings of `dict.c` return a native integer, a truth value, a
floating-point number or a string as an integer of their own type, or the caller's default.

The six differ in their range, in the strings they accept and in whether they read characters;
`IntAccess` collects these.  What they do with an integer or a string is right (`ExactOrDefault`)
but for two slips of the string parsers: `strtoull` wraps negative numbers around, and a text of
blanks only is taken for a zero (`exactOrDefault_iff`).
-/

set_option autoImplicit false

namespace Rustyaxe

/-! ## Floating-point numbers -/

/-- The number a sign, a significand and a power of two stand for. -/
def scaled (neg : Bool) (m : ℕ) (e : ℤ) : ℚ := (if neg then -(m : ℚ) else m) * 2 ^ e

/-- The value of a `float`, from its bits, unless it is infinite or not a number. -/
def floatVal (f : UInt32) : Option ℚ :=
  let neg : Bool := f.toNat / 2 ^ 31 = 1
  let e : ℕ := f.toNat / 2 ^ 23 % 2 ^ 8
  let m := f.toNat % 2 ^ 23
  if e = 255 then none
  else if e = 0 then some (scaled neg m (-149))
  else some (scaled neg (2 ^ 23 + m) (e - 150))

/-- The value of a `double`, from its bits, unless it is infinite or not a number. -/
def doubleVal (d : UInt64) : Option ℚ :=
  let neg : Bool := d.toNat / 2 ^ 63 = 1
  let e : ℕ := d.toNat / 2 ^ 52 % 2 ^ 11
  let m := d.toNat % 2 ^ 52
  if e = 2047 then none
  else if e = 0 then some (scaled neg m (-1074))
  else some (scaled neg (2 ^ 52 + m) (e - 1075))

/-- The conversion of a floating-point number to an integer type: towards zero. -/
def truncate (dv : ℚ) : ℤ := if dv < 0 then ⌈dv⌉ else ⌊dv⌋

/-! ## Strings -/

/-- `parse_ll`.  The test `ep == s` comes after the blanks have been skipped. -/
def parseLl (s : CStr) : Option ℤ :=
  let (v, ep, erange) := strtoll s
  let ep := ep.dropWhile isspace
  if erange ∨ ep = s ∨ ep ≠ [] then none else some v

/-- `parse_ull` -/
def parseUll (s : CStr) : Option ℤ :=
  let (v, ep, erange) := strtoull s
  let ep := ep.dropWhile isspace
  if erange ∨ ep = s ∨ ep ≠ [] then none else some v

/-- A parser, for results that pass a range test. -/
def parseIn (lo hi : ℤ) (parse : CStr → Option ℤ) (s : CStr) : Option ℤ :=
  (parse s).filter fun v ↦ lo ≤ v ∧ v ≤ hi

/-! ## The accessors -/

/-- What one accessor makes of a value. -/
structure IntAccess where
  /-- The range of the result. -/
  lo : ℤ
  hi : ℤ
  /-- The range test for floating-point numbers. -/
  fits : ℚ → Bool
  /-- The result for a character, if characters are read at all. -/
  char : Option (UInt8 → ℤ)
  /-- The result for a string. -/
  parse : CStr → Option ℤ

/-- The `switch` of an accessor: `none` stands for the default. -/
def IntAccess.read (a : IntAccess) : DictValue → Option ℤ
  | .int i => (some i.toInt).filter fun n ↦ a.lo ≤ n ∧ n ≤ a.hi
  | .uint ui => (some (ui.toNat : ℤ)).filter fun n ↦ a.lo ≤ n ∧ n ≤ a.hi
  | .long l => (some l.toInt).filter fun n ↦ a.lo ≤ n ∧ n ≤ a.hi
  | .ulong ul => (some (ul.toNat : ℤ)).filter fun n ↦ a.lo ≤ n ∧ n ≤ a.hi
  | .llong ll => (some ll.toInt).filter fun n ↦ a.lo ≤ n ∧ n ≤ a.hi
  | .ullong ull => (some (ull.toNat : ℤ)).filter fun n ↦ a.lo ≤ n ∧ n ≤ a.hi
  | .float f => ((floatVal f).filter fun dv ↦ a.fits dv).map truncate
  | .double d => ((doubleVal d).filter fun dv ↦ a.fits dv).map truncate
  | .char c => a.char.map fun f ↦ f c
  | .bool b => some (if b then 1 else 0)
  | .str (some s) => a.parse s
  | _ => none

/-- A `char` is signed. -/
def signedChar (c : UInt8) : ℤ := c.toInt8.toInt

/-- A `char` that is converted to `unsigned char` first. -/
def unsignedChar (c : UInt8) : ℤ := c.toNat

def intAccess : IntAccess where
  lo := -2 ^ 31
  hi := 2 ^ 31 - 1
  fits dv := -2 ^ 31 ≤ dv ∧ dv ≤ 2 ^ 31 - 1
  char := some signedChar
  parse s := parseIn (-2 ^ 31) (2 ^ 31 - 1) parseLl s <|> parseIn 0 (2 ^ 31 - 1) parseUll s

def uintAccess : IntAccess where
  lo := 0
  hi := 2 ^ 32 - 1
  fits dv := 0 ≤ dv ∧ dv ≤ 2 ^ 32 - 1
  char := some unsignedChar
  parse s := parseIn 0 (2 ^ 32 - 1) parseUll s <|> parseIn 0 (2 ^ 32 - 1) parseLl s

def longAccess : IntAccess where
  lo := -2 ^ 63
  hi := 2 ^ 63 - 1
  fits dv := -2 ^ 63 ≤ dv ∧ dv < 2 ^ 63
  char := none
  parse s := parseIn (-2 ^ 63) (2 ^ 63 - 1) parseLl s

def ulongAccess : IntAccess where
  lo := 0
  hi := 2 ^ 64 - 1
  fits dv := 0 ≤ dv ∧ dv < 2 ^ 64
  char := none
  parse s := parseIn 0 (2 ^ 64 - 1) parseUll s <|> parseIn 0 (2 ^ 64 - 1) parseLl s

def llongAccess : IntAccess where
  lo := -2 ^ 63
  hi := 2 ^ 63 - 1
  fits dv := -2 ^ 63 ≤ dv ∧ dv < 2 ^ 63
  char := none
  parse s := parseLl s <|> parseIn 0 (2 ^ 63 - 1) parseUll s

def ullongAccess : IntAccess where
  lo := 0
  hi := 2 ^ 64 - 1
  fits dv := 0 ≤ dv ∧ dv < 2 ^ 64
  char := some unsignedChar
  parse s := parseUll s

section Hash

variable (dictHash : CStr → UInt32)

/-- An accessor: the entry is looked up, read and converted to the type of the result. -/
def getInteger {α : Type} (a : IntAccess) (ofInt : ℤ → α) (d : Dict) (key : CStr) (dflt : α) :
    Option α := do
  match ← dictGetKp dictHash d key with
  | none => some dflt
  | some kp => some (((a.read kp.value).map ofInt).getD dflt)

/-- `dict_get_int` -/
def dictGetInt := getInteger dictHash intAccess Int32.ofInt

/-- `dict_get_uint` -/
def dictGetUint := getInteger dictHash uintAccess UInt32.ofInt

/-- `dict_get_long` -/
def dictGetLong := getInteger dictHash longAccess Int64.ofInt

/-- `dict_get_ulong` -/
def dictGetUlong := getInteger dictHash ulongAccess UInt64.ofInt

/-- `dict_get_llong` -/
def dictGetLlong := getInteger dictHash llongAccess Int64.ofInt

/-- `dict_get_ullong` -/
def dictGetUllong := getInteger dictHash ullongAccess UInt64.ofInt

/-- `parse_bool_string` -/
def parseBoolString (s : CStr) : Option Bool :=
  if strcaseeq s (lit "true") || strcaseeq s (lit "yes") || strcaseeq s (lit "on") || s == lit "1" then
    some true
  else if strcaseeq s (lit "false") || strcaseeq s (lit "no") || strcaseeq s (lit "off") ||
      s == lit "0" then
    some false
  else none

/-- The `switch` of `dict_get_bool`: `none` stands for the default. -/
def boolRead : DictValue → Option Bool
  | .bool b => some b
  | .int i => some (i != 0)
  | .uint ui => some (ui != 0)
  | .long l => some (l != 0)
  | .ulong ul => some (ul != 0)
  | .llong ll => some (ll != 0)
  | .ullong ull => some (ull != 0)
  -- both zeros are zero, whatever the sign bit
  | .float f => some (f &&& 0x7fffffff != 0)
  | .double d => some (d &&& 0x7fffffffffffffff != 0)
  | .char c => some (c != 0)
  | .str (some s) => parseBoolString s
  | _ => none

/-- `dict_get_bool` -/
def dictGetBool (d : Dict) (key : CStr) (dflt : Bool) : Option Bool := do
  match ← dictGetKp dictHash d key with
  | none => some dflt
  | some kp => some ((boolRead kp.value).getD dflt)

end Hash

/-! ## The parsers -/

/-- A text of blanks, with no number among them. -/
def BlankOnly (s : CStr) : Prop := s ≠ [] ∧ ∀ c ∈ s, isspace c

theorem DenotesInt.ne_nil {s : CStr} {n : ℤ} (h : DenotesInt s n) : s ≠ [] := by
  obtain ⟨blanks, sign, ds, trail, rfl, -, -, hne, -⟩ := h
  simp [hne]

theorem DenotesInt.unique {s : CStr} {m n : ℤ} (hm : DenotesInt s m) (hn : DenotesInt s n) :
    m = n := by
  rw [denotesInt_iff] at hm hn
  rw [hm.2.2, hn.2.2]

/-- A text of blanks has no digits to denote a number with. -/
theorem BlankOnly.scan {s : CStr} (h : BlankOnly s) : strtoScan s = (false, [], []) := by
  have hdrop : s.dropWhile isspace = [] := List.dropWhile_eq_nil_iff.mpr h.2
  rw [strtoScan, hdrop]
  rfl

/-- How a parser ends: without digits `ep` is where the text starts, so only a text of blanks gets
past the test. -/
theorem parse_end {s : CStr} (hscan : (strtoScan s).2.1 = []) :
    (s.dropWhile isspace = s ∨ s.dropWhile isspace ≠ []) ↔ ¬ BlankOnly s := by
  rw [BlankOnly, not_and_or, not_not]
  constructor
  · rintro (h | h)
    · by_cases hs : s = []
      · exact .inl hs
      · refine .inr fun hall ↦ hs ?_
        rw [← h, List.dropWhile_eq_nil_iff]
        exact hall
    · exact .inr fun hall ↦ h (List.dropWhile_eq_nil_iff.mpr hall)
  · rintro (rfl | h)
    · exact .inl rfl
    · exact .inr fun hnil ↦ h (List.dropWhile_eq_nil_iff.mp hnil)

/-- **`parse_ll`**: the number, if it fits; and `0` for a text of blanks. -/
theorem parseLl_cases (s : CStr) :
    (BlankOnly s ∧ parseLl s = some 0) ∨
      (∃ n, DenotesInt s n ∧ parseLl s = if -2 ^ 63 ≤ n ∧ n ≤ 2 ^ 63 - 1 then some n else none) ∨
      (¬ BlankOnly s ∧ (∀ n, ¬ DenotesInt s n) ∧ parseLl s = none) := by
  by_cases hds : (strtoScan s).2.1 = []
  · have hno : ∀ n, ¬ DenotesInt s n := fun n h ↦ ((denotesInt_iff s n).mp h).1 hds
    rw [parseLl, strtoll_of_nil hds]
    dsimp only
    by_cases hb : BlankOnly s
    · refine .inl ⟨hb, if_neg ?_⟩
      have := (not_congr (parse_end hds)).mpr (not_not.mpr hb)
      simpa using this
    · refine .inr (.inr ⟨hb, hno, if_pos ?_⟩)
      exact .inr ((parse_end hds).mpr hb)
  · have hb : ¬ BlankOnly s := fun h ↦ hds (by rw [h.scan])
    have hll := strtoll_of_digits hds
    by_cases hend : (strtoScan s).2.2.dropWhile isspace = []
    · have hn := (denotesInt_iff s _).mpr ⟨hds, hend, rfl⟩
      refine .inr (.inl ⟨_, hn, ?_⟩)
      have hs := hn.ne_nil
      generalize signedVal (strtoScan s).1 (strtoScan s).2.1 = n at hll
      rw [parseLl, hll]
      by_cases h1 : n < -2 ^ 63
      · rw [if_pos h1, if_neg (by omega)]
        simp
      · by_cases h2 : n > 2 ^ 63 - 1
        · rw [if_neg h1, if_pos h2, if_neg (by omega)]
          simp
        · rw [if_neg h1, if_neg h2, if_pos (by omega)]
          simp [hend, hs.symm]
    · refine .inr (.inr ⟨hb, fun n h ↦ hend ((denotesInt_iff s n).mp h).2.1, ?_⟩)
      rw [parseLl, hll]
      split_ifs <;> simp [hend]

/-- **`parse_ull`**: the number, if it fits, or what it wraps around to; and `0` for a text of
blanks. -/
theorem parseUll_cases (s : CStr) :
    (BlankOnly s ∧ parseUll s = some 0) ∨
      (∃ n, DenotesInt s n ∧ parseUll s = if 0 ≤ n ∧ n ≤ 2 ^ 64 - 1 then some n
        else if -2 ^ 64 < n ∧ n < 0 then some (2 ^ 64 + n) else none) ∨
      (¬ BlankOnly s ∧ (∀ n, ¬ DenotesInt s n) ∧ parseUll s = none) := by
  by_cases hds : (strtoScan s).2.1 = []
  · have hno : ∀ n, ¬ DenotesInt s n := fun n h ↦ ((denotesInt_iff s n).mp h).1 hds
    rw [parseUll, strtoull_of_nil hds]
    dsimp only
    by_cases hb : BlankOnly s
    · refine .inl ⟨hb, if_neg ?_⟩
      have := (not_congr (parse_end hds)).mpr (not_not.mpr hb)
      simpa using this
    · refine .inr (.inr ⟨hb, hno, if_pos ?_⟩)
      exact .inr ((parse_end hds).mpr hb)
  · have hb : ¬ BlankOnly s := fun h ↦ hds (by rw [h.scan])
    by_cases hend : (strtoScan s).2.2.dropWhile isspace = []
    · have hn := (denotesInt_iff s _).mpr ⟨hds, hend, rfl⟩
      refine .inr (.inl ⟨_, hn, ?_⟩)
      have hs := hn.ne_nil
      rw [parseUll, strtoull_of_digits hds, signedVal]
      generalize digitsVal (strtoScan s).2.1 = m
      by_cases h1 : m > 2 ^ 64 - 1
      · rw [if_pos h1, if_neg (by split <;> omega), if_neg (by split <;> omega)]
        simp
      · rw [if_neg h1]
        simp only [hend, hs.symm, Bool.false_eq_true, ne_eq, not_true, or_self, if_false]
        cases (strtoScan s).1 with
        | false =>
          simp only [Bool.false_eq_true, if_false]
          rw [if_pos (by omega)]
        | true =>
          simp only [if_true]
          by_cases hm : m = 0
          · rw [if_pos (by omega), hm]
            rfl
          · rw [if_neg (by omega), if_pos (by omega), Nat.mod_eq_of_lt (by omega)]
            congr 1
            omega
    · refine .inr (.inr ⟨hb, fun n h ↦ hend ((denotesInt_iff s n).mp h).2.1, ?_⟩)
      rw [parseUll, strtoull_of_digits hds]
      split_ifs <;> simp [hend]

theorem BlankOnly.not_denotes {s : CStr} (h : BlankOnly s) (n : ℤ) : ¬ DenotesInt s n := fun hn ↦
  ((denotesInt_iff s n).mp hn).1 (by rw [h.scan])

theorem DenotesInt.parseLl {s : CStr} {n : ℤ} (h : DenotesInt s n) :
    parseLl s = if -2 ^ 63 ≤ n ∧ n ≤ 2 ^ 63 - 1 then some n else none := by
  rcases parseLl_cases s with ⟨hb, -⟩ | ⟨m, hm, heq⟩ | ⟨-, hno, -⟩
  · exact absurd h (hb.not_denotes n)
  · rw [h.unique hm, heq]
  · exact absurd h (hno n)

theorem DenotesInt.parseUll {s : CStr} {n : ℤ} (h : DenotesInt s n) :
    parseUll s = if 0 ≤ n ∧ n ≤ 2 ^ 64 - 1 then some n
      else if -2 ^ 64 < n ∧ n < 0 then some (2 ^ 64 + n) else none := by
  rcases parseUll_cases s with ⟨hb, -⟩ | ⟨m, hm, heq⟩ | ⟨-, hno, -⟩
  · exact absurd h (hb.not_denotes n)
  · rw [h.unique hm, heq]
  · exact absurd h (hno n)

theorem BlankOnly.parseLl {s : CStr} (h : BlankOnly s) : parseLl s = some 0 := by
  rcases parseLl_cases s with ⟨-, heq⟩ | ⟨m, hm, -⟩ | ⟨hb, -⟩
  · exact heq
  · exact absurd hm (h.not_denotes m)
  · exact absurd h hb

theorem BlankOnly.parseUll {s : CStr} (h : BlankOnly s) : parseUll s = some 0 := by
  rcases parseUll_cases s with ⟨-, heq⟩ | ⟨m, hm, -⟩ | ⟨hb, -⟩
  · exact heq
  · exact absurd hm (h.not_denotes m)
  · exact absurd h hb

theorem parse_eq_none {s : CStr} (hb : ¬ BlankOnly s) (hno : ∀ n, ¬ DenotesInt s n) :
    parseLl s = none ∧ parseUll s = none := by
  constructor
  · rcases parseLl_cases s with ⟨h, -⟩ | ⟨m, hm, -⟩ | ⟨-, -, heq⟩
    · exact absurd h hb
    · exact absurd hm (hno m)
    · exact heq
  · rcases parseUll_cases s with ⟨h, -⟩ | ⟨m, hm, -⟩ | ⟨-, -, heq⟩
    · exact absurd h hb
    · exact absurd hm (hno m)
    · exact heq

theorem parseIn_some {lo hi v : ℤ} {parse : CStr → Option ℤ} {s : CStr} (h : parse s = some v) :
    parseIn lo hi parse s = if lo ≤ v ∧ v ≤ hi then some v else none := by
  rw [parseIn, h]
  simp [Option.filter]

theorem parseIn_none {lo hi : ℤ} {parse : CStr → Option ℤ} {s : CStr} (h : parse s = none) :
    parseIn lo hi parse s = none := by
  rw [parseIn, h]
  rfl

/-! ## The six accessors together -/

/-- The accessors by the types of their results. -/
inductive IntGetter where
  | int | uint | long | ulong | llong | ullong
  deriving DecidableEq, Repr

namespace IntGetter

def access : IntGetter → IntAccess
  | .int => intAccess
  | .uint => uintAccess
  | .long => longAccess
  | .ulong => ulongAccess
  | .llong => llongAccess
  | .ullong => ullongAccess

/-- The call of an accessor, with the default and the result as integers. -/
def call (dictHash : CStr → UInt32) (g : IntGetter) (d : Dict) (key : CStr) (dflt : ℤ) : Option ℤ :=
  match g with
  | .int => (dictGetInt dictHash d key (.ofInt dflt)).map Int32.toInt
  | .uint => (dictGetUint dictHash d key (.ofInt dflt)).map fun n ↦ n.toNat
  | .long => (dictGetLong dictHash d key (.ofInt dflt)).map Int64.toInt
  | .ulong => (dictGetUlong dictHash d key (.ofInt dflt)).map fun n ↦ n.toNat
  | .llong => (dictGetLlong dictHash d key (.ofInt dflt)).map Int64.toInt
  | .ullong => (dictGetUllong dictHash d key (.ofInt dflt)).map fun n ↦ n.toNat

/-- The number fits into the type of the result. -/
def Fits (g : IntGetter) (n : ℤ) : Prop := g.access.lo ≤ n ∧ n ≤ g.access.hi

instance (g : IntGetter) (n : ℤ) : Decidable (g.Fits n) := inferInstanceAs (Decidable (_ ∧ _))

/-- `strtoull` takes the number for one that fits. -/
def Wraps (g : IntGetter) (n : ℤ) : Prop :=
  g ≠ .long ∧ -2 ^ 64 < n ∧ n < 0 ∧ 2 ^ 64 + n ≤ g.access.hi

instance (g : IntGetter) (n : ℤ) : Decidable (g.Wraps n) :=
  inferInstanceAs (Decidable (_ ∧ _ ∧ _ ∧ _))

/-- **What a number is read as**: itself, what it wraps around to, or nothing. -/
theorem parse_denotes (g : IntGetter) {s : CStr} {n : ℤ} (h : DenotesInt s n) :
    g.access.parse s
      = if g.Fits n then some n else if g.Wraps n then some (2 ^ 64 + n) else none := by
  have hll := h.parseLl
  have hull := h.parseUll
  have hin (lo hi : ℤ) : parseIn lo hi parseLl s
      = if (-2 ^ 63 ≤ n ∧ n ≤ 2 ^ 63 - 1) ∧ lo ≤ n ∧ n ≤ hi then some n else none := by
    by_cases hr : -2 ^ 63 ≤ n ∧ n ≤ 2 ^ 63 - 1
    · rw [parseIn_some (by rw [hll, if_pos hr])]
      exact if_congr (by omega) rfl rfl
    · rw [parseIn_none (by rw [hll, if_neg hr]), if_neg fun h ↦ hr h.1]
  have hiu (hi : ℤ) (hhi : hi ≤ 2 ^ 64 - 1) : parseIn 0 hi parseUll s
      = if 0 ≤ n ∧ n ≤ hi then some n
        else if -2 ^ 64 < n ∧ n < 0 ∧ 2 ^ 64 + n ≤ hi then some (2 ^ 64 + n) else none := by
    by_cases hr : 0 ≤ n ∧ n ≤ 2 ^ 64 - 1
    · rw [parseIn_some (by rw [hull, if_pos hr]), if_neg (c := -2 ^ 64 < n ∧ _) (by omega)]
    · rw [if_neg (c := 0 ≤ n ∧ n ≤ hi) (by omega)]
      by_cases hw : -2 ^ 64 < n ∧ n < 0
      · rw [parseIn_some (by rw [hull, if_neg hr, if_pos hw])]
        exact if_congr (by omega) rfl rfl
      · rw [parseIn_none (by rw [hull, if_neg hr, if_neg hw]), if_neg (by omega)]
  have h31 : (2 ^ 31 - 1 : ℤ) ≤ 2 ^ 64 - 1 := by decide
  have h32 : (2 ^ 32 - 1 : ℤ) ≤ 2 ^ 64 - 1 := by decide
  have h63 : (2 ^ 63 - 1 : ℤ) ≤ 2 ^ 64 - 1 := by decide
  unfold Fits Wraps
  cases g with
  | int =>
    simp only [access, intAccess, hin, hiu _ h31, ne_eq, reduceCtorEq, not_false_eq_true, true_and]
    split_ifs <;> first | rfl | omega
  | uint =>
    simp only [access, uintAccess, hin, hiu _ h32, ne_eq, reduceCtorEq, not_false_eq_true, true_and]
    split_ifs <;> first | rfl | omega
  | long =>
    simp only [access, longAccess, hin, ne_eq, not_true, false_and, if_false]
    split_ifs <;> first | rfl | omega
  | ulong =>
    simp only [access, ulongAccess, hin, hiu _ le_rfl, ne_eq, reduceCtorEq, not_false_eq_true,
      true_and]
    split_ifs <;> first | rfl | omega
  | llong =>
    simp only [access, llongAccess, hll, hiu _ h63, ne_eq, reduceCtorEq, not_false_eq_true,
      true_and]
    split_ifs <;> first | rfl | omega
  | ullong =>
    simp only [access, ullongAccess, hull, ne_eq, reduceCtorEq, not_false_eq_true, true_and]
    split_ifs <;> first | rfl | omega

/-- A text of blanks is read as a zero. -/
theorem parse_blankOnly (g : IntGetter) {s : CStr} (h : BlankOnly s) :
    g.access.parse s = some 0 := by
  have hll := h.parseLl
  have hull := h.parseUll
  cases g with
  | int => simp only [access, intAccess, parseIn_some hll]; rfl
  | uint => simp only [access, uintAccess, parseIn_some hull]; rfl
  | long => simp only [access, longAccess, parseIn_some hll]; rfl
  | ulong => simp only [access, ulongAccess, parseIn_some hull]; rfl
  | llong => simp only [access, llongAccess, hll]; rfl
  | ullong => exact hull

theorem parse_neither (g : IntGetter) {s : CStr} (hb : ¬ BlankOnly s)
    (hno : ∀ n, ¬ DenotesInt s n) : g.access.parse s = none := by
  obtain ⟨hll, hull⟩ := parse_eq_none hb hno
  cases g with
  | int => simp only [access, intAccess, parseIn_none hll, parseIn_none hull]; rfl
  | uint => simp only [access, uintAccess, parseIn_none hll, parseIn_none hull]; rfl
  | long => exact parseIn_none hll
  | ulong => simp only [access, ulongAccess, parseIn_none hll, parseIn_none hull]; rfl
  | llong => simp only [access, llongAccess, hll, parseIn_none hull]; rfl
  | ullong => exact hull

/-- Native integers are read if they fit. -/
theorem read_native (g : IntGetter) {v : DictValue} {n : ℤ} (h : v.toInt = some n) :
    g.access.read v = if g.Fits n then some n else none := by
  have hfilter : (some n).filter (fun n ↦ decide (g.access.lo ≤ n ∧ n ≤ g.access.hi))
      = if g.Fits n then some n else none := by
    simp only [Option.filter, decide_eq_true_eq]
    exact if_congr Iff.rfl rfl rfl
  cases v <;> simp only [DictValue.toInt, Option.some.injEq, reduceCtorEq] at h <;> subst h <;>
    exact hfilter

/-- The conversions to the types of the results keep what is in range. -/
theorem call_eq {dictHash : CStr → UInt32} (g : IntGetter) {d : Dict} {key : CStr} {kp : Keypair}
    (hkp : dictGetKp dictHash d key = some (some kp)) {dflt : ℤ} (hdflt : g.Fits dflt)
    (hread : ∀ n, g.access.read kp.value = some n → g.Fits n) :
    g.call dictHash d key dflt = some ((g.access.read kp.value).getD dflt) := by
  have hres : ∀ {α : Type} (ofInt : ℤ → α) (back : α → ℤ), (∀ n, g.Fits n → back (ofInt n) = n) →
      (getInteger dictHash g.access ofInt d key (ofInt dflt)).map back
        = some ((g.access.read kp.value).getD dflt) := by
    intro α ofInt back hback
    rw [getInteger, hkp]
    cases hr : g.access.read kp.value with
    | none => simp [hr, hback _ hdflt]
    | some n => simp [hr, hback _ (hread n hr)]
  have hu32 : ∀ n : ℤ, 0 ≤ n ∧ n ≤ 2 ^ 32 - 1 → ((UInt32.ofInt n).toNat : ℤ) = n := by
    intro n hn
    simp only [UInt32.ofInt, UInt32.toNat_ofNat']
    omega
  have hu64 : ∀ n : ℤ, 0 ≤ n ∧ n ≤ 2 ^ 64 - 1 → ((UInt64.ofInt n).toNat : ℤ) = n := by
    intro n hn
    simp only [UInt64.ofInt, UInt64.toNat_ofNat']
    omega
  have hi32 : ∀ n : ℤ, -2 ^ 31 ≤ n ∧ n ≤ 2 ^ 31 - 1 → (Int32.ofInt n).toInt = n := fun n hn ↦
    Int32.toInt_ofInt_of_le hn.1 (by omega)
  have hi64 : ∀ n : ℤ, -2 ^ 63 ≤ n ∧ n ≤ 2 ^ 63 - 1 → (Int64.ofInt n).toInt = n := fun n hn ↦
    Int64.toInt_ofInt_of_le hn.1 (by omega)
  cases g with
  | int => exact hres _ _ hi32
  | uint => exact hres _ (fun n : UInt32 ↦ (n.toNat : ℤ)) hu32
  | long => exact hres _ _ hi64
  | ulong => exact hres _ (fun n : UInt64 ↦ (n.toNat : ℤ)) hu64
  | llong => exact hres _ _ hi64
  | ullong => exact hres _ (fun n : UInt64 ↦ (n.toNat : ℤ)) hu64

end IntGetter

/-! ## What an accessor owes its caller -/

/-- The integer an entry denotes, natively or as a text. -/
def DictValue.Denotes (v : DictValue) (n : ℤ) : Prop :=
  v.toInt = some n ∨ ∃ s, v = .str (some s) ∧ DenotesInt s n

/-- The call returns the integer that the entry denotes, if it fits, and otherwise the default. -/
def ExactOrDefault (dictHash : CStr → UInt32) (g : IntGetter) (d : Dict) (key : CStr)
    (v : DictValue) : Prop :=
  ∀ dflt, g.Fits dflt →
    (∀ n, v.Denotes n → g.call dictHash d key dflt = some (if g.Fits n then n else dflt)) ∧
    ((∀ n, ¬ v.Denotes n) → g.call dictHash d key dflt = some dflt)

/-- The strings an accessor mistakes: blanks only, and what `strtoull` wraps into the range. -/
def Mistaken (g : IntGetter) (s : CStr) : Prop :=
  BlankOnly s ∨ ∃ n, DenotesInt s n ∧ g.Wraps n

/-- What wraps around does not fit, and becomes something that does. -/
theorem IntGetter.Wraps.fits {g : IntGetter} {n : ℤ} (h : g.Wraps n) :
    ¬ g.Fits n ∧ g.Fits (2 ^ 64 + n) := by
  obtain ⟨hg, hlo, hneg, hhi⟩ := h
  unfold Fits
  cases g <;> simp only [access, intAccess, uintAccess, ulongAccess, llongAccess, ullongAccess,
    ne_eq, not_true] at * <;> omega

theorem DictValue.denotes_str {s : CStr} {n : ℤ} :
    (DictValue.str (some s)).Denotes n ↔ DenotesInt s n := by
  constructor
  · rintro (h | ⟨t, heq, h⟩)
    · simp [DictValue.toInt] at h
    · obtain rfl : s = t := by simpa using heq
      exact h
  · exact fun h ↦ .inr ⟨s, rfl, h⟩

theorem IntGetter.zero_fits (g : IntGetter) : g.Fits 0 := by
  cases g <;> decide

theorem IntGetter.one_fits (g : IntGetter) : g.Fits 1 := by
  cases g <;> decide

variable {dictHash : CStr → UInt32} {d : Dict} {key : CStr}

/-- A native integer is returned exactly, or the default is. -/
theorem exactOrDefault_native (g : IntGetter) {kp : Keypair}
    (hkp : dictGetKp dictHash d key = some (some kp)) (hv : kp.value.toInt ≠ none) :
    ExactOrDefault dictHash g d key kp.value := by
  obtain ⟨m, hm⟩ := Option.ne_none_iff_exists'.mp hv
  intro dflt hdflt
  have hread := g.read_native hm
  refine ⟨fun n hn ↦ ?_, fun hno ↦ absurd (.inl hm) (hno m)⟩
  obtain rfl : m = n := by
    rcases hn with hn | ⟨s, hs, -⟩
    · simpa [hm] using hn
    · rw [hs] at hm
      simp [DictValue.toInt] at hm
  rw [g.call_eq hkp hdflt, hread]
  · by_cases hf : g.Fits m <;> simp [hf]
  · intro n hn
    by_cases hf : g.Fits m
    · obtain rfl : m = n := by simpa [hread, hf] using hn
      exact hf
    · simp [hread, hf] at hn

/-- What a call returns for a string. -/
theorem call_str (g : IntGetter) {kp : Keypair} (hkp : dictGetKp dictHash d key = some (some kp))
    {s : CStr} (hs : kp.value = .str (some s)) {dflt : ℤ} (hdflt : g.Fits dflt) :
    g.call dictHash d key dflt = some ((g.access.parse s).getD dflt) := by
  have hread : g.access.read kp.value = g.access.parse s := by
    rw [hs]
    rfl
  rw [g.call_eq hkp hdflt, hread]
  intro n hn
  rw [hread] at hn
  by_cases hb : BlankOnly s
  · obtain rfl : (0 : ℤ) = n := by simpa [g.parse_blankOnly hb] using hn
    exact g.zero_fits
  by_cases hex : ∃ m, DenotesInt s m
  · obtain ⟨m, hm⟩ := hex
    rw [g.parse_denotes hm] at hn
    split_ifs at hn with hf hw
    · obtain rfl : m = n := by simpa using hn
      exact hf
    · obtain rfl : 2 ^ 64 + m = n := by simpa using hn
      exact hw.fits.2
  · rw [g.parse_neither hb (not_exists.mp hex)] at hn
    cases hn

theorem exactOrDefault_str (g : IntGetter) {kp : Keypair}
    (hkp : dictGetKp dictHash d key = some (some kp)) {s : CStr}
    (hs : kp.value = .str (some s)) :
    ExactOrDefault dictHash g d key (.str (some s)) ↔ ¬ Mistaken g s := by
  constructor
  · rintro h (hb | ⟨n, hn, hw⟩)
    · have hcall := (h 1 g.one_fits).2 fun n hn ↦ hb.not_denotes n (DictValue.denotes_str.mp hn)
      rw [call_str g hkp hs g.one_fits, g.parse_blankOnly hb] at hcall
      simp at hcall
    · have hcall := (h 0 g.zero_fits).1 n (DictValue.denotes_str.mpr hn)
      rw [call_str g hkp hs g.zero_fits, g.parse_denotes hn, if_neg hw.fits.1, if_pos hw,
        if_neg hw.fits.1] at hcall
      obtain ⟨-, hlo, -⟩ := hw
      have : (2 : ℤ) ^ 64 + n = 0 := by simpa using hcall
      omega
  · intro hm dflt hdflt
    rw [call_str g hkp hs hdflt]
    refine ⟨fun n hn ↦ ?_, fun hno ↦ ?_⟩
    · have hn := DictValue.denotes_str.mp hn
      have hw : ¬ g.Wraps n := fun hw ↦ hm (.inr ⟨n, hn, hw⟩)
      rw [g.parse_denotes hn, if_neg hw]
      by_cases hf : g.Fits n <;> simp [hf]
    · rw [g.parse_neither (fun hb ↦ hm (.inl hb)) fun n hn ↦ hno n (DictValue.denotes_str.mpr hn)]
      rfl

/-- **The accessors are exact or return the default, but for two kinds of strings.**  The entry is
a native integer or a string; the call is wrong exactly when the string is blanks only, or denotes
a negative number that `strtoull` wraps around into the range. -/
theorem exactOrDefault_iff (hd : Coherent dictHash d) (g : IntGetter) {v : DictValue}
    (hkey : d.toMap key = some v) (hv : v.toInt ≠ none ∨ ∃ s, v = .str s) :
    ExactOrDefault dictHash g d key v ↔ ∀ s, v = .str (some s) → ¬ Mistaken g s := by
  obtain ⟨kp, hentry, rfl⟩ := Option.map_eq_some_iff.mp hkey
  have hkp : dictGetKp dictHash d key = some (some kp) := by
    rw [hd.dictGetKp_of_isSome (.inr ⟨kp, hentry⟩), hentry]
  rcases hv with hv | ⟨o, ho⟩
  · refine iff_of_true (exactOrDefault_native g hkp hv) fun s hs ↦ absurd ?_ hv
    rw [hs]
    rfl
  cases o with
  | none =>
    refine iff_of_true (fun dflt hdflt ↦ ⟨fun n hn ↦ ?_, fun _ ↦ ?_⟩) fun s hs ↦ ?_
    · rw [ho] at hn
      rcases hn with hn | ⟨s, hs, -⟩
      · cases hn
      · cases hs
    · have hread : g.access.read kp.value = none := by rw [ho]; rfl
      rw [g.call_eq hkp hdflt, hread]
      · rfl
      · intro n hn
        rw [hread] at hn
        cases hn
    · rw [ho] at hs
      cases hs
  | some s =>
    rw [ho, exactOrDefault_str g hkp ho]
    refine ⟨fun h t ht ↦ ?_, fun h ↦ h s rfl⟩
    obtain rfl : s = t := by simpa using ht
    exact h

theorem exactOrDefault_iff_oneEntry :
    ExactOrDefault dictHashMurmur .ulong oneEntry [97] (.int 1)
      ↔ ∀ s, DictValue.int 1 = .str (some s) → ¬ Mistaken .ulong s :=
  exactOrDefault_iff wellFormed_oneEntry.toCoherent .ulong (by decide) (.inl (by decide))

/-- The table that holds the string `-1` under `a`. -/
def minusOneEntry : Dict :=
  dictStoreAt dictNew 7 [97] (.str (some [0x2d, 0x31])) (dictHashMurmur [97])

/-- `dict_get_ulong` of the string `-1` is `ULONG_MAX`, whatever the default. -/
theorem not_exactOrDefault_minusOne :
    dictStore dictHashMurmur .ok dictNew [97] (.str (some [0x2d, 0x31]))
        = some (true, minusOneEntry) ∧
      (∀ dflt, dictGetUlong dictHashMurmur minusOneEntry [97] dflt = some 0xffffffffffffffff) ∧
      ¬ ExactOrDefault dictHashMurmur .ulong minusOneEntry [97] (.str (some [0x2d, 0x31])) := by
  have hkp : dictGetKp dictHashMurmur minusOneEntry [97]
      = some (some ⟨[97], .str (some [0x2d, 0x31]), dictHashMurmur [97]⟩) := by decide
  have hread : ulongAccess.read (.str (some [0x2d, 0x31])) = some (2 ^ 64 - 1) := by decide
  refine ⟨by decide, fun dflt ↦ ?_, fun h ↦ ?_⟩
  · rw [dictGetUlong, getInteger, hkp]
    simp only [Option.bind_eq_bind, Option.bind_some, hread]
    rfl
  · have hdenotes : DenotesInt [0x2d, 0x31] (-1) := (denotesInt_iff _ _).mpr (by decide)
    have hcall := (h 0 (by decide)).1 (-1) (DictValue.denotes_str.mpr hdenotes)
    revert hcall
    decide

end Rustyaxe
