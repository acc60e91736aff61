import Mathlib.Data.List.TakeWhile

/-!
# C strings

A `CStr` is a NUL-terminated byte string without its terminator, so a `char *` into it is one of
its suffixes, and the end of the list is where the source reads `'\0'`.  The `ctype.h` and
`string.h` functions here are the ones of the C locale, which is the only one the library runs in.
-/

set_option autoImplicit false

namespace Rustyaxe

/-- A NUL-terminated byte string, without its terminator. -/
abbrev CStr := List UInt8

/-- The bytes of an ASCII literal of the source. -/
def lit (s : String) : CStr := s.toList.map fun c ↦ UInt8.ofNat c.toNat

/-! ## Characters -/

/-- `'"'` -/
def quote : UInt8 := 0x22

/-- `'\\'` -/
def backslash : UInt8 := 0x5c

/-- `','` -/
def comma : UInt8 := 0x2c

/-- `':'` -/
def colon : UInt8 := 0x3a

/-- `'.'` -/
def dot : UInt8 := 0x2e

/-- `'-'` -/
def minus : UInt8 := 0x2d

/-- `'['` -/
def lbracket : UInt8 := 0x5b

/-- `']'` -/
def rbracket : UInt8 := 0x5d

/-- `'{'` -/
def lbrace : UInt8 := 0x7b

/-- `'}'` -/
def rbrace : UInt8 := 0x7d

/-- `'\''` -/
def apostrophe : UInt8 := 0x27

/-- `'/'` -/
def slash : UInt8 := 0x2f

/-- `'*'` -/
def star : UInt8 := 0x2a

/-- `'#'` -/
def hashmark : UInt8 := 0x23

/-- `';'` -/
def semicolon : UInt8 := 0x3b

/-- `'@'` -/
def atSign : UInt8 := 0x40

/-- `'='` -/
def equals : UInt8 := 0x3d

/-- `' '` -/
def space : UInt8 := 0x20

/-- `'$'` -/
def dollar : UInt8 := 0x24

/-- `'\n'` -/
def newline : UInt8 := 0x0a

/-- `'\033'` -/
def esc : UInt8 := 0x1b

/-- A decidable property of all bytes is checked byte by byte. -/
@[elab_as_elim]
theorem forall_byte {p : UInt8 → Prop} (h : ∀ n : Fin 256, p (UInt8.ofNat n)) (c : UInt8) :
    p c := by
  have hc := h ⟨c.toNat, c.toNat_lt⟩
  rwa [UInt8.ofNat_toNat] at hc

/-- A property of the bytes of a text is decided for these, not for all the bytes there are. -/
instance (priority := high) (p : UInt8 → Prop) [DecidablePred p] (s : CStr) :
    Decidable (∀ c ∈ s, p c) := List.decidableBAll p s

/-! ## `ctype.h` and `string.h` -/

/-- `isspace` -/
def isspace (c : UInt8) : Bool := c == 0x20 || (0x09 ≤ c && c ≤ 0x0d)

/-- `isdigit` -/
def isdigit (c : UInt8) : Bool := 0x30 ≤ c && c ≤ 0x39

/-- `isalpha` -/
def isalpha (c : UInt8) : Bool := (0x41 ≤ c && c ≤ 0x5a) || (0x61 ≤ c && c ≤ 0x7a)

/-- `isalnum` -/
def isalnum (c : UInt8) : Bool :=
  isdigit c || (0x41 ≤ c && c ≤ 0x5a) || (0x61 ≤ c && c ≤ 0x7a)

/-- `isxdigit` -/
def isxdigit (c : UInt8) : Bool :=
  isdigit c || (0x41 ≤ c && c ≤ 0x46) || (0x61 ≤ c && c ≤ 0x66)

/-- `tolower` -/
def tolower (c : UInt8) : UInt8 := if 0x41 ≤ c ∧ c ≤ 0x5a then c + 0x20 else c

/-- `toupper` -/
def toupper (c : UInt8) : UInt8 := if 0x61 ≤ c ∧ c ≤ 0x7a then c - 0x20 else c

/-- `strcasecmp(a, b) == 0` -/
def strcaseeq (a b : CStr) : Bool := a.map tolower == b.map tolower

/-- `strncmp(s, p, strlen(p)) == 0` -/
def startsWith (p s : CStr) : Bool := p.isPrefixOf s

/-- `strncasecmp(s, p, strlen(p)) == 0` -/
def startsWithCase (p s : CStr) : Bool := strcaseeq (s.take p.length) p

/-- `strcmp`, up to the size of what it returns. -/
def strcmp : CStr → CStr → Ordering
  | [], [] => .eq
  | [], _ :: _ => .lt
  | _ :: _, [] => .gt
  | a :: s, b :: t => if a < b then .lt else if b < a then .gt else strcmp s t

/-- `strchr(s, c) - s` -/
def strchr (c : UInt8) (s : CStr) : Option ℕ :=
  if c ∈ s then some (s.takeWhile (· ≠ c)).length else none

/-- `strrchr(s, c) - s` -/
def strrchr (c : UInt8) : CStr → Option ℕ
  | [] => none
  | x :: s =>
    match strrchr c s with
    | some n => some (n + 1)
    | none => if x = c then some 0 else none

/-- `strstr(s, needle) - s` -/
def strstr (needle : CStr) : CStr → Option ℕ
  | [] => if needle = [] then some 0 else none
  | c :: s => if startsWith needle (c :: s) then some 0 else (strstr needle s).map (· + 1)

/-- The decimal digits of a number, as `%u` prints it. -/
def decimal (n : ℕ) : CStr := (Nat.toDigits 10 n).map fun c ↦ UInt8.ofNat c.toNat

/-- A signed number in decimal. -/
def decimalInt (i : ℤ) : CStr :=
  if i < 0 then minus :: decimal i.natAbs else decimal i.natAbs

/-! ## Runs of characters -/

theorem dropWhile_append_of_all {p : UInt8 → Bool} {ds r : CStr} (hds : ∀ c ∈ ds, p c = true)
    (hr : ∀ c, r.head? = some c → p c = false) : (ds ++ r).dropWhile p = r := by
  rw [List.dropWhile_append_of_pos hds]
  cases r with
  | nil => rfl
  | cons c r => rw [List.dropWhile_cons_of_neg (by simp [hr c rfl])]

theorem takeWhile_append_of_all {p : UInt8 → Bool} {ds r : CStr} (hds : ∀ c ∈ ds, p c = true)
    (hr : ∀ c, r.head? = some c → p c = false) : (ds ++ r).takeWhile p = ds := by
  rw [List.takeWhile_append_of_pos hds]
  cases r with
  | nil => rw [List.takeWhile_nil, List.append_nil]
  | cons c r => rw [List.takeWhile_cons_of_neg (by simp [hr c rfl]), List.append_nil]

/-! ## Where a character is -/

theorem strchr_append {c : UInt8} {s : CStr} (hs : c ∉ s) (rest : CStr) :
    strchr c (s ++ c :: rest) = some s.length := by
  have hall : ∀ x ∈ s, decide (x ≠ c) = true := fun x hx ↦ decide_eq_true fun h ↦ hs (h ▸ hx)
  rw [strchr, if_pos (by simp), takeWhile_append_of_all hall (by simp)]

theorem strchr_eq_some {c : UInt8} {s : CStr} {n : ℕ} (h : strchr c s = some n) :
    ∃ before after, s = before ++ c :: after ∧ c ∉ before ∧ before.length = n := by
  by_cases hc : c ∈ s
  · obtain ⟨before, after, rfl, hnot⟩ := List.eq_append_cons_of_mem hc
    rw [strchr_append hnot] at h
    exact ⟨before, after, rfl, hnot, Option.some.inj h⟩
  · simp [strchr, hc] at h

theorem strchr_lt {c : UInt8} {s : CStr} {n : ℕ} (h : strchr c s = some n) : n < s.length := by
  obtain ⟨before, after, rfl, -, rfl⟩ := strchr_eq_some h
  simp

theorem strrchr_eq_none_iff {c : UInt8} {s : CStr} : strrchr c s = none ↔ c ∉ s := by
  induction s with
  | nil => simp [strrchr]
  | cons x s ih =>
    rw [strrchr, List.mem_cons, not_or, ← ih]
    cases strrchr c s with
    | some n => simp
    | none => simp [eq_comm]

theorem strrchr_append {c : UInt8} (s : CStr) {rest : CStr} (hrest : c ∉ rest) :
    strrchr c (s ++ c :: rest) = some s.length := by
  induction s with
  | nil => rw [List.nil_append, strrchr, strrchr_eq_none_iff.mpr hrest]; exact if_pos rfl
  | cons x s ih => rw [List.cons_append, strrchr, ih]; rfl

theorem strrchr_eq_some {c : UInt8} {s : CStr} {n : ℕ} (h : strrchr c s = some n) :
    ∃ before after, s = before ++ c :: after ∧ c ∉ after ∧ before.length = n := by
  induction s generalizing n with
  | nil => cases h
  | cons x s ih =>
    rw [strrchr] at h
    cases hs : strrchr c s with
    | some m =>
      obtain ⟨before, after, rfl, hafter, hlen⟩ := ih hs
      rw [hs] at h
      refine ⟨x :: before, after, rfl, hafter, ?_⟩
      rw [List.length_cons, hlen]
      exact Option.some.inj h
    | none =>
      rw [hs] at h
      dsimp only at h
      split at h
      case isTrue hx =>
        subst hx
        exact ⟨[], s, rfl, strrchr_eq_none_iff.mp hs, Option.some.inj h⟩
      case isFalse => cases h

end Rustyaxe
