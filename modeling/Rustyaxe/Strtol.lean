import Rustyaxe.CString
import Mathlib.Algebra.Order.Ring.Int
import Mathlib.Algebra.Order.Ring.Nat
import Mathlib.Data.List.Basic

/-!
# `strtoll` and `strtoull`

The two conversions of the C library, in base ten.  Both skip blanks, read a sign and as many digits
as there are; they differ in what they make of them.  `long long` has 64 bits.

`DenotesInt` says which number a text stands for, whatever its size, and `denotesInt_iff` reads it
off the scan.
-/

set_option autoImplicit false

namespace Rustyaxe

/-- The number a string of decimal digits stands for. -/
def digitsVal (ds : CStr) : ℕ := ds.foldl (fun n c ↦ 10 * n + (c.toNat - 0x30)) 0

/-- What `strtoll` and `strtoull` have in common: blanks, a sign, and the digits.  The result is
whether there is a minus sign, the digits, and the rest. -/
def strtoScan (s : CStr) : Bool × CStr × CStr :=
  let t := s.dropWhile isspace
  let neg := t.head? == some minus
  let t := if t.head? = some minus ∨ t.head? = some 0x2b then t.tail else t
  (neg, t.takeWhile isdigit, t.dropWhile isdigit)

/-- `strtoll(s, &ep, 10)`: the value, `ep`, and whether `errno` is set to `ERANGE`. -/
def strtoll (s : CStr) : ℤ × CStr × Bool :=
  let (neg, ds, ep) := strtoScan s
  if ds = [] then (0, s, false)
  else
    let n : ℤ := if neg then -digitsVal ds else digitsVal ds
    if n < -2 ^ 63 then (-2 ^ 63, ep, true)
    else if n > 2 ^ 63 - 1 then (2 ^ 63 - 1, ep, true)
    else (n, ep, false)

/-- `strtoull(s, &ep, 10)`: a minus sign negates modulo `2 ^ 64`. -/
def strtoull (s : CStr) : ℕ × CStr × Bool :=
  let (neg, ds, ep) := strtoScan s
  if ds = [] then (0, s, false)
  else if digitsVal ds > 2 ^ 64 - 1 then (2 ^ 64 - 1, ep, true)
  else (if neg then (2 ^ 64 - digitsVal ds) % 2 ^ 64 else digitsVal ds, ep, false)

/-! ## The number a text denotes -/

/-- The text is an integer: blanks, a sign, digits, and blanks again. -/
def DenotesInt (s : CStr) (n : ℤ) : Prop :=
  ∃ blanks sign ds trail : CStr, s = blanks ++ (sign ++ (ds ++ trail)) ∧
    (∀ c ∈ blanks, isspace c) ∧ (∀ c ∈ trail, isspace c) ∧ ds ≠ [] ∧ (∀ c ∈ ds, isdigit c) ∧
    ((sign = [minus] ∧ n = -digitsVal ds) ∨ (sign = [] ∨ sign = [0x2b]) ∧ n = digitsVal ds)

/-- The signed value of the digits of a scan. -/
def signedVal (neg : Bool) (ds : CStr) : ℤ := if neg then -digitsVal ds else digitsVal ds

theorem isdigit_spec {c : UInt8} (h : isdigit c) : isspace c = false ∧ c ≠ minus ∧ c ≠ 0x2b := by
  revert h
  refine forall_byte ?_ c
  decide +kernel

theorem isspace_not_isdigit {c : UInt8} (h : isspace c) : isdigit c = false := by
  revert h
  refine forall_byte ?_ c
  decide +kernel

theorem strtoScan_eq {blanks sign ds trail : CStr} (hblanks : ∀ c ∈ blanks, isspace c)
    (htrail : ∀ c ∈ trail, isspace c) (hne : ds ≠ []) (hds : ∀ c ∈ ds, isdigit c)
    (hsign : sign = [minus] ∨ sign = [] ∨ sign = [0x2b]) :
    strtoScan (blanks ++ (sign ++ (ds ++ trail))) = (sign == [minus], ds, trail) := by
  have hnext : ∀ c, trail.head? = some c → isdigit c = false := fun c hc ↦
    isspace_not_isdigit (htrail c (List.mem_of_head? hc))
  have htake : (ds ++ trail).takeWhile isdigit = ds := takeWhile_append_of_all hds hnext
  have hdrop : (ds ++ trail).dropWhile isdigit = trail := dropWhile_append_of_all hds hnext
  obtain ⟨d, ds', rfl⟩ := List.exists_cons_of_ne_nil hne
  obtain ⟨hspace, hminus, hplus⟩ := isdigit_spec (hds d (by simp))
  rw [strtoScan]
  rcases hsign with rfl | rfl | rfl
  · have hskip : (blanks ++ ([minus] ++ (d :: ds' ++ trail))).dropWhile isspace
        = minus :: (d :: ds' ++ trail) :=
      dropWhile_append_of_all hblanks fun c hc ↦ by
        obtain rfl : minus = c := by simpa using hc
        rfl
    rw [hskip]
    simp only [List.head?_cons, true_or, if_true, List.tail_cons, htake, hdrop]
    rfl
  · have hskip : (blanks ++ ([] ++ (d :: ds' ++ trail))).dropWhile isspace = d :: ds' ++ trail :=
      dropWhile_append_of_all hblanks fun c hc ↦ by
        obtain rfl : d = c := by simpa using hc
        exact hspace
    rw [hskip]
    simp only [List.cons_append, List.head?_cons, Option.some.injEq, hminus, hplus, or_self,
      if_false] at htake hdrop ⊢
    rw [htake, hdrop]
    simp [hminus]
  · have hskip : (blanks ++ ([0x2b] ++ (d :: ds' ++ trail))).dropWhile isspace
        = 0x2b :: (d :: ds' ++ trail) :=
      dropWhile_append_of_all hblanks fun c hc ↦ by
        obtain rfl : 0x2b = c := by simpa using hc
        rfl
    rw [hskip]
    simp only [List.head?_cons, or_true, if_true, List.tail_cons, htake, hdrop]
    rfl

/-- **The number a text denotes is read off the scan.** -/
theorem denotesInt_iff (s : CStr) (n : ℤ) :
    DenotesInt s n ↔ (strtoScan s).2.1 ≠ [] ∧ (strtoScan s).2.2.dropWhile isspace = [] ∧
      n = signedVal (strtoScan s).1 (strtoScan s).2.1 := by
  constructor
  · rintro ⟨blanks, sign, ds, trail, rfl, hblanks, htrail, hne, hds, hn⟩
    have hsign : sign = [minus] ∨ sign = [] ∨ sign = [0x2b] := hn.imp And.left And.left
    rw [strtoScan_eq hblanks htrail hne hds hsign]
    refine ⟨hne, List.dropWhile_eq_nil_iff.mpr htrail, ?_⟩
    rcases hn with ⟨rfl, rfl⟩ | ⟨rfl | rfl, rfl⟩ <;> rfl
  · rintro ⟨hne, htrail, rfl⟩
    have hall (p : UInt8 → Bool) (t : CStr) : ∀ c ∈ t.takeWhile p, p c := fun c hc ↦
      List.mem_takeWhile_imp hc
    generalize ht : s.dropWhile isspace = t
    have hs : s = s.takeWhile isspace ++ t := by rw [← ht, List.takeWhile_append_dropWhile]
    rw [strtoScan, ht] at hne htrail ⊢
    dsimp only at hne htrail ⊢
    by_cases hm : t.head? = some minus
    · obtain ⟨t', rfl⟩ : ∃ t', t = minus :: t' := List.head?_eq_some_iff.mp hm
      rw [if_pos (.inl hm), List.tail_cons] at hne htrail ⊢
      refine ⟨_, [minus], _, _, ?_, hall _ s, List.dropWhile_eq_nil_iff.mp htrail, hne, hall _ t',
        .inl ⟨rfl, rfl⟩⟩
      rw [List.takeWhile_append_dropWhile]
      exact hs
    · have hneg : (t.head? == some minus) = false := by simpa using hm
      by_cases hp : t.head? = some 0x2b
      · obtain ⟨t', rfl⟩ : ∃ t', t = 0x2b :: t' := List.head?_eq_some_iff.mp hp
        rw [if_pos (.inr hp), List.tail_cons] at hne htrail ⊢
        refine ⟨_, [0x2b], _, _, ?_, hall _ s, List.dropWhile_eq_nil_iff.mp htrail, hne,
          hall _ t', .inr ⟨.inr rfl, rfl⟩⟩
        rw [List.takeWhile_append_dropWhile]
        exact hs
      · rw [if_neg (not_or.mpr ⟨hm, hp⟩)] at hne htrail ⊢
        refine ⟨_, [], _, _, ?_, hall _ s, List.dropWhile_eq_nil_iff.mp htrail, hne, hall _ t,
          .inr ⟨.inl rfl, by rw [hneg]; rfl⟩⟩
        rw [List.nil_append, List.takeWhile_append_dropWhile]
        exact hs

/-! ## The conversions, from the scan -/

theorem strtoll_of_nil {s : CStr} (h : (strtoScan s).2.1 = []) : strtoll s = (0, s, false) := by
  rw [strtoll]
  exact if_pos h

theorem strtoull_of_nil {s : CStr} (h : (strtoScan s).2.1 = []) : strtoull s = (0, s, false) := by
  rw [strtoull]
  exact if_pos h

theorem strtoll_of_digits {s : CStr} (h : (strtoScan s).2.1 ≠ []) :
    strtoll s
      = if signedVal (strtoScan s).1 (strtoScan s).2.1 < -2 ^ 63 then
          (-2 ^ 63, (strtoScan s).2.2, true)
        else if signedVal (strtoScan s).1 (strtoScan s).2.1 > 2 ^ 63 - 1 then
          (2 ^ 63 - 1, (strtoScan s).2.2, true)
        else (signedVal (strtoScan s).1 (strtoScan s).2.1, (strtoScan s).2.2, false) := by
  rw [strtoll]
  exact if_neg h

theorem strtoull_of_digits {s : CStr} (h : (strtoScan s).2.1 ≠ []) :
    strtoull s
      = if digitsVal (strtoScan s).2.1 > 2 ^ 64 - 1 then (2 ^ 64 - 1, (strtoScan s).2.2, true)
        else (if (strtoScan s).1 then (2 ^ 64 - digitsVal (strtoScan s).2.1) % 2 ^ 64
          else digitsVal (strtoScan s).2.1, (strtoScan s).2.2, false) := by
  rw [strtoull]
  exact if_neg h

/-! ## Printed numbers -/

theorem decimal_eq (n : ℕ) : decimal n =
    if n < 10 then [UInt8.ofNat (0x30 + n)]
    else decimal (n / 10) ++ [UInt8.ofNat (0x30 + n % 10)] := by
  have hdigit : ∀ d < 10, UInt8.ofNat (Nat.digitChar d).toNat = UInt8.ofNat (0x30 + d) := by decide
  rw [decimal, Nat.toDigits_eq_if (by decide)]
  split
  · rename_i h
    simp [hdigit n h]
  · simp [decimal, hdigit (n % 10) (Nat.mod_lt n (by decide))]

theorem digitsVal_append (ds : CStr) (c : UInt8) :
    digitsVal (ds ++ [c]) = 10 * digitsVal ds + (c.toNat - 0x30) := by
  simp [digitsVal]

theorem toNat_digit : ∀ d < 10, (UInt8.ofNat (0x30 + d)).toNat - 0x30 = d := by decide

/-- Reading a decimal number back. -/
theorem digitsVal_decimal (n : ℕ) : digitsVal (decimal n) = n := by
  induction n using Nat.strong_induction_on with
  | _ n ih =>
    rw [decimal_eq]
    split
    · rename_i h
      simpa [digitsVal] using toNat_digit n h
    · rw [digitsVal_append, ih (n / 10) (by omega), toNat_digit _ (Nat.mod_lt n (by decide))]
      omega

theorem isdigit_digit : ∀ d < 10, isdigit (UInt8.ofNat (0x30 + d)) = true := by decide

theorem decimal_ne_nil (n : ℕ) : decimal n ≠ [] := by
  rw [decimal_eq]
  split <;> simp

theorem isdigit_of_mem_decimal {n : ℕ} {c : UInt8} (hc : c ∈ decimal n) : isdigit c = true := by
  induction n using Nat.strong_induction_on with
  | _ n ih =>
    rw [decimal_eq] at hc
    split at hc
    · rename_i h
      rw [List.mem_singleton.mp hc, isdigit_digit n h]
    · rcases List.mem_append.mp hc with hc | hc
      · exact ih (n / 10) (by omega) hc
      · rw [List.mem_singleton.mp hc, isdigit_digit _ (Nat.mod_lt n (by decide))]

/-- Digits up to something else. -/
theorem strtoScan_digits {ds rest : CStr} (hne : ds ≠ []) (hds : ∀ c ∈ ds, isdigit c = true)
    (hrest : ∀ c, rest.head? = some c → isdigit c = false) :
    strtoScan (ds ++ rest) = (false, ds, rest) := by
  have htake := takeWhile_append_of_all hds hrest
  have hdrop := dropWhile_append_of_all hds hrest
  obtain ⟨d, ds, rfl⟩ := List.exists_cons_of_ne_nil hne
  obtain ⟨hspace, hminus, hplus⟩ := isdigit_spec (hds d List.mem_cons_self)
  have hskip : (d :: ds ++ rest).dropWhile isspace = d :: ds ++ rest :=
    List.dropWhile_cons_of_neg (by simp [hspace])
  rw [strtoScan, hskip]
  simp only [List.cons_append, List.head?_cons, Option.some.injEq, hminus, hplus, or_self,
    if_false] at htake hdrop ⊢
  rw [htake, hdrop]
  simp [hminus]

/-- **A printed number is read back**, if it fits. -/
theorem strtoll_decimal {n : ℕ} (hn : n < 2 ^ 63) {rest : CStr}
    (hrest : ∀ c, rest.head? = some c → isdigit c = false) :
    strtoll (decimal n ++ rest) = ((n : ℤ), rest, false) := by
  have hscan := strtoScan_digits (decimal_ne_nil n) (fun c hc ↦ isdigit_of_mem_decimal hc) hrest
  rw [strtoll_of_digits (by rw [hscan]; exact decimal_ne_nil n), hscan]
  simp only [signedVal, Bool.false_eq_true, if_false, digitsVal_decimal]
  rw [if_neg (by omega), if_neg (by omega)]

theorem decimal_eq_decimalInt (n : ℕ) : decimal n = decimalInt n := by
  rw [decimalInt, if_neg (by omega), Int.natAbs_natCast]

theorem length_decimal_le : ∀ {k n : ℕ}, 0 < k → n < 10 ^ k → (decimal n).length ≤ k
  | k + 1, n, _, hn => by
    rw [decimal_eq]
    split
    · exact Nat.succ_pos k
    · next hge =>
      have hk : 0 < k := by
        by_contra hzero
        obtain rfl : k = 0 := by omega
        omega
      have hdiv : n / 10 < 10 ^ k := Nat.div_lt_of_lt_mul (by rw [← Nat.pow_succ']; exact hn)
      rw [List.length_append, List.length_singleton]
      exact Nat.succ_le_succ (length_decimal_le hk hdiv)

/-! ## Numbers that are the whole text -/

/-- The text is an integer up to its end, which is what the conversions can ask for. -/
def WholeInt (s : CStr) (n : ℤ) : Prop := DenotesInt s n ∧ ∀ c ∈ s.getLast?, isspace c = false

/-- **The conversions see a whole number** where the scan ends at the end. -/
theorem wholeInt_iff (s : CStr) (n : ℤ) :
    WholeInt s n ↔ (strtoScan s).2.1 ≠ [] ∧ (strtoScan s).2.2 = [] ∧
      n = signedVal (strtoScan s).1 (strtoScan s).2.1 := by
  constructor
  · rintro ⟨hden, hlast⟩
    obtain ⟨hne, -, hn⟩ := (denotesInt_iff s n).mp hden
    refine ⟨hne, ?_, hn⟩
    obtain ⟨blanks, sign, ds, trail, rfl, hblanks, htrail, hds, hdigits, hsign⟩ := hden
    rw [strtoScan_eq hblanks htrail hds hdigits (hsign.imp And.left And.left)]
    by_contra htne
    have hget : (blanks ++ (sign ++ (ds ++ trail))).getLast? = some (trail.getLast htne) := by
      rw [← List.append_assoc, ← List.append_assoc, List.getLast?_append_of_ne_nil _ htne,
        List.getLast?_eq_some_getLast htne]
    have hspace := htrail _ (List.getLast_mem htne)
    rw [hlast _ hget] at hspace
    cases hspace
  · rintro ⟨hne, hrest, hn⟩
    have hden : DenotesInt s n := (denotesInt_iff s n).mpr ⟨hne, by rw [hrest]; rfl, hn⟩
    refine ⟨hden, fun c hc ↦ ?_⟩
    obtain ⟨blanks, sign, ds, trail, rfl, hblanks, htrail, hds, hdigits, hsign⟩ := hden
    rw [strtoScan_eq hblanks htrail hds hdigits (hsign.imp And.left And.left)] at hrest
    obtain rfl : trail = [] := hrest
    rw [List.append_nil, ← List.append_assoc, List.getLast?_append_of_ne_nil _ hds] at hc
    exact (isdigit_spec (hdigits c (List.mem_of_getLast? hc))).1

/-- There is something before the end of the digits. -/
theorem ne_nil_of_digits {s : CStr} (h : (strtoScan s).2.1 ≠ []) : s ≠ [] := by
  rintro rfl
  exact h rfl

/-- **`strtoll` takes the whole text** if that is a number in its range. -/
theorem strtoll_whole_iff {s : CStr} {n : ℤ} :
    s ≠ [] ∧ strtoll s = (n, [], false) ↔ WholeInt s n ∧ -2 ^ 63 ≤ n ∧ n < 2 ^ 63 := by
  rw [wholeInt_iff]
  by_cases hds : (strtoScan s).2.1 = []
  · rw [strtoll_of_nil hds]
    constructor
    · rintro ⟨hne, h⟩
      cases h
      exact (hne rfl).elim
    · rintro ⟨⟨hne, -⟩, -⟩
      exact (hne hds).elim
  · rw [strtoll_of_digits hds]
    have hne := ne_nil_of_digits hds
    generalize signedVal (strtoScan s).1 (strtoScan s).2.1 = m
    generalize (strtoScan s).2.2 = ep
    split
    · next hlo =>
      constructor
      · rintro ⟨-, h⟩
        cases h
      · rintro ⟨⟨-, -, rfl⟩, hlo', -⟩
        omega
    · split
      · next hhi =>
        constructor
        · rintro ⟨-, h⟩
          cases h
        · rintro ⟨⟨-, -, rfl⟩, -, hhi'⟩
          omega
      · next hlo hhi =>
        constructor
        · rintro ⟨-, h⟩
          cases h
          exact ⟨⟨hds, rfl, rfl⟩, by omega, by omega⟩
        · rintro ⟨⟨-, rfl, rfl⟩, -, -⟩
          exact ⟨hne, rfl⟩

/-- **`strtoull` takes the whole text** if that is a number in its range or the opposite of one,
which is wrapped. -/
theorem strtoull_whole_iff {s : CStr} {m : ℕ} :
    s ≠ [] ∧ strtoull s = (m, [], false) ↔
      ∃ n, WholeInt s n ∧ -2 ^ 64 < n ∧ n < 2 ^ 64 ∧ (m : ℤ) = n % 2 ^ 64 := by
  simp only [wholeInt_iff]
  by_cases hds : (strtoScan s).2.1 = []
  · rw [strtoull_of_nil hds]
    constructor
    · rintro ⟨hne, h⟩
      cases h
      exact (hne rfl).elim
    · rintro ⟨n, ⟨hne, -⟩, -⟩
      exact (hne hds).elim
  · rw [strtoull_of_digits hds, signedVal]
    have hne := ne_nil_of_digits hds
    generalize digitsVal (strtoScan s).2.1 = v
    generalize (strtoScan s).2.2 = ep
    generalize (strtoScan s).1 = neg
    split
    · next hhi =>
      constructor
      · rintro ⟨-, h⟩
        cases h
      · rintro ⟨n, ⟨-, -, hn⟩, hlo, hhi', -⟩
        cases neg with
        | true =>
          rw [if_pos rfl] at hn
          omega
        | false =>
          rw [if_neg Bool.false_ne_true] at hn
          omega
    · next hhi =>
      have hwrap : (((if neg then (2 ^ 64 - v) % 2 ^ 64 else v) : ℕ) : ℤ)
          = (if neg then -(v : ℤ) else v) % 2 ^ 64 := by
        cases neg with
        | true =>
          simp only [if_true]
          omega
        | false =>
          simp only [Bool.false_eq_true, if_false]
          omega
      constructor
      · rintro ⟨-, h⟩
        cases h
        refine ⟨_, ⟨hds, rfl, rfl⟩, ?_, ?_, hwrap⟩
        · split <;> omega
        · split <;> omega
      · rintro ⟨n, ⟨-, rfl, rfl⟩, -, -, hm⟩
        exact ⟨hne, by rw [Int.ofNat.inj (hwrap.trans hm.symm)]⟩

theorem WholeInt.unique {s : CStr} {m n : ℤ} (hm : WholeInt s m) (hn : WholeInt s n) : m = n :=
  ((wholeInt_iff s m).mp hm).2.2.trans ((wholeInt_iff s n).mp hn).2.2.symm

/-- A minus sign at the beginning. -/
theorem WholeInt.nonpos {s : CStr} {n : ℤ} (h : WholeInt s n) (hminus : s.head? = some minus) :
    n ≤ 0 := by
  obtain ⟨-, -, rfl⟩ := (wholeInt_iff s n).mp h
  obtain ⟨t, rfl⟩ := List.head?_eq_some_iff.mp hminus
  have hneg : (strtoScan (minus :: t)).1 = true := rfl
  rw [hneg, signedVal, if_pos rfl]
  omega

/-- A printed number is read back. -/
theorem wholeInt_decimalInt (n : ℤ) : WholeInt (decimalInt n) n := by
  have hdigits : ∀ c ∈ decimal n.natAbs, isdigit c = true := fun _ ↦ isdigit_of_mem_decimal
  have hne := decimal_ne_nil n.natAbs
  refine ⟨?_, fun c hc ↦ ?_⟩
  · rw [decimalInt]
    split
    · refine ⟨[], [minus], decimal n.natAbs, [], by simp, by simp, by simp, hne, hdigits,
        .inl ⟨rfl, ?_⟩⟩
      rw [digitsVal_decimal]
      omega
    · refine ⟨[], [], decimal n.natAbs, [], by simp, by simp, by simp, hne, hdigits,
        .inr ⟨.inl rfl, ?_⟩⟩
      rw [digitsVal_decimal]
      omega
  · have hlast : (decimalInt n).getLast? = (decimal n.natAbs).getLast? := by
      rw [decimalInt]
      split
      · exact List.getLast?_append_of_ne_nil [minus] hne
      · rfl
    rw [hlast] at hc
    exact (isdigit_spec (hdigits c (List.mem_of_getLast? hc))).1

theorem length_decimalInt_le {k : ℕ} {n : ℤ} (hk : 0 < k) (hn : n.natAbs < 10 ^ k) :
    (decimalInt n).length ≤ k + 1 := by
  have hlen := length_decimal_le hk hn
  rw [decimalInt]
  split
  · exact Nat.succ_le_succ hlen
  · exact Nat.le_succ_of_le hlen

/-! ## A number at the start of a text -/

/-- What `strtoull` sees of a text, and the rest of it, which begins with something else. -/
theorem strtoScan_parts {s : CStr} (hne : (strtoScan s).2.1 ≠ []) :
    ∃ number, s = number ++ (strtoScan s).2.2 ∧
      strtoScan number = ((strtoScan s).1, (strtoScan s).2.1, []) ∧
      ∀ c ∈ (strtoScan s).2.2.head?, isdigit c = false := by
  generalize ht : s.dropWhile isspace = t
  have hs : s = s.takeWhile isspace ++ t := by rw [← ht, List.takeWhile_append_dropWhile]
  have hblanks : ∀ c ∈ s.takeWhile isspace, isspace c := fun c hc ↦ List.mem_takeWhile_imp hc
  obtain ⟨sign, t', rfl, hsign, hneg, htail⟩ : ∃ sign t', t = sign ++ t' ∧
      (sign = [minus] ∨ sign = [] ∨ sign = [0x2b]) ∧ (t.head? == some minus) = (sign == [minus]) ∧
      (if t.head? = some minus ∨ t.head? = some 0x2b then t.tail else t) = t' := by
    by_cases hm : t.head? = some minus
    · obtain ⟨t', rfl⟩ := List.head?_eq_some_iff.mp hm
      exact ⟨[minus], t', rfl, .inl rfl, rfl, if_pos (.inl hm)⟩
    · have hneg : (t.head? == some minus) = false := by simpa using hm
      by_cases hp : t.head? = some 0x2b
      · obtain ⟨t', rfl⟩ := List.head?_eq_some_iff.mp hp
        exact ⟨[0x2b], t', rfl, .inr (.inr rfl), rfl, if_pos (.inr hp)⟩
      · exact ⟨[], t, rfl, .inr (.inl rfl), hneg, if_neg (not_or.mpr ⟨hm, hp⟩)⟩
  have hscan : strtoScan s = (sign == [minus], t'.takeWhile isdigit, t'.dropWhile isdigit) := by
    rw [strtoScan, ht, htail, hneg]
  rw [hscan] at hne ⊢
  refine ⟨s.takeWhile isspace ++ (sign ++ (t'.takeWhile isdigit ++ [])), ?_, ?_, ?_⟩
  · rw [List.append_nil, List.append_assoc, List.append_assoc, List.takeWhile_append_dropWhile]
    exact hs
  · exact strtoScan_eq hblanks (List.forall_mem_nil _) hne
      (fun c hc ↦ List.mem_takeWhile_imp hc) hsign
  · intro c hc
    have hhead := List.head?_dropWhile_not isdigit t'
    rw [Option.mem_def.mp hc] at hhead
    simpa using hhead

/-- What follows a number does not matter, if it does not begin with a digit. -/
theorem strtoScan_append {number rest : CStr} (hne : (strtoScan number).2.1 ≠ [])
    (hend : (strtoScan number).2.2 = []) (hrest : ∀ c ∈ rest.head?, isdigit c = false) :
    strtoScan (number ++ rest) = ((strtoScan number).1, (strtoScan number).2.1, rest) := by
  generalize ht : number.dropWhile isspace = t
  have htne : t ≠ [] := by
    rintro rfl
    rw [strtoScan, ht] at hne
    exact hne rfl
  obtain ⟨d, t, rfl⟩ := List.exists_cons_of_ne_nil htne
  have hdrop : (number ++ rest).dropWhile isspace = d :: t ++ rest := by
    rw [List.dropWhile_append, ht]
    rfl
  have hdigits : ∀ ds : CStr, ds.dropWhile isdigit = [] →
      (ds ++ rest).takeWhile isdigit = ds.takeWhile isdigit ∧
        (ds ++ rest).dropWhile isdigit = rest := by
    intro ds hds
    have hall := List.dropWhile_eq_nil_iff.mp hds
    rw [takeWhile_append_of_all hall hrest, dropWhile_append_of_all hall hrest]
    exact ⟨(List.takeWhile_eq_self_iff.mpr hall).symm, rfl⟩
  have hskip : (if (d :: t ++ rest).head? = some minus ∨ (d :: t ++ rest).head? = some 0x2b then
        (d :: t ++ rest).tail else d :: t ++ rest) =
      (if (d :: t).head? = some minus ∨ (d :: t).head? = some 0x2b then (d :: t).tail
        else d :: t) ++ rest := by
    by_cases hsign : (d :: t).head? = some minus ∨ (d :: t).head? = some 0x2b
    · rw [if_pos hsign]
      exact if_pos hsign
    · rw [if_neg hsign]
      exact if_neg hsign
  rw [strtoScan, ht] at hend
  obtain ⟨htake, hdrop'⟩ := hdigits _ hend
  rw [strtoScan, hdrop, hskip, htake, hdrop', strtoScan, ht]
  rfl

/-- A text that `strtoull` reads to its end. -/
structure UnsignedText (number : CStr) (n : ℕ) : Prop where
  digits : (strtoScan number).2.1 ≠ []
  value : strtoull number = (n, [], false)

/-- **`strtoull` reads the number at the start of a text**, and what follows it begins with
something else. -/
theorem strtoull_number_iff {s ep : CStr} {n : ℕ} :
    (strtoScan s).2.1 ≠ [] ∧ strtoull s = (n, ep, false) ↔
      ∃ number, s = number ++ ep ∧ UnsignedText number n ∧ ∀ c ∈ ep.head?, isdigit c = false := by
  constructor
  · rintro ⟨hdigits, h⟩
    obtain ⟨number, hs, hscan, hnext⟩ := strtoScan_parts hdigits
    have hne : (strtoScan number).2.1 ≠ [] := by rw [hscan]; exact hdigits
    have hep : (strtoScan s).2.2 = ep := by
      rw [strtoull_of_digits hdigits] at h
      split at h
      · exact (Prod.mk.inj (Prod.mk.inj h).2).1
      · exact (Prod.mk.inj (Prod.mk.inj h).2).1
    refine ⟨number, hep ▸ hs, ⟨hne, ?_⟩, hep ▸ hnext⟩
    rw [strtoull_of_digits hdigits] at h
    rw [strtoull_of_digits hne, hscan]
    split at h
    · cases (Prod.mk.inj (Prod.mk.inj h).2).2
    · next hrange => rw [if_neg hrange, (Prod.mk.inj h).1]
  · rintro ⟨number, rfl, ⟨hne, h⟩, hnext⟩
    rw [strtoull_of_digits hne] at h
    split at h
    · cases (Prod.mk.inj (Prod.mk.inj h).2).2
    · next hrange =>
      have hscan := strtoScan_append hne (Prod.mk.inj (Prod.mk.inj h).2).1 hnext
      have hdigits : (strtoScan (number ++ ep)).2.1 ≠ [] := by rw [hscan]; exact hne
      refine ⟨hdigits, ?_⟩
      rw [strtoull_of_digits hdigits, hscan, if_neg hrange, (Prod.mk.inj h).1]

/-- A number other than zero has digits. -/
theorem strtoScan_digits_ne_nil {s ep : CStr} {n : ℕ} (hn : n ≠ 0)
    (h : strtoull s = (n, ep, false)) : (strtoScan s).2.1 ≠ [] := by
  intro hnil
  rw [strtoull_of_nil hnil] at h
  exact hn (Prod.mk.inj h).1.symm

theorem strtoull_parts {s ep : CStr} {n : ℕ} (hn : n ≠ 0) :
    strtoull s = (n, ep, false) ↔ ∃ number, s = number ++ ep ∧
      strtoull number = (n, [], false) ∧ ∀ c ∈ ep.head?, isdigit c = false := by
  constructor
  · intro h
    obtain ⟨number, hs, hnumber, hnext⟩ :=
      strtoull_number_iff.mp ⟨strtoScan_digits_ne_nil hn h, h⟩
    exact ⟨number, hs, hnumber.value, hnext⟩
  · rintro ⟨number, hs, h, hnext⟩
    exact (strtoull_number_iff.mpr ⟨number, hs, ⟨strtoScan_digits_ne_nil hn h, h⟩, hnext⟩).2

/-- **The end of the number is the start of the text** only if there is no number. -/
theorem strtoull_end_eq_iff {s : CStr} :
    (strtoull s).2.1.length = s.length ↔ (strtoScan s).2.1 = [] := by
  constructor
  · intro hlen
    by_contra hne
    obtain ⟨number, hs, hscan, -⟩ := strtoScan_parts hne
    have hnumber : number ≠ [] := by
      rintro rfl
      exact hne (congrArg (fun r ↦ r.2.1) hscan).symm
    have hend : (strtoull s).2.1 = (strtoScan s).2.2 := by
      rw [strtoull_of_digits hne]
      split
      · rfl
      · rfl
    have hcut := congrArg List.length hs
    rw [List.length_append] at hcut
    have hpos := List.length_pos_iff.mpr hnumber
    rw [hend] at hlen
    omega
  · intro hnil
    rw [strtoull_of_nil hnil]

/-- The characters of a number. -/
theorem UnsignedText.mem {number : CStr} {n : ℕ} (h : UnsignedText number n) {c : UInt8}
    (hc : c ∈ number) : isspace c = true ∨ c = minus ∨ c = 0x2b ∨ isdigit c = true := by
  have hend : (strtoScan number).2.2 = [] := by
    have hvalue := h.value
    rw [strtoull_of_digits h.digits] at hvalue
    split at hvalue
    · cases (Prod.mk.inj (Prod.mk.inj hvalue).2).2
    · exact (Prod.mk.inj (Prod.mk.inj hvalue).2).1
  rw [strtoScan] at hend
  dsimp only at hend
  rw [← List.takeWhile_append_dropWhile (p := isspace) (l := number), List.mem_append] at hc
  obtain hc | hc := hc
  · exact .inl (List.mem_takeWhile_imp hc)
  have hall := List.dropWhile_eq_nil_iff.mp hend
  split at hall
  · next hsign =>
    cases hrest : number.dropWhile isspace with
    | nil => rw [hrest] at hc; cases hc
    | cons d rest =>
      rw [hrest] at hc hsign hall
      obtain rfl | hc := List.mem_cons.mp hc
      · rw [List.head?_cons, Option.some.injEq, Option.some.injEq] at hsign
        exact hsign.elim (fun h ↦ .inr (.inl h)) fun h ↦ .inr (.inr (.inl h))
      · exact .inr (.inr (.inr (hall c hc)))
  · exact .inr (.inr (.inr (hall c hc)))

/-- Digits are read up to their end, and to the largest number at most. -/
theorem strtoull_digits {ds rest : CStr} (hne : ds ≠ []) (hds : ∀ c ∈ ds, isdigit c = true)
    (hrest : ∀ c ∈ rest.head?, isdigit c = false) :
    (strtoull (ds ++ rest)).1 = min (digitsVal ds) (2 ^ 64 - 1) ∧
      (strtoull (ds ++ rest)).2.1 = rest := by
  have hscan := strtoScan_digits hne hds hrest
  rw [strtoull_of_digits (by rw [hscan]; exact hne), hscan]
  split
  · next hlarge => exact ⟨(Nat.min_eq_right (Nat.le_of_lt hlarge)).symm, rfl⟩
  · next hsmall => exact ⟨(Nat.min_eq_left (Nat.not_lt.mp hsmall)).symm, rfl⟩

/-- A printed number is one. -/
theorem unsignedText_decimal {n : ℕ} (hn : n < 2 ^ 64) : UnsignedText (decimal n) n := by
  have hscan : strtoScan (decimal n ++ []) = (false, decimal n, []) :=
    strtoScan_digits (decimal_ne_nil n) (fun c ↦ isdigit_of_mem_decimal) fun c h ↦ by cases h
  rw [List.append_nil] at hscan
  refine ⟨by rw [hscan]; exact decimal_ne_nil n, ?_⟩
  rw [strtoull_of_digits (by rw [hscan]; exact decimal_ne_nil n), hscan, digitsVal_decimal,
    if_neg (by omega)]
  rfl

end Rustyaxe
