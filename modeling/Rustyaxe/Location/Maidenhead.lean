import Mathlib.Tactic.Linarith
import Mathlib.Tactic.NormNum
import Rustyaxe.Dict.Accessors

/-!
# Maidenhead locators

`maidenhead2latlon` and `latlon2maidenhead` of `maidenhead.c`, with floating-point numbers read as
the rational numbers they stand for.

A locator has a pair of characters for every size of cells: the first of the pair divides the
longitude, the second the latitude.  The two coordinates have nothing to do with each other
(`locatorLoop_eq`), so everything about the characters is about the cells of one coordinate, whose
unit is the side of a square: one degree of latitude, or two degrees of longitude.
-/

set_option autoImplicit false

namespace Rustyaxe

/-! ## The code -/

/-- `Coordinates` -/
structure Coordinates where
  latitude : ℚ
  longitude : ℚ
  precision : UInt8
  error : Bool
  deriving DecidableEq, Repr

/-- `locator2_init` -/
def locatorInit : CStr := lit "LL55LL55LL"

/-- `complete_mh` -/
def completeMh (locator : CStr) : Option CStr :=
  let len := locator.length
  if 10 < len ∨ len < 4 then none
  else if len % 2 ≠ 0 then none
  else some (locator ++ locatorInit.drop len)

/-- `toupper(lp[i]) - 'A'` -/
def letterAt (lp : CStr) (i : ℕ) : ℤ := signedChar (toupper (lp.getD i 0)) - 65

/-- `lp[i] - '0'` -/
def digitAt (lp : CStr) (i : ℕ) : ℤ := signedChar (lp.getD i 0) - 48

/-- The latitude or the longitude that characters stand for, from the first of them on, before the
shift to degrees: `unit` is the side of a square. -/
def coordinateAt (unit : ℚ) (lp : CStr) (i : ℕ) : ℚ :=
  letterAt lp i * (10 * unit) + digitAt lp (i + 2) * unit + letterAt lp (i + 4) / (24 / unit) +
    digitAt lp (i + 6) / (240 / unit) + letterAt lp (i + 8) / (5760 / unit)

/-- `maidenhead2latlon` -/
def maidenhead2latlon (locator : Option CStr) : Coordinates :=
  let c : Coordinates := ⟨0, 0, 0, true⟩
  match locator with
  | none => c
  | some locator =>
    let len := locator.length
    if 10 < len ∨ len < 4 then c
    else if len % 2 ≠ 0 then c
    else
      match if len < 10 then completeMh locator else some locator with
      | none => c
      | some lp =>
        { latitude := coordinateAt 1 lp 1 - 90
          longitude := coordinateAt 2 lp 0 - 180
          precision := UInt8.ofNat (len / 2)
          error := false }

/-- `letterize` -/
def letterize (x : ℤ) : UInt8 := UInt8.ofInt x + 65

/-- `fmod` -/
def fmod (x y : ℚ) : ℚ := x - y * truncate (x / y)

/-- `LON_F` and `LAT_F`. -/
def cellSizes : List (ℚ × ℚ) :=
  [(20, 10), (2, 1), (0.083333, 0.0416665), (0.008333, 0.004166),
    (0.0003472083333333333, 0.0001735833333333333)]

/-- The `i`-th character for a coordinate. -/
def locatorChar (i : ℕ) (v f : ℚ) : UInt8 :=
  if i % 2 = 1 then UInt8.ofInt (truncate (v / f + 48)) else letterize (truncate (v / f))

/-- The loop of `latlon2maidenhead`, from a pair on. -/
def locatorLoop : (i : ℕ) → List (ℚ × ℚ) → (lon lat : ℚ) → CStr
  | _, [], _, _ => []
  | i, (lonF, latF) :: sizes, lon, lat =>
    locatorChar i lon lonF :: locatorChar i lat latF ::
      locatorLoop (i + 1) sizes (fmod lon lonF) (fmod lat latF)

/-- `latlon2maidenhead`: the locator ends at a `'\0'`, if there is one. -/
def latlon2maidenhead (c : Coordinates) : CStr :=
  let size := if 2 < c.precision.toNat ∧ c.precision.toNat ≤ 5 then c.precision.toNat * 2
    else if 5 ≤ c.precision.toNat then 10 else 4
  let size := min (size / 2 * 2) 10
  (locatorLoop 0 (cellSizes.take (size / 2)) (c.longitude + 180) (c.latitude + 90)).takeWhile
    (· ≠ 0)

/-- A character of a grid square. -/
def gridCharOk (i : ℕ) (c : UInt8) : Bool :=
  if i / 2 % 2 = 0 then
    0x41 ≤ toupper c && (toupper c).toNat < 0x41 + (if i < 2 then 18 else 24)
  else isdigit (toupper c)

/-- `rr_grid_valid` -/
def rrGridValid : (grid : Option CStr) → Bool
  | none => false
  | some grid =>
    (grid.length == 4 || grid.length == 6 || grid.length == 8 || grid.length == 10) &&
      grid.zipIdx.all fun c ↦ gridCharOk c.2 c.1

/-! ## One coordinate -/

/-- The characters for one coordinate. -/
def cellChars : (i : ℕ) → (sizes : List ℚ) → (v : ℚ) → CStr
  | _, [], _ => []
  | i, f :: sizes, v => locatorChar i v f :: cellChars (i + 1) sizes (fmod v f)

/-- Two strings of the same length, one character of each at a time. -/
def interleave : CStr → CStr → CStr
  | a :: s, b :: t => a :: b :: interleave s t
  | _, _ => []

/-- **The coordinates are independent.** -/
theorem locatorLoop_eq (i : ℕ) (sizes : List (ℚ × ℚ)) (lon lat : ℚ) :
    locatorLoop i sizes lon lat =
      interleave (cellChars i (sizes.map Prod.fst) lon) (cellChars i (sizes.map Prod.snd) lat) := by
  induction sizes generalizing i lon lat with
  | nil => rfl
  | cons f sizes ih => rw [locatorLoop, ih]; rfl

theorem locatorLoop_take (i n : ℕ) (sizes : List (ℚ × ℚ)) (lon lat : ℚ) :
    locatorLoop i (sizes.take n) lon lat = (locatorLoop i sizes lon lat).take (2 * n) := by
  induction n generalizing i sizes lon lat with
  | zero => rfl
  | succ n ih =>
    cases sizes with
    | nil => rfl
    | cons f sizes =>
      rw [List.take_succ_cons, locatorLoop, ih, locatorLoop, Nat.mul_succ, List.take_succ_cons,
        List.take_succ_cons]

theorem truncate_of_nonneg {x : ℚ} (h : 0 ≤ x) : truncate x = ⌊x⌋ := if_neg h.not_gt

/-- The cell that a coordinate is in, and where it is there. -/
theorem truncate_div {v f : ℚ} {n : ℕ} (hf : 0 < f) (hlow : n * f ≤ v) (hhigh : v < (n + 1) * f) :
    truncate (v / f) = n ∧ fmod v f = v - n * f := by
  have hv : 0 ≤ v := (mul_nonneg n.cast_nonneg hf.le).trans hlow
  have hfloor : truncate (v / f) = n := by
    rw [truncate_of_nonneg (div_nonneg hv hf.le), Int.floor_eq_iff]
    refine ⟨(le_div_iff₀ hf).mpr (by exact_mod_cast hlow), (div_lt_iff₀ hf).mpr ?_⟩
    exact_mod_cast hhigh
  refine ⟨hfloor, ?_⟩
  rw [fmod, hfloor, mul_comm]
  rfl

/-- Every coordinate is in a cell. -/
theorem exists_cell {v f : ℚ} (hf : 0 < f) (hv : 0 ≤ v) :
    ∃ n : ℕ, n * f ≤ v ∧ v < (n + 1) * f := by
  refine ⟨⌊v / f⌋₊, ?_, ?_⟩
  · exact (le_div_iff₀ hf).mp (Nat.floor_le (div_nonneg hv hf.le))
  · exact (div_lt_iff₀ hf).mp (Nat.lt_floor_add_one _)

theorem ofInt_natCast (n : ℕ) : UInt8.ofInt n = UInt8.ofNat n := by
  apply UInt8.toNat_inj.mp
  rw [UInt8.ofInt, UInt8.toNat_ofNat', UInt8.toNat_ofNat']
  omega

/-- The letter of a cell. -/
theorem locatorChar_letter {v f : ℚ} {n : ℕ} (i : ℕ) (hf : 0 < f) (hlow : n * f ≤ v)
    (hhigh : v < (n + 1) * f) : locatorChar (2 * i) v f = UInt8.ofNat (65 + n) := by
  rw [locatorChar, if_neg (by omega), (truncate_div hf hlow hhigh).1, letterize, ofInt_natCast,
    UInt8.ofNat_add, UInt8.add_comm]
  rfl

/-- The digit of a cell. -/
theorem locatorChar_digit {v f : ℚ} {n : ℕ} (i : ℕ) (hf : 0 < f) (hlow : n * f ≤ v)
    (hhigh : v < (n + 1) * f) : locatorChar (2 * i + 1) v f = UInt8.ofNat (48 + n) := by
  have hv : 0 ≤ v := (mul_nonneg n.cast_nonneg hf.le).trans hlow
  have hshift : truncate (v / f + 48) = (48 + n : ℕ) := by
    have hcell := (truncate_div hf hlow hhigh).1
    rw [truncate_of_nonneg (div_nonneg hv hf.le)] at hcell
    rw [truncate_of_nonneg (add_nonneg (div_nonneg hv hf.le) (by norm_num)),
      Int.floor_add_ofNat, hcell]
    push_cast
    exact add_comm _ _
  rw [locatorChar, if_pos (by omega), hshift, ofInt_natCast]

/-! ## Valid characters -/

/-- A letter of a valid locator is the place of a cell. -/
theorem gridCharOk_letter {i : ℕ} {c : UInt8} (hi : i / 2 % 2 = 0) (h : gridCharOk i c = true) :
    ∃ n : ℕ, n < (if i < 2 then 18 else 24) ∧ toupper c = UInt8.ofNat (65 + n) ∧
      signedChar (toupper c) - 65 = n := by
  rw [gridCharOk, if_pos hi, Bool.and_eq_true, decide_eq_true_eq, decide_eq_true_eq] at h
  have hlow : 65 ≤ (toupper c).toNat := h.1
  have hhigh : (toupper c).toNat < 89 := by
    have := h.2
    split at this <;> omega
  refine ⟨(toupper c).toNat - 65, by omega, ?_, ?_⟩
  · rw [Nat.add_sub_cancel' hlow, UInt8.ofNat_toNat]
  · have hsigned : ∀ b : UInt8, b.toNat < 128 → signedChar b = b.toNat :=
      forall_byte (by decide +kernel)
    rw [hsigned _ (by omega)]
    omega

/-- So is a digit. -/
theorem gridCharOk_digit {i : ℕ} {c : UInt8} (hi : i / 2 % 2 ≠ 0) (h : gridCharOk i c = true) :
    ∃ n : ℕ, n ≤ 9 ∧ toupper c = UInt8.ofNat (48 + n) ∧ signedChar c - 48 = n := by
  rw [gridCharOk, if_neg hi] at h
  have hdigit : ∀ b : UInt8, isdigit (toupper b) = true → 48 ≤ b.toNat ∧ b.toNat ≤ 57 ∧
      toupper b = b ∧ signedChar b = b.toNat := forall_byte (by decide +kernel)
  obtain ⟨hlow, hhigh, hupper, hsigned⟩ := hdigit c h
  refine ⟨c.toNat - 48, by omega, ?_, by omega⟩
  rw [hupper, Nat.add_sub_cancel' hlow, UInt8.ofNat_toNat]

/-- Every character of a valid locator is in order. -/
theorem gridCharOk_of_valid {grid : CStr} (h : rrGridValid (some grid) = true) {i : ℕ}
    (hi : i < grid.length) : gridCharOk i (grid.getD i 0) = true := by
  rw [rrGridValid, Bool.and_eq_true, List.all_eq_true] at h
  have hmem : (grid[i], i) ∈ grid.zipIdx := by
    rw [List.mem_zipIdx_iff_getElem?, List.getElem?_eq_getElem hi]
  rw [List.getD_eq_getElem _ _ hi]
  exact h.2 _ hmem

end Rustyaxe
