import Rustyaxe.Location.RoundTrip

/-!
# Resolved locations

`rr_location_resolve` takes measured coordinates, or else the middle of a grid square, and gives the
locator of six characters for them.

The locator of a grid square is the square itself or its middle (`locator_center`).  For measured
coordinates it need not be valid: the north pole and the antimeridian are on the closed ends of the
last field, and because the size of the cells of the third pair is cut off, there is a strip at the
upper end of every square that is in a cell behind the last one
(`rrLocationResolve_valid_iff`).
-/

set_option autoImplicit false

namespace Rustyaxe

/-! ## The code -/

/-- What `sscanf` with `" %lf , %lf %c"` returns and stores; a number is `none` if it is not
finite. -/
structure Scanned where
  count : ℤ
  lat : Option ℚ
  lon : Option ℚ

/-- `rr_location_t` -/
structure RrLocation where
  latitude : ℚ
  longitude : ℚ
  valid : Bool
  approximate : Bool
  locator : CStr
  deriving DecidableEq, Repr

/-- The coordinates, if they are measured. -/
def measured (sscanf : CStr → Scanned) (coordinates : Option CStr) : Option (ℚ × ℚ) := do
  let s := sscanf (← coordinates)
  if s.count ≠ 2 then none
  else
    let lat ← s.lat
    let lon ← s.lon
    if -90 ≤ lat ∧ lat ≤ 90 ∧ -180 ≤ lon ∧ lon ≤ 180 then some (lat, lon) else none

/-- The second half of `rr_location_resolve`. -/
def locate (approximate : Bool) (lat lon : ℚ) : Option RrLocation :=
  let locator := latlon2maidenhead ⟨lat, lon, 3, false⟩
  if locator.length ≠ 6 then none else some ⟨lat, lon, true, approximate, locator⟩

/-- `rr_location_resolve` -/
def rrLocationResolve (sscanf : CStr → Scanned) (coordinates grid : Option CStr) :
    Option RrLocation :=
  match measured sscanf coordinates with
  | some (lat, lon) => locate false lat lon
  | none =>
    if rrGridValid grid = false then none
    else
      let center := maidenhead2latlon grid
      if center.error then none else locate true center.latitude center.longitude

/-! ## Grid squares -/

theorem latlon2maidenhead_six (lat lon : ℚ) : latlon2maidenhead ⟨lat, lon, 3, false⟩ =
    (locatorLoop 0 (cellSizes.take 3) (lon + 180) (lat + 90)).takeWhile (· ≠ 0) := by
  have hprecision : (3 : UInt8).toNat = 3 := by decide
  rw [latlon2maidenhead, hprecision]
  norm_num

theorem gridCharOk_toupper (i : ℕ) (c : UInt8) : gridCharOk i (toupper c) = gridCharOk i c := by
  have htwice : ∀ b : UInt8, toupper (toupper b) = toupper b := forall_byte (by decide +kernel)
  rw [gridCharOk, gridCharOk, htwice]

/-- A string of six is valid when its characters are. -/
theorem rrGridValid_six {s : CStr} (hlen : s.length = 6) :
    rrGridValid (some s) = true ↔ ∀ i < 6, gridCharOk i (s.getD i 0) = true := by
  refine ⟨fun h i hi ↦ gridCharOk_of_valid h (hlen ▸ hi), fun h ↦ ?_⟩
  rw [rrGridValid, hlen, Bool.and_eq_true, List.all_eq_true]
  refine ⟨rfl, fun c hc ↦ ?_⟩
  obtain ⟨i, hi, hget⟩ := List.getElem_of_mem hc
  rw [List.length_zipIdx] at hi
  rw [← hget, List.getElem_zipIdx]
  simpa [hi] using h i (hlen ▸ hi)

/-- **The locator of a grid square** is valid: it is the square, or its middle. -/
theorem locator_center {grid : CStr} (hvalid : rrGridValid (some grid) = true) :
    rrGridValid (some (latlon2maidenhead
      ⟨coordinateAt 1 (filled grid) 1 - 90, coordinateAt 2 (filled grid) 0 - 180, 3, false⟩)) =
      true := by
  have hloop : locatorLoop 0 (cellSizes.take 3) (coordinateAt 2 (filled grid) 0)
      (coordinateAt 1 (filled grid) 1) = ((filled grid).map toupper).take 6 := by
    have hthree : cellSizes.take 3 = (cellSizes.take 4).take 3 := by simp [List.take_take]
    rw [hthree, locatorLoop_take, locatorLoop_padded hvalid, List.take_take]
    norm_num
  have hlen : (((filled grid).map toupper).take 6).length = 6 := by
    rw [List.length_take, List.length_map, length_padded hvalid]
    norm_num
  have hchar {i : ℕ} (hi : i < 6) : gridCharOk i ((((filled grid).map toupper).take 6).getD i 0) =
      true := by
    have hlt : i < (filled grid).length := by
      rw [length_padded hvalid]
      omega
    have hget : (((filled grid).map toupper).take 6).getD i 0 =
        toupper ((filled grid).getD i 0) := by
      simp [hi, hlt]
    rw [hget, gridCharOk_toupper]
    exact gridCharOk_filled hvalid i (by omega)
  have hends : (((filled grid).map toupper).take 6).takeWhile (· ≠ 0) =
      ((filled grid).map toupper).take 6 := by
    refine List.takeWhile_eq_self_iff.mpr fun c hc ↦ decide_eq_true ?_
    rintro rfl
    obtain ⟨i, hi, hzero⟩ := List.getElem_of_mem hc
    have hok := hchar (hlen ▸ hi)
    rw [List.getD_eq_getElem _ _ hi, hzero, gridCharOk] at hok
    split at hok
    · rw [Bool.and_eq_true] at hok
      exact absurd hok.1 (by decide)
    · exact absurd hok (by decide)
  rw [latlon2maidenhead_six, sub_add_cancel, sub_add_cancel, hloop, hends]
  exact (rrGridValid_six hlen).mpr fun i hi ↦ hchar hi

/-! ## Measured coordinates -/

/-- The point is in a cell: not at the upper end of the last field, and not behind the last cell of
a square. -/
structure InsideCells (lat lon : ℚ) : Prop where
  lat_lt : lat < 90
  lat_fract : Int.fract lat < 0.999996
  lon_lt : lon < 180
  lon_fract : Int.fract (lon / 2) < 0.999996

/-- **Three pairs for one coordinate.**  The first letter is wrong at the upper end, and the second
one behind the last cell. -/
theorem cellChars_three (unit sub : ℚ) {v : ℚ} (hunit : 0 < unit) (hsub : 0 < sub)
    (hfits : unit ≤ 25 * sub) (hv : 0 ≤ v) (hend : v ≤ 180 * unit) :
    ∃ a b c : ℕ, cellChars 0 [10 * unit, unit, sub] v =
        [UInt8.ofNat (65 + a), UInt8.ofNat (48 + b), UInt8.ofNat (65 + c)] ∧
      a ≤ 18 ∧ b ≤ 9 ∧ c ≤ 24 ∧ (a < 18 ↔ v < 180 * unit) ∧
      (c < 24 ↔ Int.fract (v / unit) < 24 * sub / unit) := by
  have hfield : 0 < 10 * unit := by linarith
  obtain ⟨a, hlow₁, hhigh₁⟩ := exists_cell hfield hv
  obtain ⟨b, hlow₂, hhigh₂⟩ := exists_cell hunit (sub_nonneg.mpr hlow₁)
  obtain ⟨c, hlow₃, hhigh₃⟩ := exists_cell hsub (sub_nonneg.mpr hlow₂)
  have hfract : Int.fract (v / unit) = (v - a * (10 * unit) - b * unit) / unit := by
    refine Int.fract_eq_iff.mpr ⟨div_nonneg (sub_nonneg.mpr hlow₂) hunit.le, ?_, 10 * a + b, ?_⟩
    · rw [div_lt_one hunit]
      linarith
    · push_cast
      field_simp
      ring
  refine ⟨a, b, c, ?_, ?_, ?_, ?_, ?_, ?_⟩
  · rw [cellChars, locatorChar_letter 0 hfield hlow₁ hhigh₁, (truncate_div hfield hlow₁ hhigh₁).2]
    rw [cellChars, locatorChar_digit 0 hunit hlow₂ hhigh₂, (truncate_div hunit hlow₂ hhigh₂).2]
    rw [cellChars, locatorChar_letter 1 hsub hlow₃ hhigh₃, cellChars]
  · have : (a : ℚ) * (10 * unit) ≤ 18 * (10 * unit) := by linarith
    exact_mod_cast le_of_mul_le_mul_right this hfield
  · have : (b : ℚ) * unit < 10 * unit := by linarith
    have := lt_of_mul_lt_mul_right this hunit.le
    norm_cast at this
    omega
  · have : (c : ℚ) * sub < 25 * sub := by linarith
    have := lt_of_mul_lt_mul_right this hsub.le
    norm_cast at this
    omega
  · constructor
    · intro ha
      have : ((a : ℚ) + 1) * (10 * unit) ≤ 18 * (10 * unit) :=
        mul_le_mul_of_nonneg_right (by exact_mod_cast ha) hfield.le
      linarith
    · intro hlt
      have : (a : ℚ) * (10 * unit) < 18 * (10 * unit) := by linarith
      exact_mod_cast lt_of_mul_lt_mul_right this hfield.le
  · rw [hfract, div_lt_div_iff_of_pos_right hunit]
    constructor
    · intro hc
      have : ((c : ℚ) + 1) * sub ≤ 24 * sub :=
        mul_le_mul_of_nonneg_right (by exact_mod_cast hc) hsub.le
      linarith
    · intro hlt
      have : (c : ℚ) * sub < 24 * sub := by linarith
      exact_mod_cast lt_of_mul_lt_mul_right this hsub.le

theorem gridCharOk_letter_iff {i n : ℕ} (hi : i / 2 % 2 = 0) (hn : n ≤ 24) :
    gridCharOk i (UInt8.ofNat (65 + n)) = true ↔ n < if i < 2 then 18 else 24 := by
  have hupper : ∀ n ≤ 24, toupper (UInt8.ofNat (65 + n)) = UInt8.ofNat (65 + n) ∧
      (UInt8.ofNat (65 + n)).toNat = 65 + n ∧ 0x41 ≤ UInt8.ofNat (65 + n) := by decide +kernel
  obtain ⟨hsame, hnat, hlow⟩ := hupper n hn
  rw [gridCharOk, if_pos hi, hsame, hnat, decide_eq_true hlow, Bool.true_and, decide_eq_true_eq]
  omega

theorem gridCharOk_ofNat_digit {i n : ℕ} (hi : i / 2 % 2 ≠ 0) (hn : n ≤ 9) :
    gridCharOk i (UInt8.ofNat (48 + n)) = true := by
  rw [gridCharOk, if_neg hi]
  revert n
  decide +kernel

/-- A locator of six characters, made from the places of the cells. -/
theorem rrGridValid_cells {a b c d e f : ℕ} (ha : a ≤ 18) (hb : b ≤ 9) (hc : c ≤ 24) (hd : d ≤ 18)
    (he : e ≤ 9) (hf : f ≤ 24) : rrGridValid (some [UInt8.ofNat (65 + a), UInt8.ofNat (65 + d),
      UInt8.ofNat (48 + b), UInt8.ofNat (48 + e), UInt8.ofNat (65 + c), UInt8.ofNat (65 + f)]) =
      true ↔ (a < 18 ∧ c < 24) ∧ d < 18 ∧ f < 24 := by
  rw [rrGridValid_six rfl]
  constructor
  · intro h
    have h₀ := (gridCharOk_letter_iff (by decide) (by omega)).mp (h 0 (by decide))
    have h₁ := (gridCharOk_letter_iff (by decide) (by omega)).mp (h 1 (by decide))
    have h₄ := (gridCharOk_letter_iff (by decide) (by omega)).mp (h 4 (by decide))
    have h₅ := (gridCharOk_letter_iff (by decide) (by omega)).mp (h 5 (by decide))
    exact ⟨⟨h₀, h₄⟩, h₁, h₅⟩
  · rintro ⟨⟨ha', hc'⟩, hd', hf'⟩ i hi
    match i, hi with
    | 0, _ => exact (gridCharOk_letter_iff (by decide) (by omega)).mpr ha'
    | 1, _ => exact (gridCharOk_letter_iff (by decide) (by omega)).mpr hd'
    | 2, _ => exact gridCharOk_ofNat_digit (by decide) hb
    | 3, _ => exact gridCharOk_ofNat_digit (by decide) he
    | 4, _ => exact (gridCharOk_letter_iff (by decide) (by omega)).mpr hc'
    | 5, _ => exact (gridCharOk_letter_iff (by decide) (by omega)).mpr hf'

theorem ofNat_ne_zero :
    (∀ n ≤ 24, UInt8.ofNat (65 + n) ≠ 0) ∧ ∀ n ≤ 9, UInt8.ofNat (48 + n) ≠ 0 := by
  decide +kernel

/-- **The locator of measured coordinates** is valid when the point is in a cell. -/
theorem latlon2maidenhead_valid_iff {lat lon : ℚ} (hlat : -90 ≤ lat ∧ lat ≤ 90)
    (hlon : -180 ≤ lon ∧ lon ≤ 180) :
    rrGridValid (some (latlon2maidenhead ⟨lat, lon, 3, false⟩)) = true ↔ InsideCells lat lon := by
  have hsizes : cellSizes.take 3 = [(10 * 2, 10 * 1), (2, 1), (0.083333, 0.0416665)] := by
    norm_num [cellSizes]
  obtain ⟨a, b, c, hlonChars, ha, hb, hc, ha', hc'⟩ := cellChars_three 2 0.083333
    (v := lon + 180) (by norm_num) (by norm_num) (by norm_num) (by linarith)
    (by linarith)
  obtain ⟨d, e, f, hlatChars, hd, he, hf, hd', hf'⟩ := cellChars_three 1 0.0416665
    (v := lat + 90) (by norm_num) (by norm_num) (by norm_num) (by linarith)
    (by linarith)
  have hloop : locatorLoop 0 (cellSizes.take 3) (lon + 180) (lat + 90) =
      [UInt8.ofNat (65 + a), UInt8.ofNat (65 + d), UInt8.ofNat (48 + b), UInt8.ofNat (48 + e),
        UInt8.ofNat (65 + c), UInt8.ofNat (65 + f)] := by
    rw [hsizes, locatorLoop_eq]
    exact congrArg₂ interleave hlonChars hlatChars
  have hends : (locatorLoop 0 (cellSizes.take 3) (lon + 180) (lat + 90)).takeWhile (· ≠ 0) =
      locatorLoop 0 (cellSizes.take 3) (lon + 180) (lat + 90) := by
    rw [hloop]
    refine List.takeWhile_eq_self_iff.mpr fun x hx ↦ decide_eq_true ?_
    simp only [List.mem_cons, List.not_mem_nil, or_false] at hx
    obtain ⟨hletter, hdigit⟩ := ofNat_ne_zero
    rcases hx with rfl | rfl | rfl | rfl | rfl | rfl
    exacts [hletter a (by omega), hletter d (by omega), hdigit b hb, hdigit e he, hletter c hc,
      hletter f hf]
  have hlonFract : Int.fract ((lon + 180) / 2) = Int.fract (lon / 2) := by
    rw [show (lon + 180) / 2 = lon / 2 + 90 by ring, Int.fract_add_ofNat]
  have hlatFract : Int.fract ((lat + 90) / 1) = Int.fract lat := by
    rw [div_one, Int.fract_add_ofNat]
  rw [hlonFract] at hc'
  rw [hlatFract] at hf'
  rw [latlon2maidenhead_six, hends, hloop, rrGridValid_cells ha hb hc hd he hf, ha', hc', hd', hf']
  norm_num
  constructor
  · rintro ⟨⟨hlonEnd, hlonStrip⟩, hlatEnd, hlatStrip⟩
    exact ⟨by linarith, by linarith, by linarith, by linarith⟩
  · rintro ⟨hlatEnd, hlatStrip, hlonEnd, hlonStrip⟩
    exact ⟨⟨by linarith, by linarith⟩, by linarith, by linarith⟩

/-! ## Resolving -/

theorem measured_range {sscanf : CStr → Scanned} {coordinates : Option CStr} {lat lon : ℚ}
    (h : measured sscanf coordinates = some (lat, lon)) :
    (-90 ≤ lat ∧ lat ≤ 90) ∧ -180 ≤ lon ∧ lon ≤ 180 := by
  rw [measured] at h
  obtain ⟨text, -, h⟩ := Option.bind_eq_some_iff.mp h
  dsimp only at h
  split at h
  case isTrue => cases h
  case isFalse =>
    obtain ⟨lat', -, h⟩ := Option.bind_eq_some_iff.mp h
    obtain ⟨lon', -, h⟩ := Option.bind_eq_some_iff.mp h
    split at h
    case isTrue hrange =>
      obtain ⟨rfl, rfl⟩ := Prod.mk.inj (Option.some.inj h)
      exact ⟨⟨hrange.1, hrange.2.1⟩, hrange.2.2⟩
    case isFalse => cases h

theorem locate_eq_some {approximate : Bool} {lat lon : ℚ} {out : RrLocation}
    (h : locate approximate lat lon = some out) :
    out.locator = latlon2maidenhead ⟨lat, lon, 3, false⟩ := by
  rw [locate] at h
  split at h
  · cases h
  · rw [← Option.some.inj h]

/-- **A resolved locator is valid** exactly if the coordinates, where they are measured, are in a
cell. -/
theorem rrLocationResolve_valid_iff {sscanf : CStr → Scanned} {coordinates grid : Option CStr}
    {out : RrLocation} (h : rrLocationResolve sscanf coordinates grid = some out) :
    rrGridValid (some out.locator) = true ↔
      ∀ lat lon, measured sscanf coordinates = some (lat, lon) → InsideCells lat lon := by
  rw [rrLocationResolve] at h
  cases hmeasured : measured sscanf coordinates with
  | some p =>
    obtain ⟨lat, lon⟩ := p
    rw [hmeasured] at h
    obtain ⟨hlat, hlon⟩ := measured_range hmeasured
    rw [locate_eq_some h, latlon2maidenhead_valid_iff hlat hlon]
    constructor
    · rintro hin lat' lon' heq
      obtain ⟨rfl, rfl⟩ := Prod.mk.inj (Option.some.inj heq)
      exact hin
    · exact fun hin ↦ hin lat lon rfl
  | none =>
    rw [hmeasured] at h
    dsimp only at h
    split at h
    case isTrue => cases h
    case isFalse hgrid =>
      cases grid with
      | none => exact absurd rfl hgrid
      | some grid =>
        have hvalid : rrGridValid (some grid) = true := by simpa using hgrid
        rw [maidenhead2latlon_valid hvalid, if_neg Bool.false_ne_true] at h
        rw [locate_eq_some h]
        exact ⟨fun _ lat lon heq ↦ (by cases heq), fun _ ↦ locator_center hvalid⟩

/-- Whatever the text is, these coordinates are read from it. -/
def scansAs (lat lon : ℚ) : CStr → Scanned := fun _ ↦ ⟨2, some lat, some lon⟩

/-- London. -/
theorem rrLocationResolve_valid_iff_london :
    rrGridValid (some (lit "IO91WM")) = true ↔
      ∀ lat lon, measured (scansAs 51.5074 (-0.1278)) (some (lit "51.5074, -0.1278")) =
        some (lat, lon) → InsideCells lat lon := by
  have h : rrLocationResolve (scansAs 51.5074 (-0.1278)) (some (lit "51.5074, -0.1278")) none =
      some ⟨51.5074, -0.1278, true, false, lit "IO91WM"⟩ := by decide +kernel
  exact rrLocationResolve_valid_iff h

/-- The north pole is in the field behind the last one. -/
theorem not_rrGridValid_pole :
    rrLocationResolve (scansAs 90 0) (some (lit "90, 0")) none =
        some ⟨90, 0, true, false, lit "JS00AA"⟩ ∧
      rrGridValid (some (lit "JS00AA")) = false := by
  decide +kernel

end Rustyaxe
