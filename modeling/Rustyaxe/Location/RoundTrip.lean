import Rustyaxe.Location.Maidenhead

/-!
# From a locator to a point and back

`maidenhead2latlon` takes the middle of the cell, and `latlon2maidenhead` divides by sizes of cells
that are a little too small.  What is lost at one pair of characters is added to what is divided by
the next one; after three pairs it is still less than the distance to the next cell
(`CellSizes`), so the first four pairs come back (`latlon2maidenhead_maidenhead2latlon`).
-/

set_option autoImplicit false

namespace Rustyaxe

/-! ## One coordinate -/

/-- Sizes for the third and the fourth pair that are too small, but not by so much that the last
cell is left. -/
structure CellSizes (unit sub ext : ℚ) : Prop where
  unit_pos : 0 < unit
  sub_pos : 0 < sub
  ext_pos : 0 < ext
  sub_le : sub ≤ unit / 24
  ext_le : ext ≤ unit / 240
  sub_fits : 23 * (unit / 24 - sub) + 9 * (unit / 240) + 23 * (unit / 5760) < sub
  ext_fits : 23 * (unit / 24 - sub) + 9 * (unit / 240 - ext) + 23 * (unit / 5760) < ext

theorem cellSizes_lat : CellSizes 1 0.0416665 0.004166 := by
  constructor <;> norm_num

theorem cellSizes_lon : CellSizes 2 0.083333 0.008333 := by
  constructor <;> norm_num

/-- **The first four characters of a coordinate** are the places of its cells. -/
theorem cellChars_eq {unit sub ext : ℚ} (h : CellSizes unit sub ext) {a b c d e : ℕ} (hb : b ≤ 9)
    (hc : c ≤ 23) (hd : d ≤ 9) (he : e ≤ 23) :
    cellChars 0 [10 * unit, unit, sub, ext]
      (a * (10 * unit) + b * unit + c / (24 / unit) + d / (240 / unit) + e / (5760 / unit)) =
    [UInt8.ofNat (65 + a), UInt8.ofNat (48 + b), UInt8.ofNat (65 + c), UInt8.ofNat (48 + d)] := by
  have hunit := h.unit_pos
  have hb' : (b : ℚ) * unit ≤ 9 * unit := mul_le_mul_of_nonneg_right (by exact_mod_cast hb) hunit.le
  have hc' : (c : ℚ) * unit ≤ 23 * unit :=
    mul_le_mul_of_nonneg_right (by exact_mod_cast hc) hunit.le
  have hd' : (d : ℚ) * unit ≤ 9 * unit := mul_le_mul_of_nonneg_right (by exact_mod_cast hd) hunit.le
  have he' : (e : ℚ) * unit ≤ 23 * unit :=
    mul_le_mul_of_nonneg_right (by exact_mod_cast he) hunit.le
  have hb₀ : (0 : ℚ) ≤ b * unit := mul_nonneg b.cast_nonneg hunit.le
  have hc₀ : (0 : ℚ) ≤ c * unit := mul_nonneg c.cast_nonneg hunit.le
  have hd₀ : (0 : ℚ) ≤ d * unit := mul_nonneg d.cast_nonneg hunit.le
  have he₀ : (0 : ℚ) ≤ e * unit := mul_nonneg e.cast_nonneg hunit.le
  -- what is lost at the third and the fourth pair
  have hsub : (c : ℚ) * (unit / 24 - sub) ≤ 23 * (unit / 24 - sub) :=
    mul_le_mul_of_nonneg_right (by exact_mod_cast hc) (sub_nonneg.mpr h.sub_le)
  have hsub₀ : (0 : ℚ) ≤ c * (unit / 24 - sub) :=
    mul_nonneg c.cast_nonneg (sub_nonneg.mpr h.sub_le)
  have hext : (d : ℚ) * (unit / 240 - ext) ≤ 9 * (unit / 240 - ext) :=
    mul_le_mul_of_nonneg_right (by exact_mod_cast hd) (sub_nonneg.mpr h.ext_le)
  have hext₀ : (0 : ℚ) ≤ d * (unit / 240 - ext) :=
    mul_nonneg d.cast_nonneg (sub_nonneg.mpr h.ext_le)
  have hsubFits := h.sub_fits
  have hextFits := h.ext_fits
  obtain ⟨r, hr⟩ : ∃ r : ℚ, r = c * unit / 24 + d * unit / 240 + e * unit / 5760 := ⟨_, rfl⟩
  have hvalue : a * (10 * unit) + b * unit + c / (24 / unit) + d / (240 / unit) +
      e / (5760 / unit) = a * (10 * unit) + (b * unit + r) := by
    rw [div_div_eq_mul_div, div_div_eq_mul_div, div_div_eq_mul_div, hr]
    ring
  have hfield : 0 < 10 * unit := by linarith
  have hlow₁ : a * (10 * unit) ≤ a * (10 * unit) + (b * unit + r) := by linarith
  have hhigh₁ : a * (10 * unit) + (b * unit + r) < (a + 1) * (10 * unit) := by linarith
  have hlow₂ : b * unit ≤ b * unit + r := by linarith
  have hhigh₂ : b * unit + r < (b + 1) * unit := by linarith
  have hlow₃ : c * sub ≤ r := by linarith
  have hhigh₃ : r < (c + 1) * sub := by linarith
  have hlow₄ : d * ext ≤ r - c * sub := by linarith
  have hhigh₄ : r - c * sub < (d + 1) * ext := by linarith
  rw [hvalue, cellChars, locatorChar_letter 0 hfield hlow₁ hhigh₁,
    (truncate_div hfield hlow₁ hhigh₁).2, add_sub_cancel_left]
  rw [cellChars, locatorChar_digit 0 hunit hlow₂ hhigh₂, (truncate_div hunit hlow₂ hhigh₂).2,
    add_sub_cancel_left]
  rw [cellChars, locatorChar_letter 1 h.sub_pos hlow₃ hhigh₃,
    (truncate_div h.sub_pos hlow₃ hhigh₃).2]
  rw [cellChars, locatorChar_digit 1 h.ext_pos hlow₄ hhigh₄, cellChars]

/-- The characters of a coordinate come back from its value. -/
theorem cellChars_coordinateAt {unit sub ext : ℚ} (h : CellSizes unit sub ext) {lp : CStr}
    (hlp : ∀ j < 10, gridCharOk j (lp.getD j 0) = true) {i : ℕ} (hi : i < 2) :
    cellChars 0 [10 * unit, unit, sub, ext] (coordinateAt unit lp i) =
      [toupper (lp.getD i 0), toupper (lp.getD (i + 2) 0), toupper (lp.getD (i + 4) 0),
        toupper (lp.getD (i + 6) 0)] := by
  obtain ⟨a, -, hupperA, ha⟩ := gridCharOk_letter (by omega) (hlp i (by omega))
  obtain ⟨b, hb, hupperB, hb'⟩ := gridCharOk_digit (by omega) (hlp (i + 2) (by omega))
  obtain ⟨c, hc, hupperC, hc'⟩ := gridCharOk_letter (by omega) (hlp (i + 4) (by omega))
  obtain ⟨d, hd, hupperD, hd'⟩ := gridCharOk_digit (by omega) (hlp (i + 6) (by omega))
  obtain ⟨e, he, -, he'⟩ := gridCharOk_letter (by omega) (hlp (i + 8) (by omega))
  rw [if_neg (by omega)] at hc he
  rw [coordinateAt, letterAt, digitAt, letterAt, digitAt, letterAt, ha, hb', hc', hd', he', hupperA,
    hupperB, hupperC, hupperD]
  push_cast
  exact cellChars_eq h hb (by omega) hd (by omega)

/-! ## The round trip -/

/-- A locator with all its characters: those that are missing are for the middle of the cell. -/
def filled (grid : CStr) : CStr := grid ++ locatorInit.drop grid.length

theorem getD_filled (grid : CStr) (j : ℕ) :
    (filled grid).getD j 0 = if j < grid.length then grid.getD j 0 else locatorInit.getD j 0 := by
  rw [filled]
  split
  case isTrue hj => rw [List.getD_append _ _ _ _ hj]
  case isFalse hj =>
    rw [List.getD_append_right _ _ _ _ (Nat.le_of_not_lt hj), List.getD_eq_getElem?_getD,
      List.getElem?_drop, Nat.add_sub_cancel' (Nat.le_of_not_lt hj), ← List.getD_eq_getElem?_getD]

theorem gridCharOk_filled {grid : CStr} (hvalid : rrGridValid (some grid) = true) :
    ∀ j < 10, gridCharOk j ((filled grid).getD j 0) = true := by
  intro j hj
  rw [getD_filled]
  split
  case isTrue hlt => exact gridCharOk_of_valid hvalid hlt
  case isFalse =>
    have hinit : ∀ j < 10, gridCharOk j (locatorInit.getD j 0) = true := by decide +kernel
    exact hinit j hj

theorem length_of_valid {grid : CStr} (hvalid : rrGridValid (some grid) = true) :
    grid.length = 4 ∨ grid.length = 6 ∨ grid.length = 8 ∨ grid.length = 10 := by
  rw [rrGridValid, Bool.and_eq_true] at hvalid
  simpa [or_assoc] using hvalid.1

theorem maidenhead2latlon_valid {grid : CStr} (hvalid : rrGridValid (some grid) = true) :
    maidenhead2latlon (some grid) =
      { latitude := coordinateAt 1 (filled grid) 1 - 90
        longitude := coordinateAt 2 (filled grid) 0 - 180
        precision := UInt8.ofNat (grid.length / 2)
        error := false } := by
  have hlen := length_of_valid hvalid
  have hrange : ¬ (10 < grid.length ∨ grid.length < 4) := by omega
  have heven : ¬ grid.length % 2 ≠ 0 := by omega
  simp only [maidenhead2latlon, if_neg hrange, if_neg heven]
  by_cases hshort : grid.length < 10
  · rw [if_pos hshort, completeMh, if_neg hrange, if_neg heven]
    rfl
  · have hten : grid.length = 10 := by omega
    have hfilled : filled grid = grid := by
      rw [filled, hten]
      exact List.append_nil grid
    rw [if_neg hshort, hfilled]

/-- A string of ten characters, two by two. -/
theorem interleave_getD {lp : CStr} (hlen : lp.length = 10) (f : UInt8 → UInt8) :
    interleave [f (lp.getD 0 0), f (lp.getD 2 0), f (lp.getD 4 0), f (lp.getD 6 0)]
      [f (lp.getD 1 0), f (lp.getD 3 0), f (lp.getD 5 0), f (lp.getD 7 0)] =
      (lp.map f).take 8 := by
  match lp, hlen with
  | [_, _, _, _, _, _, _, _, _, _], _ => rfl

theorem length_padded {grid : CStr} (hvalid : rrGridValid (some grid) = true) :
    (filled grid).length = 10 := by
  have hinit : locatorInit.length = 10 := by decide
  rw [filled, List.length_append, List.length_drop, hinit]
  have := length_of_valid hvalid
  omega

/-- **The first four pairs come back** from the middle of a cell. -/
theorem locatorLoop_padded {grid : CStr} (hvalid : rrGridValid (some grid) = true) :
    locatorLoop 0 (cellSizes.take 4) (coordinateAt 2 (filled grid) 0)
      (coordinateAt 1 (filled grid) 1) = ((filled grid).map toupper).take 8 := by
  have hok := gridCharOk_filled hvalid
  have hlon := cellChars_coordinateAt cellSizes_lon hok (i := 0) (by decide)
  have hlat := cellChars_coordinateAt cellSizes_lat hok (i := 1) (by decide)
  have hsizes : cellSizes.take 4 = [(10 * 2, 10 * 1), (2, 1), (0.083333, 0.0416665),
      (0.008333, 0.004166)] := by
    norm_num [cellSizes]
  rw [hsizes, locatorLoop_eq]
  exact (congrArg₂ interleave hlon hlat).trans (interleave_getD (length_padded hvalid) toupper)

/-- No character of a valid locator ends it. -/
theorem toupper_ne_zero {grid : CStr} (hvalid : rrGridValid (some grid) = true) :
    ∀ c ∈ grid.map toupper, c ≠ 0 := by
  intro c hc hzero
  obtain ⟨b, hb, rfl⟩ := List.mem_map.mp hc
  obtain ⟨i, hi, rfl⟩ := List.getElem_of_mem hb
  have hok := gridCharOk_of_valid hvalid hi
  rw [List.getD_eq_getElem _ _ hi, gridCharOk, hzero] at hok
  split at hok
  · rw [Bool.and_eq_true] at hok
    exact absurd hok.1 (by decide)
  · exact absurd hok (by decide)

/-- **Locators of up to eight characters come back**, in upper case. -/
theorem latlon2maidenhead_maidenhead2latlon {grid : CStr}
    (hvalid : rrGridValid (some grid) = true)
    (hlen : grid.length = 4 ∨ grid.length = 6 ∨ grid.length = 8) :
    latlon2maidenhead (maidenhead2latlon (some grid)) = grid.map toupper := by
  have hprecision : (UInt8.ofNat (grid.length / 2)).toNat = grid.length / 2 := by
    rw [UInt8.toNat_ofNat']
    omega
  have hsize : min ((if 2 < grid.length / 2 ∧ grid.length / 2 ≤ 5 then grid.length / 2 * 2
      else if 5 ≤ grid.length / 2 then 10 else 4) / 2 * 2) 10 / 2 = grid.length / 2 := by
    split
    · omega
    · split <;> omega
  have hpairs : cellSizes.take (grid.length / 2) = (cellSizes.take 4).take (grid.length / 2) := by
    rw [List.take_take, Nat.min_eq_left (by omega)]
  have hprefix : ((filled grid).map toupper).take grid.length = grid.map toupper := by
    rw [filled, List.map_append, List.take_left' (List.length_map _)]
  have htwice : 2 * (grid.length / 2) = grid.length := by omega
  rw [maidenhead2latlon_valid hvalid, latlon2maidenhead]
  simp only [hprecision, hsize, sub_add_cancel]
  rw [hpairs, locatorLoop_take, locatorLoop_padded hvalid, List.take_take, htwice,
    Nat.min_eq_left (by omega), hprefix]
  exact List.takeWhile_eq_self_iff.mpr fun c hc ↦ decide_eq_true (toupper_ne_zero hvalid c hc)

theorem latlon2maidenhead_maidenhead2latlon_six :
    latlon2maidenhead (maidenhead2latlon (some (lit "io91wm"))) = (lit "io91wm").map toupper :=
  latlon2maidenhead_maidenhead2latlon (by decide +kernel) (by decide)

end Rustyaxe
