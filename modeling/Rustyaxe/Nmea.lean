import Mathlib.Tactic.Linarith
import Rustyaxe.Strtol

/-!
# Positions as NMEA sentences

`rr_nmea_rmc` and `rr_nmea_valid` of `io.serial.c`.

An angle comes in units of `1e-7` degrees, and a minute has `1e6` units in a sentence.  One unit of
an angle is six of those, so nothing is rounded, and the degrees never carry (`nmeaAngle_eq`).  The
sentence is what it should be whenever there is one (`rrNmeaRmc_exact`).
-/

set_option autoImplicit false

namespace Rustyaxe

/-! ## The standard library -/

/-- `gmtime_r`, and `strftime` for the two formats that are used, with the size of the buffer: both
give six digits, if they succeed. -/
structure Calendar where
  Tm : Type
  gmtime : ℤ → Option Tm
  strftime : (size : ℕ) → (format : CStr) → Tm → Option CStr
  digits : ∀ size tm format text, format = lit "%H%M%S" ∨ format = lit "%d%m%y" →
    strftime size format tm = some text → text.length = 6 ∧ ∀ c ∈ text, isdigit c

/-- `%0*u` -/
def zeroPadded (width n : ℕ) : CStr :=
  List.replicate (width - (decimal n).length) 0x30 ++ decimal n

/-- A digit of `%X`. -/
def hexUpper (d : ℕ) : UInt8 := UInt8.ofNat (if d < 10 then 0x30 + d else 0x37 + d)

/-- `%02X`, of a byte. -/
def hex02 (n : UInt8) : CStr := [hexUpper (n.toNat / 16), hexUpper (n.toNat % 16)]

/-- What `snprintf` leaves in a buffer. -/
def printInto (size : ℕ) (text : CStr) : CStr := text.take (size - 1)

/-- `strtoul(s, NULL, 16)`, for hexadecimal digits. -/
def strtoulHex (s : CStr) : ℕ :=
  s.foldl (fun n c ↦ 16 * n +
    if isdigit c then c.toNat - 0x30 else if c ≤ 0x46 then c.toNat - 0x37 else c.toNat - 0x57) 0

/-! ## The code -/

/-- The loop over the characters of a sentence in `rr_nmea_valid`; `none` is one that is refused. -/
def checksumLoop : (checksum : UInt8) → CStr → Option UInt8
  | checksum, [] => some checksum
  | checksum, c :: p => if c < 32 ∨ 126 < c then none else checksumLoop (checksum ^^^ c) p

/-- `rr_nmea_valid` -/
def rrNmeaValid : (line : Option CStr) → Bool
  | none => false
  | some line =>
    if line.head? ≠ some dollar ∧ line.head? ≠ some 0x21 then false
    else
      match strchr star line with
      | none => false
      | some n =>
        let hex := line.drop (n + 1)
        if n = 1 ∨ hex.length ≠ 2 ∨ hex.all isxdigit = false then false
        else
          match checksumLoop 0 ((line.take n).drop 1) with
          | none => false
          | some checksum => checksum.toNat = strtoulHex hex

/-- `nmea_angle` -/
def nmeaAngle (angle : ℤ) (width capacity : ℕ) : CStr :=
  let absolute := angle.natAbs
  let degrees := absolute / 10000000
  let minutes := (absolute % 10000000 * 60 + 5) / 10
  let (degrees, minutes) := if minutes = 60000000 then (degrees + 1, 0) else (degrees, minutes)
  printInto capacity (zeroPadded width degrees ++ zeroPadded 2 (minutes / 1000000) ++ [dot] ++
    zeroPadded 6 (minutes % 1000000))

/-- The text of the sentence, up to the checksum. -/
def rmcText (latitude longitude : ℤ) (flags : UInt8) (timeText dateText : CStr) : CStr :=
  if flags &&& 1 ≠ 0 then
    lit "$GPRMC," ++ timeText ++ lit ",A," ++ nmeaAngle latitude 2 24 ++ lit "," ++
      (if latitude < 0 then lit "S" else lit "N") ++ lit "," ++ nmeaAngle longitude 3 24 ++
      lit "," ++ (if longitude < 0 then lit "W" else lit "E") ++ lit ",0.0,," ++ dateText ++
      lit ",,," ++ (if flags &&& 2 ≠ 0 then lit "M" else lit "A")
  else lit "$GPRMC," ++ timeText ++ lit ",V,,,,,0.0,," ++ dateText ++ lit ",,,N"

/-- `rr_nmea_rmc`: the length that is returned, and what is in `out`; `none` is the result `0`. -/
def rrNmeaRmc (cal : Calendar) (latitude longitude : ℤ) (flags : UInt8) (utc : ℤ)
    (outIsNull : Bool) (capacity : ℕ) : Option (ℕ × CStr) := do
  if outIsNull ∨ capacity < 8 ∨ latitude < -900000000 ∨ 900000000 < latitude ∨
      longitude < -1800000000 ∨ 1800000000 < longitude ∨ flags &&& ~~~3 ≠ 0 then none
  else
    let tm ← cal.gmtime utc
    let timeText ← cal.strftime 16 (lit "%H%M%S") tm
    let dateText ← cal.strftime 16 (lit "%d%m%y") tm
    let text := rmcText latitude longitude flags timeText dateText
    if capacity < text.length + 4 then none
    else
      let out := printInto capacity text
      let checksum := (out.drop 1).foldl (· ^^^ ·) 0
      some (text.length + 3,
        out ++ printInto (capacity - text.length) (star :: hex02 checksum))

/-! ## Reading a sentence -/

/-- The degrees of an angle with so many digits for whole degrees. -/
def angleOf (width : ℕ) (field : CStr) : ℚ :=
  digitsVal (field.take width) +
    (digitsVal ((field.drop width).take 2) + digitsVal (field.drop (width + 3)) / 1000000) / 60

/-- The angle of a field, with the letter in the next field for its sign. -/
def decodedAngle (sentence : CStr) (i width : ℕ) (negative : UInt8) : ℚ :=
  let fields := sentence.splitOn comma
  if fields.getD (i + 1) [] = [negative] then -angleOf width (fields.getD i [])
  else angleOf width (fields.getD i [])

/-! ## Numbers -/

theorem isdigit_of_mem_zeroPadded {width n : ℕ} {c : UInt8} (hc : c ∈ zeroPadded width n) :
    isdigit c = true := by
  rcases List.mem_append.mp hc with hc | hc
  · rw [(List.mem_replicate.mp hc).2]
    decide
  · exact isdigit_of_mem_decimal hc

theorem digitsVal_zeroPadded (width n : ℕ) : digitsVal (zeroPadded width n) = n := by
  rw [zeroPadded, digitsVal, List.foldl_append]
  have hzeros (k : ℕ) :
      (List.replicate k (0x30 : UInt8)).foldl (fun n c ↦ 10 * n + (c.toNat - 0x30)) 0 = 0 := by
    induction k with
    | zero => rfl
    | succ k ih => exact ih
  rw [hzeros]
  exact digitsVal_decimal n

theorem length_zeroPadded {width n : ℕ} (hwidth : 0 < width) (hn : n < 10 ^ width) :
    (zeroPadded width n).length = width := by
  rw [zeroPadded, List.length_append, List.length_replicate]
  exact Nat.sub_add_cancel (length_decimal_le hwidth hn)

/-- Six units of a minute are one of an angle, and nothing is lost. -/
theorem nmeaAngle_eq {angle : ℤ} {width : ℕ} (hpos : 0 < width) (hwidth : width ≤ 3)
    (hangle : angle.natAbs / 10000000 < 10 ^ width) : nmeaAngle angle width 24 =
      zeroPadded width (angle.natAbs / 10000000) ++
        zeroPadded 2 (angle.natAbs % 10000000 * 6 / 1000000) ++ [dot] ++
        zeroPadded 6 (angle.natAbs % 10000000 * 6 % 1000000) := by
  have hminutes : (angle.natAbs % 10000000 * 60 + 5) / 10 = angle.natAbs % 10000000 * 6 := by omega
  have hcarry : angle.natAbs % 10000000 * 6 ≠ 60000000 := by omega
  rw [nmeaAngle]
  simp only [hminutes, if_neg hcarry]
  refine List.take_of_length_le ?_
  rw [List.length_append, List.length_append, List.length_append, length_zeroPadded hpos hangle,
    length_zeroPadded (by decide) (by omega), length_zeroPadded (by decide) (by omega)]
  simp only [List.length_singleton]
  omega

/-- **An angle is read back.** -/
theorem angleOf_nmeaAngle {angle : ℤ} {width : ℕ} (hpos : 0 < width) (hwidth : width ≤ 3)
    (hangle : angle.natAbs / 10000000 < 10 ^ width) :
    angleOf width (nmeaAngle angle width 24) * 10000000 = angle.natAbs := by
  obtain ⟨r, hr⟩ : ∃ r, r = angle.natAbs % 10000000 := ⟨_, rfl⟩
  have hdegrees := length_zeroPadded hpos hangle
  have hminutes : (zeroPadded 2 (r * 6 / 1000000)).length = 2 :=
    length_zeroPadded (by decide) (by omega)
  rw [nmeaAngle_eq hpos hwidth hangle, angleOf, ← hr]
  have hfirst : (zeroPadded width (angle.natAbs / 10000000) ++ zeroPadded 2 (r * 6 / 1000000) ++
      [dot] ++ zeroPadded 6 (r * 6 % 1000000)).take width =
      zeroPadded width (angle.natAbs / 10000000) := by
    rw [List.append_assoc, List.append_assoc, List.take_left' hdegrees]
  have hsecond : ((zeroPadded width (angle.natAbs / 10000000) ++ zeroPadded 2 (r * 6 / 1000000) ++
      [dot] ++ zeroPadded 6 (r * 6 % 1000000)).drop width).take 2 =
      zeroPadded 2 (r * 6 / 1000000) := by
    rw [List.append_assoc, List.append_assoc, List.drop_left' hdegrees, List.take_left' hminutes]
  have hthird : (zeroPadded width (angle.natAbs / 10000000) ++ zeroPadded 2 (r * 6 / 1000000) ++
      [dot] ++ zeroPadded 6 (r * 6 % 1000000)).drop (width + 3) =
      zeroPadded 6 (r * 6 % 1000000) := by
    refine List.drop_left' ?_
    rw [List.length_append, List.length_append, hdegrees, hminutes]
    rfl
  rw [hfirst, hsecond, hthird, digitsVal_zeroPadded, digitsVal_zeroPadded, digitsVal_zeroPadded]
  have hsplit : angle.natAbs = angle.natAbs / 10000000 * 10000000 + r := by omega
  have hunits : r * 6 = r * 6 / 1000000 * 1000000 + r * 6 % 1000000 := by omega
  have hsplit' : (angle.natAbs : ℚ) = (angle.natAbs / 10000000 : ℕ) * 10000000 + r := by
    exact_mod_cast hsplit
  have hunits' : (r : ℚ) * 6 = (r * 6 / 1000000 : ℕ) * 1000000 + (r * 6 % 1000000 : ℕ) := by
    exact_mod_cast hunits
  linarith

/-! ## The fields of a sentence -/

/-- The fields of a sentence with a position, between its name and its last field. -/
def rmcFields (latitude longitude : ℤ) (timeText dateText : CStr) : List CStr :=
  [timeText, lit "A", nmeaAngle latitude 2 24, if latitude < 0 then lit "S" else lit "N",
    nmeaAngle longitude 3 24, if longitude < 0 then lit "W" else lit "E", lit "0.0", [], dateText,
    [], []]

/-- The last field, before the checksum. -/
def rmcMode (flags : UInt8) : CStr := if flags &&& 2 ≠ 0 then lit "M" else lit "A"

/-- A character of a field. -/
def isFieldChar (c : UInt8) : Bool := isdigit c || isalpha c || c == dot

theorem isFieldChar_of_isdigit {c : UInt8} (hc : isdigit c = true) : isFieldChar c = true := by
  rw [isFieldChar, hc]
  exact Bool.true_or _

theorem isFieldChar_spec {c : UInt8} (hc : isFieldChar c = true) :
    ¬(c < 32 ∨ 126 < c) ∧ c ≠ star ∧ c ≠ comma := by
  simp only [isFieldChar, isdigit, isalpha, dot, Bool.or_eq_true, Bool.and_eq_true,
    decide_eq_true_eq, beq_iff_eq, UInt8.le_iff_toNat_le, ← UInt8.toNat_inj,
    UInt8.reduceToNat] at hc
  simp only [star, comma, ne_eq, UInt8.lt_iff_toNat_lt, ← UInt8.toNat_inj, UInt8.reduceToNat]
  omega

theorem isFieldChar_of_mem_nmeaAngle {angle : ℤ} {width capacity : ℕ} {c : UInt8}
    (hc : c ∈ nmeaAngle angle width capacity) : isFieldChar c = true := by
  have hmem := List.mem_of_mem_take hc
  simp only [List.mem_append, List.mem_singleton] at hmem
  rcases hmem with ((hmem | hmem) | rfl) | hmem
  · exact isFieldChar_of_isdigit (isdigit_of_mem_zeroPadded hmem)
  · exact isFieldChar_of_isdigit (isdigit_of_mem_zeroPadded hmem)
  · decide
  · exact isFieldChar_of_isdigit (isdigit_of_mem_zeroPadded hmem)

theorem isFieldChar_rmcFields (latitude longitude : ℤ) {timeText dateText : CStr}
    (htime : ∀ c ∈ timeText, isdigit c = true) (hdate : ∀ c ∈ dateText, isdigit c = true) :
    ∀ l ∈ rmcFields latitude longitude timeText dateText, ∀ c ∈ l, isFieldChar c = true := by
  have hletter (b : Prop) [Decidable b] {x y : CStr} (hx : ∀ c ∈ x, isFieldChar c = true)
      (hy : ∀ c ∈ y, isFieldChar c = true) : ∀ c ∈ (if b then x else y), isFieldChar c = true := by
    split
    · exact hx
    · exact hy
  have hnil : ∀ c ∈ ([] : CStr), isFieldChar c = true := fun c hc ↦ absurd hc List.not_mem_nil
  simp only [rmcFields, List.forall_mem_cons]
  exact ⟨fun c hc ↦ isFieldChar_of_isdigit (htime c hc), by decide,
    fun c ↦ isFieldChar_of_mem_nmeaAngle, hletter _ (by decide) (by decide),
    fun c ↦ isFieldChar_of_mem_nmeaAngle, hletter _ (by decide) (by decide),
    by decide, hnil, fun c hc ↦ isFieldChar_of_isdigit (hdate c hc), hnil, hnil,
    fun l hl ↦ absurd hl List.not_mem_nil⟩

theorem isFieldChar_rmcMode (flags : UInt8) : ∀ c ∈ rmcMode flags, isFieldChar c = true := by
  rw [rmcMode]
  split <;> decide

/-- The sentence is its fields, with commas between them. -/
theorem rmcText_append (latitude longitude : ℤ) {flags : UInt8} (timeText dateText suffix : CStr)
    (hflags : flags &&& 1 ≠ 0) :
    rmcText latitude longitude flags timeText dateText ++ suffix = [comma].intercalate
      (lit "$GPRMC" :: (rmcFields latitude longitude timeText dateText ++
        [rmcMode flags ++ suffix])) := by
  have hcomma : lit "," = [comma] := rfl
  have hname : lit "$GPRMC," = lit "$GPRMC" ++ [comma] := rfl
  have hvalid : lit ",A," = [comma] ++ lit "A" ++ [comma] := rfl
  have hspeed : lit ",0.0,," = [comma] ++ lit "0.0" ++ [comma] ++ [comma] := rfl
  have hdate : lit ",,," = [comma] ++ [comma] ++ [comma] := rfl
  rw [rmcText, if_pos hflags, hname, hvalid, hspeed, hdate, hcomma, ← rmcMode]
  simp [rmcFields, List.intercalate]

/-- Every character of joined fields is a comma or a character of a field. -/
theorem mem_intercalate_comma {c : UInt8} {fields : List CStr}
    (hc : c ∈ [comma].intercalate fields) : c = comma ∨ ∃ l ∈ fields, c ∈ l := by
  induction fields with
  | nil => exact absurd hc List.not_mem_nil
  | cons l fields ih =>
    rcases eq_or_ne fields [] with rfl | hne
    · rw [List.intercalate_singleton] at hc
      exact .inr ⟨l, List.mem_cons_self, hc⟩
    · rw [List.intercalate_cons_of_ne_nil hne, List.mem_append, List.mem_append,
        List.mem_singleton] at hc
      rcases hc with (hc | hc) | hc
      · exact .inr ⟨l, List.mem_cons_self, hc⟩
      · exact .inl hc
      · rcases ih hc with hcomma | ⟨l', hl', hc⟩
        · exact .inl hcomma
        · exact .inr ⟨l', List.mem_cons_of_mem _ hl', hc⟩

/-- The text of a sentence with a position is a dollar, and plain text. -/
theorem rmcText_plain (latitude longitude : ℤ) {flags : UInt8} {timeText dateText : CStr}
    (hflags : flags &&& 1 ≠ 0) (htime : ∀ c ∈ timeText, isdigit c = true)
    (hdate : ∀ c ∈ dateText, isdigit c = true) :
    ∃ body, rmcText latitude longitude flags timeText dateText = dollar :: body ∧ body ≠ [] ∧
      ∀ c ∈ body, ¬(c < 32 ∨ 126 < c) ∧ c ≠ star := by
  have htext := rmcText_append latitude longitude timeText dateText [] hflags
  rw [List.append_nil, List.append_nil] at htext
  have hname : lit "$GPRMC" = dollar :: lit "GPRMC" := rfl
  rw [hname, List.intercalate_cons_cons_left] at htext
  refine ⟨_, htext, ?_, fun c hc ↦ ?_⟩
  · have hG : lit "GPRMC" = 0x47 :: lit "PRMC" := rfl
    rw [hG, List.intercalate_cons_cons_left]
    exact List.cons_ne_nil _ _
  · rcases mem_intercalate_comma hc with rfl | ⟨l, hl, hcl⟩
    · decide
    · have hfield : isFieldChar c = true := by
        rcases List.mem_cons.mp hl with rfl | hl
        · have hletters : ∀ c ∈ lit "GPRMC", isFieldChar c = true := by decide
          exact hletters c hcl
        · rcases List.mem_append.mp hl with hl | hl
          · exact isFieldChar_rmcFields latitude longitude htime hdate l hl c hcl
          · rw [List.mem_singleton.mp hl] at hcl
            exact isFieldChar_rmcMode flags c hcl
      exact ⟨(isFieldChar_spec hfield).1, (isFieldChar_spec hfield).2.1⟩

/-! ## The checksum -/

theorem checksumLoop_of_plain {p : CStr} (hp : ∀ c ∈ p, ¬(c < 32 ∨ 126 < c)) (checksum : UInt8) :
    checksumLoop checksum p = some (p.foldl (· ^^^ ·) checksum) := by
  induction p generalizing checksum with
  | nil => rfl
  | cons c p ih =>
    rw [checksumLoop, if_neg (hp c List.mem_cons_self)]
    exact ih (fun c hc ↦ hp c (List.mem_cons_of_mem _ hc)) _

theorem hex02_spec (n : UInt8) :
    (hex02 n).all isxdigit = true ∧ strtoulHex (hex02 n) = n.toNat ∧ comma ∉ hex02 n :=
  forall_byte (p := fun n ↦
    (hex02 n).all isxdigit = true ∧ strtoulHex (hex02 n) = n.toNat ∧ comma ∉ hex02 n)
    (by decide +kernel) n

/-- **Plain text with its checksum is a sentence.** -/
theorem rrNmeaValid_plain {body : CStr} (hne : body ≠ [])
    (hbody : ∀ c ∈ body, ¬(c < 32 ∨ 126 < c) ∧ c ≠ star) :
    rrNmeaValid (some (dollar :: body ++ star :: hex02 (body.foldl (· ^^^ ·) 0))) = true := by
  obtain ⟨checksum, hchecksum⟩ : ∃ checksum, body.foldl (· ^^^ ·) 0 = checksum := ⟨_, rfl⟩
  rw [hchecksum]
  have hstar : ∀ c ∈ dollar :: body, c ≠ star := by
    intro c hc
    rcases List.mem_cons.mp hc with rfl | hc
    · decide
    · exact (hbody c hc).2
  have hn : strchr star (dollar :: body ++ star :: hex02 checksum) = some (body.length + 1) := by
    rw [strchr, if_pos (List.mem_append_right _ List.mem_cons_self),
      List.takeWhile_append_of_pos (fun c hc ↦ decide_eq_true (hstar c hc)),
      List.takeWhile_cons_of_neg (by simp), List.append_nil, List.length_cons]
  have hhex : (dollar :: body ++ star :: hex02 checksum).drop (body.length + 1 + 1) =
      hex02 checksum := by
    rw [List.append_cons]
    exact List.drop_left' (by simp)
  have hline : (dollar :: body ++ star :: hex02 checksum).take (body.length + 1) =
      dollar :: body := List.take_left' (by simp)
  have hloop : checksumLoop 0 ((dollar :: body).drop 1) = some checksum := by
    rw [← hchecksum]
    exact checksumLoop_of_plain (fun c hc ↦ (hbody c hc).1) 0
  have hpos : body.length ≠ 0 := fun h ↦ hne (List.length_eq_zero_iff.mp h)
  have hvalid : ¬(body.length + 1 = 1 ∨ (hex02 checksum).length ≠ 2 ∨
      (hex02 checksum).all isxdigit = false) := by
    rw [(hex02_spec checksum).1]
    simp [hex02, hpos]
  rw [rrNmeaValid, if_neg (by simp), hn]
  simp only [hhex, hline, hloop, if_neg hvalid, (hex02_spec checksum).2.1, decide_true]

/-! ## The sentence -/

/-- What a call leaves that succeeds. -/
theorem rrNmeaRmc_spec {cal : Calendar} {latitude longitude utc : ℤ} {flags : UInt8}
    {outIsNull : Bool} {capacity n : ℕ} {sentence : CStr}
    (h : rrNmeaRmc cal latitude longitude flags utc outIsNull capacity = some (n, sentence)) :
    latitude.natAbs ≤ 900000000 ∧ longitude.natAbs ≤ 1800000000 ∧ ∃ timeText dateText,
      (∀ c ∈ timeText, isdigit c = true) ∧ (∀ c ∈ dateText, isdigit c = true) ∧
      n = (rmcText latitude longitude flags timeText dateText).length + 3 ∧ n < capacity ∧
      sentence = rmcText latitude longitude flags timeText dateText ++
        star :: hex02 (((rmcText latitude longitude flags timeText dateText).drop 1).foldl
          (· ^^^ ·) 0) := by
  rw [rrNmeaRmc] at h
  split_ifs at h with hrange
  obtain ⟨tm, -, h⟩ := Option.bind_eq_some_iff.mp h
  obtain ⟨timeText, htime, h⟩ := Option.bind_eq_some_iff.mp h
  obtain ⟨dateText, hdate, h⟩ := Option.bind_eq_some_iff.mp h
  obtain ⟨text, htext⟩ : ∃ text, rmcText latitude longitude flags timeText dateText = text :=
    ⟨_, rfl⟩
  simp only [htext] at h ⊢
  split_ifs at h with hcap
  obtain ⟨hn, hsentence⟩ := Prod.mk.inj (Option.some.inj h)
  have hfits : printInto capacity text = text := List.take_of_length_le (by omega)
  have hsuffix (checksum : UInt8) :
      printInto (capacity - text.length) (star :: hex02 checksum) = star :: hex02 checksum :=
    List.take_of_length_le (by
      simp only [hex02, List.length_cons, List.length_nil]
      omega)
  rw [hfits, hsuffix] at hsentence
  push Not at hrange
  refine ⟨by omega, by omega, timeText, dateText, (cal.digits _ _ _ _ (.inl rfl) htime).2,
    (cal.digits _ _ _ _ (.inr rfl) hdate).2, ?_, by omega, ?_⟩
  · rw [htext, hn]
  · rw [htext, hsentence]

/-- The angle in a field is the angle that was printed. -/
theorem decodedAngle_of_fields (negative positive : CStr) {sentence : CStr} {i width : ℕ}
    {letter : UInt8} {angle : ℤ} (hpos : 0 < width) (hwidth : width ≤ 3)
    (hangle : angle.natAbs / 10000000 < 10 ^ width) (hnegative : negative = [letter])
    (hpositive : positive ≠ [letter])
    (hfield : (sentence.splitOn comma).getD i [] = nmeaAngle angle width 24)
    (hsign : (sentence.splitOn comma).getD (i + 1) [] = if angle < 0 then negative else positive) :
    decodedAngle sentence i width letter * 10000000 = angle := by
  have hvalue := angleOf_nmeaAngle hpos hwidth hangle
  simp only [decodedAngle, hfield, hsign]
  by_cases hneg : angle < 0
  · have habs : (angle : ℚ) = -(angle.natAbs : ℚ) := by
      rw [Nat.cast_natAbs, abs_of_neg hneg, Int.cast_neg, neg_neg]
    rw [if_pos hneg, if_pos hnegative, habs, ← hvalue]
    exact neg_mul _ _
  · have habs : (angle : ℚ) = (angle.natAbs : ℚ) := by
      rw [Nat.cast_natAbs, abs_of_nonneg (not_lt.mp hneg)]
    rw [if_neg hneg, if_neg hpositive, habs, ← hvalue]

/-- **The sentence of a position is exact.**  It is a valid one, of the length that is returned,
which fits, and its fields are the position. -/
theorem rrNmeaRmc_exact {cal : Calendar} {latitude longitude utc : ℤ} {flags : UInt8}
    {outIsNull : Bool} {capacity n : ℕ} {sentence : CStr} (hflags : flags &&& 1 ≠ 0)
    (h : rrNmeaRmc cal latitude longitude flags utc outIsNull capacity = some (n, sentence)) :
    rrNmeaValid (some sentence) = true ∧ n = sentence.length ∧ sentence.length < capacity ∧
      decodedAngle sentence 3 2 0x53 * 10000000 = latitude ∧
      decodedAngle sentence 5 3 0x57 * 10000000 = longitude := by
  obtain ⟨hlat, hlon, timeText, dateText, htime, hdate, hn, hcap, rfl⟩ := rrNmeaRmc_spec h
  obtain ⟨body, hbody, hne, hplain⟩ := rmcText_plain latitude longitude hflags htime hdate
  obtain ⟨checksum, hchecksum⟩ : ∃ checksum, checksum =
    ((rmcText latitude longitude flags timeText dateText).drop 1).foldl (· ^^^ ·) 0 := ⟨_, rfl⟩
  have hlen : n = (rmcText latitude longitude flags timeText dateText ++
      star :: hex02 checksum).length := by
    rw [hn, List.length_append]
    rfl
  have hfields : (rmcText latitude longitude flags timeText dateText ++
      star :: hex02 checksum).splitOn comma = lit "$GPRMC" ::
        (rmcFields latitude longitude timeText dateText ++
          [rmcMode flags ++ star :: hex02 checksum]) := by
    rw [rmcText_append _ _ _ _ _ hflags]
    refine List.splitOn_intercalate comma (fun l hl hc ↦ ?_) (List.cons_ne_nil _ _)
    rcases List.mem_cons.mp hl with rfl | hl
    · exact absurd hc (by decide +kernel)
    · rcases List.mem_append.mp hl with hl | hl
      · exact (isFieldChar_spec (isFieldChar_rmcFields _ _ htime hdate l hl comma hc)).2.2 rfl
      · rw [List.mem_singleton.mp hl, List.mem_append, List.mem_cons] at hc
        rcases hc with hc | hc | hc
        · exact (isFieldChar_spec (isFieldChar_rmcMode flags comma hc)).2.2 rfl
        · exact absurd hc (by decide)
        · exact (hex02_spec checksum).2.2 hc
  rw [← hchecksum]
  refine ⟨?_, hlen, hlen ▸ hcap, ?_, ?_⟩
  · rw [hchecksum, hbody]
    exact rrNmeaValid_plain hne hplain
  · refine decodedAngle_of_fields (lit "S") (lit "N") (by decide) (by decide) (by omega)
      (by decide +kernel) (by decide +kernel) ?_ ?_ <;> rw [hfields] <;> rfl
  · refine decodedAngle_of_fields (lit "W") (lit "E") (by decide) (by decide) (by omega)
      (by decide +kernel) (by decide +kernel) ?_ ?_ <;> rw [hfields] <;> rfl

/-- The calendar at noon of a day in October. -/
def noonCalendar : Calendar where
  Tm := Unit
  gmtime t := if t = 1791288000 then some () else none
  strftime _ format _ :=
    if format = lit "%H%M%S" then some (lit "120000")
    else if format = lit "%d%m%y" then some (lit "061026") else none
  digits := by
    have hnoon : (lit "120000").length = 6 ∧ ∀ c ∈ lit "120000", isdigit c := by decide +kernel
    have hday : (lit "061026").length = 6 ∧ ∀ c ∈ lit "061026", isdigit c := by decide +kernel
    intro size tm format text _ htext
    split_ifs at htext
    · exact Option.some.inj htext ▸ hnoon
    · exact Option.some.inj htext ▸ hday

theorem rrNmeaRmc_exact_noon :
    ∃ n sentence, rrNmeaRmc noonCalendar 381234567 (-807654321) 3 1791288000 false 128 =
        some (n, sentence) ∧
      rrNmeaValid (some sentence) = true ∧ n = sentence.length ∧ sentence.length < 128 ∧
      decodedAngle sentence 3 2 0x53 * 10000000 = (381234567 : ℤ) ∧
      decodedAngle sentence 5 3 0x57 * 10000000 = (-807654321 : ℤ) := by
  obtain ⟨⟨n, sentence⟩, h⟩ : ∃ result,
      rrNmeaRmc noonCalendar 381234567 (-807654321) 3 1791288000 false 128 = some result :=
    Option.isSome_iff_exists.mp (by decide +kernel)
  exact ⟨n, sentence, h, rrNmeaRmc_exact (by decide) h⟩

end Rustyaxe
