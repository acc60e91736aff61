import Rustyaxe.Eeprom.Layout
import Rustyaxe.Lib.Crc

/-!
# The checksum of the EEPROM

The last word of the image is the CRC of everything before it.

The table of `crc32` makes it the check of the bits of the data over a register of 32 bits
(`crc32_eq_crc`).  Four bytes are such a register, so two strings that differ within four bytes in a
row have different checksums (`crc32_ne_of_window`), and `eeprom_validate_checksum` ends the process
for every such change to a valid image (`crc32_detects`).
-/

set_option autoImplicit false

namespace Rustyaxe

/-! ## The code -/

/-- The polynomial of the table. -/
def crcPoly : UInt32 := 0xEDB88320

/-- One bit of an entry of the table. -/
def crcTableStep (c : UInt32) : UInt32 := if c &&& 1 ≠ 0 then (c >>> 1) ^^^ crcPoly else c >>> 1

/-- The entries of the table of `crc32`. -/
def crcTable (i : UInt32) : UInt32 := crcTableStep^[8] i

/-- One byte of the loop of `crc32`. -/
def crc32Step (crc : UInt32) (p : UInt8) : UInt32 :=
  crcTable ((crc ^^^ p.toUInt32) &&& 0xFF) ^^^ (crc >>> 8)

/-- `crc32` -/
def crc32 (crc : UInt32) (data : List UInt8) : UInt32 :=
  data.foldl crc32Step (crc ^^^ 0xFFFFFFFF) ^^^ 0xFFFFFFFF

/-- `eeprom_checksum_generate`; `none` is a read outside the mapping.  `eepromSize` is the
`EEPROM_SIZE` of the build. -/
def eepromChecksumGenerate (eepromSize : ℕ) (e : Eeprom) : Option UInt32 :=
  match e.mmap with
  | none => some 0
  | some image => if eepromSize - 4 ≤ image.length then some (crc32 0 (image.take (eepromSize - 4)))
      else none

/-- What `eeprom_validate_checksum` does: it returns, or it ends the process with `EXIT_FAILURE`. -/
inductive ChecksumResult where
  | returned (mismatch : Bool)
  | exitFailure
  deriving DecidableEq, Repr

/-- `eeprom_validate_checksum`.  The image that does not match is unmapped before the process
ends. -/
def eepromValidateChecksum (eepromSize : ℕ) (e : Eeprom) : Option (ChecksumResult × Eeprom) := do
  let currSum ← match e.mmap with
    | none => some 0
    | some image => readWord image (eepromSize - 4)
  let calcSum ← eepromChecksumGenerate eepromSize e
  if calcSum ≠ currSum then
    return (.exitFailure, { e with mmap := none, fd := -1, ready := true, corrupted := true })
  else return (.returned false, e)

/-! ## The check of the bits -/

theorem and_one_ne_zero_iff (c : UInt32) : c &&& 1 ≠ 0 ↔ c.toBitVec.getLsbD 0 = true := by
  rw [ne_eq, ← UInt32.toBitVec_inj, UInt32.toBitVec_and]
  change ¬ c.toBitVec &&& 1#32 = 0#32 ↔ _
  rw [BitVec.and_one_eq_setWidth_ofBool_getLsbD]
  cases c.toBitVec.getLsbD 0 <;> decide

theorem toBitVec_crcTableStep (c : UInt32) :
    (crcTableStep c).toBitVec = Crc.shift crcPoly.toBitVec c.toBitVec := by
  rw [crcTableStep, Crc.shift]
  by_cases h : c &&& 1 ≠ 0
  · rw [if_pos h, if_pos ((and_one_ne_zero_iff c).mp h)]
    rfl
  · rw [if_neg h, if_neg fun hbit ↦ h ((and_one_ne_zero_iff c).mpr hbit)]
    rfl

theorem toBitVec_crcTable (i : UInt32) :
    (crcTable i).toBitVec = (Crc.shift crcPoly.toBitVec)^[8] i.toBitVec :=
  Function.Semiconj.iterate_right (f := UInt32.toBitVec) toBitVec_crcTableStep 8 i

theorem and_lowByte (x : BitVec 32) : x &&& 0xFF#32 = (x.setWidth 8).setWidth 32 := by
  apply BitVec.eq_of_toNat_eq
  rw [BitVec.toNat_and, BitVec.toNat_setWidth, BitVec.toNat_setWidth]
  have hmod := Nat.and_two_pow_sub_one_eq_mod x.toNat 8
  have hlt : x.toNat % 2 ^ 8 < 2 ^ 32 := Nat.lt_trans (Nat.mod_lt _ (by decide)) (by decide)
  rw [Nat.mod_eq_of_lt hlt, ← hmod]
  rfl

/-- A step of the loop is the check of the bits of a byte. -/
theorem toBitVec_crc32Step (crc : UInt32) (p : UInt8) :
    (crc32Step crc p).toBitVec = Crc.crc crcPoly.toBitVec crc.toBitVec (Crc.byteBits p) := by
  have hlow : ((crc ^^^ p.toUInt32) &&& 0xFF).toBitVec =
      ((crc.toBitVec ^^^ p.toBitVec.setWidth 32).setWidth 8).setWidth 32 := by
    rw [← and_lowByte]
    rfl
  rw [crc32Step, UInt32.toBitVec_xor, toBitVec_crcTable, hlow, Crc.crc_byteBits (by decide)]
  rfl

theorem toBitVec_foldl_crc32Step (crc : UInt32) (data : List UInt8) :
    (data.foldl crc32Step crc).toBitVec =
      Crc.crc crcPoly.toBitVec crc.toBitVec (Crc.bits data) := by
  induction data generalizing crc with
  | nil => rfl
  | cons p data ih => rw [List.foldl_cons, ih, toBitVec_crc32Step, Crc.bits_cons, Crc.crc_append]

/-- The reflected CRC of a byte string, bit by bit: the register and the result are inverted. -/
def crc32Bitwise (crc : UInt32) (data : List UInt8) : UInt32 :=
  ⟨Crc.crc 0xEDB88320#32 (crc.toBitVec ^^^ 0xFFFFFFFF#32) (Crc.bits data) ^^^ 0xFFFFFFFF#32⟩

/-- **The table computes the CRC.** -/
theorem crc32_eq_crc (crc : UInt32) (data : List UInt8) :
    crc32 crc data = crc32Bitwise crc data := by
  apply UInt32.toBitVec_inj.mp
  rw [crc32, UInt32.toBitVec_xor, toBitVec_foldl_crc32Step]
  rfl

/-! ## Changes -/

/-- All differences are within four positions in a row. -/
def DifferWithinFour (a b : List UInt8) : Prop :=
  ∃ start, ∀ i, a[i]? ≠ b[i]? → start ≤ i ∧ i < start + 4

/-- The strings are equal around a window. -/
theorem DifferWithinFour.exists_window {a b : List UInt8} (h : DifferWithinFour a b)
    (hlen : a.length = b.length) : ∃ before x y after, a = before ++ x ++ after ∧
      b = before ++ y ++ after ∧ x.length = y.length ∧ x.length ≤ 4 := by
  obtain ⟨start, hwindow⟩ := h
  have hsame {i : ℕ} (hi : ¬ (start ≤ i ∧ i < start + 4)) : a[i]? = b[i]? :=
    not_not.mp fun hne ↦ hi (hwindow i hne)
  have hbefore : a.take start = b.take start := by
    refine List.ext_getElem? fun i ↦ ?_
    by_cases hi : i < start
    · rw [List.getElem?_take_of_lt hi, List.getElem?_take_of_lt hi, hsame (by omega)]
    · rw [List.getElem?_take, List.getElem?_take, if_neg hi, if_neg hi]
  have hafter : (a.drop start).drop 4 = (b.drop start).drop 4 := by
    refine List.ext_getElem? fun i ↦ ?_
    rw [List.drop_drop, List.drop_drop, List.getElem?_drop, List.getElem?_drop, hsame (by omega)]
  refine ⟨a.take start, (a.drop start).take 4, (b.drop start).take 4, (a.drop start).drop 4,
    ?_, ?_, ?_, ?_⟩
  · rw [List.append_assoc, List.take_append_drop, List.take_append_drop]
  · rw [hbefore, hafter, List.append_assoc, List.take_append_drop, List.take_append_drop]
  · simp [hlen]
  · exact List.length_take_le _ _

/-- **A change within four bytes is seen.** -/
theorem crc32_ne_of_window {a b : List UInt8} (hlen : a.length = b.length) (hne : a ≠ b)
    (h : DifferWithinFour a b) (crc : UInt32) : crc32 crc a ≠ crc32 crc b := by
  obtain ⟨before, x, y, after, rfl, rfl, hxy, hfour⟩ := h.exists_window hlen
  have hbits : Crc.bits x ≠ Crc.bits y := fun heq ↦ hne (by rw [Crc.bits_injective heq])
  rw [crc32_eq_crc, crc32_eq_crc, ne_eq, ← UInt32.toBitVec_inj]
  intro heq
  have hcrc := (BitVec.xor_left_inj _).mp heq
  rw [Crc.bits_append, Crc.bits_append, Crc.bits_append, Crc.bits_append] at hcrc
  have hlenBits : (Crc.bits x).length = (Crc.bits y).length := by
    rw [Crc.length_bits, Crc.length_bits, hxy]
  have hfits : (Crc.bits x).length ≤ 32 := by
    rw [Crc.length_bits]
    omega
  exact Crc.crc_burst (by decide) hlenBits hfits hbits _ _ _ hcrc

/-! ## Valid images -/

/-- The checksum in the image is right. -/
def ValidImage (eepromSize : ℕ) (image : List UInt8) : Prop :=
  image.length = eepromSize ∧ readWord image (eepromSize - 4) =
    some (crc32 0 (image.take (eepromSize - 4)))

/-- `eeprom_validate_checksum` on an image with a checksum. -/
theorem eepromValidateChecksum_mapped {eepromSize : ℕ} {image : List UInt8} {sum : UInt32}
    (hlen : image.length = eepromSize) (hsum : readWord image (eepromSize - 4) = some sum)
    (fd : UInt32) : (eepromValidateChecksum eepromSize (.mapped fd image)).map Prod.fst =
      some (if crc32 0 (image.take (eepromSize - 4)) = sum then .returned false
        else .exitFailure) := by
  have hfit : eepromSize - 4 ≤ image.length := by omega
  rw [eepromValidateChecksum, eepromChecksumGenerate]
  simp only [Eeprom.mapped, hsum, if_pos hfit, Option.bind_eq_bind, Option.bind_some, ne_eq,
    ite_not]
  split <;> rfl

/-- **What the checksum is for.**  The table computes the CRC bit by bit, a change within four
bytes in a row changes it, and a valid image that is changed like this before its last word is
reported. -/
theorem crc32_detects :
    (∀ crc data, crc32 crc data = crc32Bitwise crc data) ∧
    (∀ crc a b, a.length = b.length → a ≠ b → DifferWithinFour a b → crc32 crc a ≠ crc32 crc b) ∧
    ∀ eepromSize fd image image', ValidImage eepromSize image →
      (eepromValidateChecksum eepromSize (.mapped fd image)).map Prod.fst =
        some (.returned false) ∧
      (image'.length = image.length → image'.drop (eepromSize - 4) = image.drop (eepromSize - 4) →
        image' ≠ image → DifferWithinFour image' image →
        (eepromValidateChecksum eepromSize (.mapped fd image')).map Prod.fst =
          some .exitFailure) := by
  refine ⟨crc32_eq_crc, fun crc a b hlen hne h ↦ crc32_ne_of_window hlen hne h crc, ?_⟩
  intro eepromSize fd image image' hvalid
  refine ⟨?_, fun hlen hword hne hdiffer ↦ ?_⟩
  · rw [eepromValidateChecksum_mapped hvalid.1 hvalid.2, if_pos rfl]
  · have hsum : readWord image' (eepromSize - 4) =
        some (crc32 0 (image.take (eepromSize - 4))) := by
      rw [readWord, hword]
      exact hvalid.2
    have hchanged : image'.take (eepromSize - 4) ≠ image.take (eepromSize - 4) := fun htake ↦
      hne (by rw [← List.take_append_drop (eepromSize - 4) image', htake, hword,
        List.take_append_drop])
    have hwithin :
        DifferWithinFour (image'.take (eepromSize - 4)) (image.take (eepromSize - 4)) := by
      obtain ⟨start, hstart⟩ := hdiffer
      refine ⟨start, fun i hi ↦ hstart i fun hsame ↦ hi ?_⟩
      rw [List.getElem?_take, List.getElem?_take, hsame]
    rw [eepromValidateChecksum_mapped (hlen.trans hvalid.1) hsum, if_neg]
    exact crc32_ne_of_window (by simp [hlen]) hchanged hwithin 0

/-- An image with one byte changed. -/
theorem crc32_detects_oneByte :
    crc32 0 [1, 2, 3, 4] ≠ crc32 0 [1, 2, 3, 5] ∧
      (eepromValidateChecksum 8 (.mapped 3 [1, 2, 3, 5, 0xCD, 0xFB, 0x3C, 0xB6])).map Prod.fst =
        some .exitFailure := by
  have hdiffer (rest : List UInt8) :
      DifferWithinFour ([1, 2, 3] ++ 5 :: rest) ([1, 2, 3] ++ 4 :: rest) := by
    refine ⟨3, fun i hi ↦ ?_⟩
    by_contra hout
    rw [show ([1, 2, 3] ++ 5 :: rest : List UInt8) = ([1, 2, 3, 4] ++ rest).set 3 5 by rfl,
      List.getElem?_set_ne (by omega)] at hi
    exact hi rfl
  have hvalid : ValidImage 8 [1, 2, 3, 4, 0xCD, 0xFB, 0x3C, 0xB6] :=
    ⟨rfl, by decide +kernel⟩
  obtain ⟨-, hne, hreports⟩ := crc32_detects
  have hcrc := hne 0 [1, 2, 3, 5] [1, 2, 3, 4] rfl (by decide) (hdiffer [])
  have hexit := (hreports 8 3 _ [1, 2, 3, 5, 0xCD, 0xFB, 0x3C, 0xB6] hvalid).2 rfl rfl (by decide)
    (hdiffer [0xCD, 0xFB, 0x3C, 0xB6])
  exact ⟨hcrc.symm, hexit⟩

end Rustyaxe
