import Mathlib.Data.List.Basic
import Mathlib.Logic.Function.Iterate

/-!
# Cyclic redundancy checks

The check of a bit string with the lowest bit first, over a register of any width: the register is
moved down by one place for every bit, and the polynomial is added when a one falls out.

A move is linear (`shift_xor`), and it loses nothing as long as the polynomial has its highest bit
(`shift_injective`).  So at most as many bits as the register is wide may be read at once, as a
number that is added before the register is moved (`crc_eq_iterate`).  Two things follow: a check
with a table of the bytes is the same (`crc_byteBits`), and bit strings that differ in one such
window have different checks (`crc_burst`).
-/

set_option autoImplicit false

namespace Crc

variable {w : ℕ} {P : BitVec w}

/-- Move the register by one place. -/
def shift (P c : BitVec w) : BitVec w := if c.getLsbD 0 then (c >>> 1) ^^^ P else c >>> 1

/-- The number with one bit. -/
def bit (w : ℕ) (b : Bool) : BitVec w := (BitVec.ofBool b).setWidth w

/-- The check of a bit string, from a register. -/
def crc (P : BitVec w) : (c : BitVec w) → List Bool → BitVec w
  | c, [] => c
  | c, b :: bs => crc P (shift P (c ^^^ bit w b)) bs

/-- A bit string as a number, with the lowest bit first. -/
def word (w : ℕ) : List Bool → BitVec w
  | [] => 0
  | b :: bs => bit w b ^^^ (word w bs <<< 1)

/-! ## Moving the register -/

theorem shift_xor (a b : BitVec w) : shift P (a ^^^ b) = shift P a ^^^ shift P b := by
  have hcancel (x y : BitVec w) : x ^^^ P ^^^ (y ^^^ P) = x ^^^ y := by
    rw [BitVec.xor_comm y P, BitVec.xor_assoc, ← BitVec.xor_assoc P P, BitVec.xor_self,
      BitVec.zero_xor]
  rw [shift, shift, shift, BitVec.getLsbD_xor, BitVec.ushiftRight_xor_distrib]
  cases a.getLsbD 0 <;> cases b.getLsbD 0
  · rfl
  · exact BitVec.xor_assoc ..
  · change a >>> 1 ^^^ b >>> 1 ^^^ P = a >>> 1 ^^^ P ^^^ b >>> 1
    rw [BitVec.xor_assoc, BitVec.xor_comm (b >>> 1), BitVec.xor_assoc]
  · exact (hcancel _ _).symm

theorem iterate_shift_xor (n : ℕ) (a b : BitVec w) :
    (shift P)^[n] (a ^^^ b) = (shift P)^[n] a ^^^ (shift P)^[n] b := by
  induction n generalizing a b with
  | zero => rfl
  | succ n ih => rw [Function.iterate_succ_apply, shift_xor, ih]; rfl

/-- The bit that falls out is the highest one afterwards. -/
theorem getLsbD_shift (hP : P.getLsbD (w - 1) = true) (c : BitVec w) :
    (shift P c).getLsbD (w - 1) = c.getLsbD 0 := by
  have hw : w - 1 < w := BitVec.lt_of_getLsbD hP
  have hhigh : (c >>> 1).getLsbD (w - 1) = false := by
    rw [BitVec.getLsbD_ushiftRight, BitVec.getLsbD_of_ge _ _ (by omega)]
  rw [shift]
  split
  case isTrue hc => rw [BitVec.getLsbD_xor, hhigh, hP, hc]; rfl
  case isFalse hc => rw [hhigh, Bool.not_eq_true _ |>.mp hc]

/-- **A move loses nothing.** -/
theorem shift_injective (hP : P.getLsbD (w - 1) = true) : Function.Injective (shift P) := by
  intro a b h
  have hlow : a.getLsbD 0 = b.getLsbD 0 := by
    rw [← getLsbD_shift hP a, h, getLsbD_shift hP b]
  have hrest : a >>> 1 = b >>> 1 := by
    rw [shift, shift, hlow] at h
    split at h
    · exact (BitVec.xor_left_inj _).mp h
    · exact h
  refine BitVec.eq_of_getLsbD_eq fun i hi ↦ ?_
  cases i with
  | zero => exact hlow
  | succ i => simpa [BitVec.getLsbD_ushiftRight, Nat.add_comm] using
      congrArg (fun x ↦ x.getLsbD i) hrest

/-- Zeros fall out without a trace. -/
theorem iterate_shift_of_low {n : ℕ} {c : BitVec w} (h : ∀ i < n, c.getLsbD i = false) :
    (shift P)^[n] c = c >>> n := by
  induction n with
  | zero => rw [Function.iterate_zero_apply, BitVec.ushiftRight_zero]
  | succ n ih =>
    have hlow : (c >>> n).getLsbD 0 = false := by
      simpa [BitVec.getLsbD_ushiftRight] using h n n.lt_succ_self
    rw [Function.iterate_succ_apply', ih fun i hi ↦ h i (Nat.lt_succ_of_lt hi), shift, hlow,
      if_neg Bool.false_ne_true, ← BitVec.shiftRight_add]

/-! ## Bit strings as numbers -/

theorem getLsbD_bit {i : ℕ} (b : Bool) (hi : i < w) : (bit w b).getLsbD i = (i == 0 && b) := by
  rw [bit, BitVec.getLsbD_setWidth, BitVec.getLsbD_ofBool, decide_eq_true hi]
  rfl

theorem getLsbD_word {i : ℕ} (bs : List Bool) (hi : i < w) :
    (word w bs).getLsbD i = bs.getD i false := by
  induction bs generalizing i with
  | nil => simp [word]
  | cons b bs ih =>
    rw [word, BitVec.getLsbD_xor, getLsbD_bit b hi, BitVec.getLsbD_shiftLeft]
    cases i with
    | zero => simp
    | succ i => simpa [hi] using ih (by omega)

theorem word_injective {bs bs' : List Bool} (hlen : bs.length = bs'.length) (hw : bs.length ≤ w)
    (h : word w bs = word w bs') : bs = bs' := by
  refine List.ext_getElem hlen fun i hi hi' ↦ ?_
  have hbit := congrArg (fun x ↦ x.getLsbD i) h
  simp only [getLsbD_word _ (by omega : i < w)] at hbit
  simpa [List.getD_eq_getElem?_getD, hi, hi'] using hbit

/-- What comes after the first bit is moved into its place. -/
theorem shift_word {bs : List Bool} (hw : bs.length < w) :
    shift P (word w bs <<< 1) = word w bs := by
  have hlow : (word w bs <<< 1).getLsbD 0 = false := by simp
  rw [shift, hlow, if_neg Bool.false_ne_true]
  refine BitVec.eq_of_getLsbD_eq fun i hi ↦ ?_
  rw [BitVec.getLsbD_ushiftRight, BitVec.getLsbD_shiftLeft]
  by_cases hlast : 1 + i < w
  · simp [hlast]
  · rw [getLsbD_word _ hi]
    simp [hlast, List.getElem?_eq_none (show bs.length ≤ i by omega)]

/-! ## Checks -/

@[simp] theorem crc_nil (c : BitVec w) : crc P c [] = c := rfl

theorem crc_append (c : BitVec w) (bs bs' : List Bool) :
    crc P c (bs ++ bs') = crc P (crc P c bs) bs' := by
  induction bs generalizing c with
  | nil => rfl
  | cons b bs ih => exact ih _

/-- **As many bits as fit into the register are read at once.** -/
theorem crc_eq_iterate {bs : List Bool} (hw : bs.length ≤ w) (c : BitVec w) :
    crc P c bs = (shift P)^[bs.length] (c ^^^ word w bs) := by
  induction bs generalizing c with
  | nil => exact (BitVec.xor_zero (x := c)).symm
  | cons b bs ih =>
    rw [crc, ih (Nat.le_of_succ_le hw), List.length_cons, Function.iterate_succ_apply, word,
      ← BitVec.xor_assoc, shift_xor (c ^^^ bit w b), shift_word hw]

theorem crc_injective (hP : P.getLsbD (w - 1) = true) (bs : List Bool) :
    Function.Injective fun c ↦ crc P c bs := by
  intro c d h
  induction bs generalizing c d with
  | nil => exact h
  | cons b bs ih => exact (BitVec.xor_left_inj _).mp (shift_injective hP (ih h))

/-- **Bursts are seen.**  Bit strings that differ in a window which fits into the register have
different checks. -/
theorem crc_burst (hP : P.getLsbD (w - 1) = true) {bs bs' : List Bool}
    (hlen : bs.length = bs'.length) (hw : bs.length ≤ w) (hne : bs ≠ bs') (c : BitVec w)
    (before after : List Bool) :
    crc P c (before ++ bs ++ after) ≠ crc P c (before ++ bs' ++ after) := by
  intro h
  rw [crc_append, crc_append, crc_append, crc_append] at h
  have hwindow := crc_injective hP after h
  rw [crc_eq_iterate hw, crc_eq_iterate (hlen ▸ hw : bs'.length ≤ w), ← hlen] at hwindow
  have hword := (shift_injective hP).iterate _ hwindow
  exact hne (word_injective hlen hw ((BitVec.xor_right_inj _).mp hword))

/-! ## Bytes -/

/-- The bits of a byte, the lowest first. -/
def byteBits (b : UInt8) : List Bool := (List.range 8).map b.toBitVec.getLsbD

@[simp] theorem length_byteBits (b : UInt8) : (byteBits b).length = 8 := by
  rw [byteBits, List.length_map, List.length_range]

theorem byteBits_injective : Function.Injective byteBits := by
  intro b c h
  apply UInt8.toBitVec_inj.mp
  refine BitVec.eq_of_getLsbD_eq fun i hi ↦ ?_
  exact List.map_inj_left.mp h i (List.mem_range.mpr hi)

/-- The bits of a byte string. -/
def bits (bytes : List UInt8) : List Bool := bytes.flatMap byteBits

@[simp] theorem bits_cons (b : UInt8) (bytes : List UInt8) :
    bits (b :: bytes) = byteBits b ++ bits bytes := List.flatMap_cons

@[simp] theorem bits_append (bytes bytes' : List UInt8) :
    bits (bytes ++ bytes') = bits bytes ++ bits bytes' := List.flatMap_append

theorem length_bits (bytes : List UInt8) : (bits bytes).length = 8 * bytes.length := by
  induction bytes with
  | nil => rfl
  | cons b bytes ih => rw [bits_cons, List.length_append, length_byteBits, ih]; simp; omega

theorem bits_injective {bytes bytes' : List UInt8} (h : bits bytes = bits bytes') :
    bytes = bytes' := by
  have hlen : bytes.length = bytes'.length := by
    have := congrArg List.length h
    rw [length_bits, length_bits] at this
    omega
  induction bytes generalizing bytes' with
  | nil => exact (List.eq_nil_of_length_eq_zero hlen.symm).symm
  | cons b bytes ih =>
    obtain ⟨c, bytes', rfl⟩ :=
      List.exists_cons_of_length_pos (Nat.lt_of_lt_of_eq (Nat.succ_pos _) hlen)
    rw [bits_cons, bits_cons] at h
    obtain ⟨hb, hrest⟩ := List.append_inj h (by simp)
    rw [byteBits_injective hb, ih hrest (Nat.succ.inj hlen)]

theorem word_byteBits (b : UInt8) : word w (byteBits b) = b.toBitVec.setWidth w := by
  refine BitVec.eq_of_getLsbD_eq fun i hi ↦ ?_
  rw [getLsbD_word _ hi, BitVec.getLsbD_setWidth]
  by_cases h8 : i < 8
  · simp [byteBits, hi, h8]
  · simp [byteBits, hi, h8, BitVec.getLsbD_of_ge b.toBitVec i (by omega)]

/-- **A table of the bytes**: the low byte of the register is looked up, and the rest is moved. -/
theorem crc_byteBits (hw : 8 ≤ w) (c : BitVec w) (b : UInt8) :
    crc P c (byteBits b) =
      (shift P)^[8] (((c ^^^ b.toBitVec.setWidth w).setWidth 8).setWidth w) ^^^ (c >>> 8) := by
  have hsplit : c ^^^ b.toBitVec.setWidth w =
      ((c ^^^ b.toBitVec.setWidth w).setWidth 8).setWidth w ^^^ (c >>> 8 <<< 8) := by
    refine BitVec.eq_of_getLsbD_eq fun i hi ↦ ?_
    simp only [BitVec.getLsbD_xor, BitVec.getLsbD_setWidth, BitVec.getLsbD_shiftLeft,
      BitVec.getLsbD_ushiftRight, hi, decide_true, Bool.true_and]
    by_cases h8 : i < 8
    · simp [h8]
    · simp [h8, BitVec.getLsbD_of_ge b.toBitVec i (by omega), show 8 + (i - 8) = i by omega]
  have hmoved : (shift P)^[8] (c >>> 8 <<< 8) = c >>> 8 := by
    rw [iterate_shift_of_low fun i hi ↦ by simp [hi]]
    refine BitVec.eq_of_getLsbD_eq fun i hi ↦ ?_
    simp only [BitVec.getLsbD_ushiftRight, BitVec.getLsbD_shiftLeft]
    by_cases hlast : 8 + i < w
    · simp [hlast]
    · simp [hlast, BitVec.getLsbD_of_ge c (8 + i) (by omega)]
  rw [crc_eq_iterate (by simpa using hw), length_byteBits, word_byteBits, hsplit,
    iterate_shift_xor, hmoved]
  congr 3
  rw [← hsplit]

end Crc
