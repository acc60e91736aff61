import Mathlib.Data.List.Basic

/-!
# Bytes as bit strings

The bits of a byte string, the highest bit of every byte first.  Two byte strings begin with the
same `8 * n + r` bits when they begin with the same `n` bytes and no bit of the mask with `r`
leading ones tells the bytes there apart (`take_bits_eq_iff`).
-/

set_option autoImplicit false

namespace BitString

/-- The bits of a byte, the highest first. -/
def byteBits (b : UInt8) : List Bool := (List.range 8).map fun i ↦ b.toNat.testBit (7 - i)

/-- The bits of a byte string. -/
def bits (bytes : List UInt8) : List Bool := bytes.flatMap byteBits

@[simp] theorem length_byteBits (b : UInt8) : (byteBits b).length = 8 := by
  rw [byteBits, List.length_map, List.length_range]

@[simp] theorem bits_nil : bits [] = [] := rfl

@[simp] theorem bits_cons (b : UInt8) (bytes : List UInt8) :
    bits (b :: bytes) = byteBits b ++ bits bytes := List.flatMap_cons

theorem take_bits_cons (b : UInt8) (bytes : List UInt8) (n : ℕ) :
    (bits (b :: bytes)).take (8 + n) = byteBits b ++ (bits bytes).take n := by
  rw [bits_cons, List.take_append, length_byteBits, Nat.add_sub_cancel_left,
    List.take_of_length_le (by simp)]

theorem bits_take (bytes : List UInt8) (n : ℕ) :
    bits (bytes.take n) = (bits bytes).take (8 * n) := by
  induction n generalizing bytes with
  | zero => rw [Nat.mul_zero, List.take_zero, List.take_zero, bits_nil]
  | succ n ih =>
    cases bytes with
    | nil => simp
    | cons b bytes =>
      rw [List.take_succ_cons, bits_cons, ih, Nat.mul_succ, Nat.add_comm, take_bits_cons]

/-- The bits of two bytes agree where those of their difference are zero. -/
theorem take_byteBits_xor (b c : UInt8) (r : ℕ) : (byteBits b).take r = (byteBits c).take r ↔
    ∀ i < r, i < 8 → (b ^^^ c).toNat.testBit (7 - i) = false := by
  simp only [List.ext_getElem?_iff, byteBits, List.getElem?_take, List.getElem?_map]
  refine forall_congr' fun i ↦ ?_
  by_cases hr : i < r
  · by_cases hi : i < 8
    · simp [hr, hi, Nat.testBit_xor]
    · simp [hr, hi]
  · simp [hr]

/-- A byte is determined by its bits. -/
theorem eq_of_testBit {b c : UInt8} (h : ∀ i < 8, b.toNat.testBit i = c.toNat.testBit i) :
    b = c := by
  refine UInt8.toNat_inj.mp (Nat.eq_of_testBit_eq fun i ↦ ?_)
  by_cases hi : i < 8
  · exact h i hi
  · have hpow : 2 ^ 8 ≤ 2 ^ i := Nat.pow_le_pow_right (by decide) (Nat.le_of_not_lt hi)
    rw [Nat.testBit_lt_two_pow (Nat.lt_of_lt_of_le b.toNat_lt hpow),
      Nat.testBit_lt_two_pow (Nat.lt_of_lt_of_le c.toNat_lt hpow)]

theorem byteBits_inj {b c : UInt8} : byteBits b = byteBits c ↔ b = c := by
  refine ⟨fun h ↦ eq_of_testBit fun i hi ↦ ?_, fun h ↦ h ▸ rfl⟩
  have hbits := (take_byteBits_xor b c 8).mp (congrArg (List.take 8) h)
  have hbit := hbits (7 - i) (by omega) (by omega)
  rw [UInt8.toNat_xor, Nat.testBit_xor, show 7 - (7 - i) = i by omega] at hbit
  simpa using hbit

/-- The bits of the mask with `r` leading ones. -/
theorem testBit_mask {r i : ℕ} (hr : r < 8) (hpos : r ≠ 0) (hi : i < 8) :
    (255 <<< UInt8.ofNat (8 - r) : UInt8).toNat.testBit i = decide (8 - r ≤ i) := by
  have h : ∀ r i : Fin 8, r.val ≠ 0 →
      (255 <<< UInt8.ofNat (8 - r) : UInt8).toNat.testBit i = decide (8 - r.val ≤ i) := by
    decide +kernel
  exact h ⟨r, hr⟩ ⟨i, hi⟩ hpos

/-- The mask of `r` leading ones keeps the first `r` bits. -/
theorem and_mask_eq_zero_iff (b : UInt8) {r : ℕ} (hr : r < 8) (hpos : r ≠ 0) :
    b &&& (255 <<< UInt8.ofNat (8 - r)) = 0 ↔ ∀ i < r, i < 8 → b.toNat.testBit (7 - i) = false := by
  have hbit {i : ℕ} (hi : i < 8) : (b &&& (255 <<< UInt8.ofNat (8 - r))).toNat.testBit i =
      (b.toNat.testBit i && decide (8 - r ≤ i)) := by
    rw [UInt8.toNat_and, Nat.testBit_and, testBit_mask hr hpos hi]
  constructor
  · intro h i hir hi
    have hzero := hbit (i := 7 - i) (by omega)
    rw [h, decide_eq_true (by omega), Bool.and_true] at hzero
    exact hzero.symm.trans (Nat.zero_testBit _)
  · refine fun h ↦ eq_of_testBit fun i hi ↦ (hbit hi).trans ?_
    by_cases hmask : 8 - r ≤ i
    · have hfirst := h (7 - i) (by omega) (by omega)
      rw [show 7 - (7 - i) = i by omega] at hfirst
      rw [hfirst, Bool.false_and]
      exact (Nat.zero_testBit i).symm
    · rw [decide_eq_false hmask, Bool.and_false]
      exact (Nat.zero_testBit i).symm

/-- **Comparing the first bits** with whole bytes and a mask. -/
theorem take_bits_eq_iff {l m : List UInt8} {n r : ℕ} (hr : r < 8) (hl : 8 * n + r ≤ 8 * l.length)
    (hm : 8 * n + r ≤ 8 * m.length) : (bits l).take (8 * n + r) = (bits m).take (8 * n + r) ↔
      l.take n = m.take n ∧
        (r ≠ 0 → (l.getD n 0 ^^^ m.getD n 0) &&& (255 <<< UInt8.ofNat (8 - r)) = 0) := by
  induction n generalizing l m with
  | zero =>
    rw [Nat.mul_zero, Nat.zero_add, List.take_zero, List.take_zero, and_iff_right rfl]
    by_cases hpos : r = 0
    · simp [hpos]
    · obtain ⟨b, l, rfl⟩ := List.exists_cons_of_length_pos (by omega : 0 < l.length)
      obtain ⟨c, m, rfl⟩ := List.exists_cons_of_length_pos (by omega : 0 < m.length)
      rw [bits_cons, bits_cons, List.take_append_of_le_length (by simp; omega),
        List.take_append_of_le_length (by simp; omega), take_byteBits_xor,
        ← and_mask_eq_zero_iff _ hr hpos]
      simp [hpos]
  | succ n ih =>
    obtain ⟨b, l, rfl⟩ := List.exists_cons_of_length_pos (by omega : 0 < l.length)
    obtain ⟨c, m, rfl⟩ := List.exists_cons_of_length_pos (by omega : 0 < m.length)
    rw [List.length_cons] at hl hm
    have hsplit : 8 * (n + 1) + r = 8 + (8 * n + r) := by omega
    have hboth : byteBits b ++ (bits l).take (8 * n + r) = byteBits c ++ (bits m).take (8 * n + r) ↔
        byteBits b = byteBits c ∧ (bits l).take (8 * n + r) = (bits m).take (8 * n + r) :=
      ⟨fun h ↦ List.append_inj h (by simp), fun h ↦ by rw [h.1, h.2]⟩
    rw [hsplit, take_bits_cons, take_bits_cons, hboth, byteBits_inj, ih (by omega) (by omega),
      List.take_succ_cons, List.take_succ_cons, List.cons.injEq, and_assoc]
    rfl

end BitString
