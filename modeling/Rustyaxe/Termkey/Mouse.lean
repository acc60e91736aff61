import Rustyaxe.Termkey.Key

/-!
# Positions in keys

`termkey_key_set_linecol` and `termkey_key_get_linecol` of `termkey-internal.h`, and
`termkey_interpret_mouse` of `tui.driver-csi.c`.

A position is kept in three bytes of a key.  There is room for twelve bits of the first number,
and of the second one the code reads back eleven, but writes ten of them
(`getLinecol_setLinecol`).
-/

set_option autoImplicit false

namespace Rustyaxe.Termkey

namespace TermKeyKey

/-- `termkey_key_set_linecol` -/
def setLinecol (key : TermKeyKey) (line col : BitVec 32) : TermKeyKey :=
  let line := if (0xfff : BitVec 32).slt line then 0xfff else line
  let col := if (0x7ff : BitVec 32).slt col then 0x7ff else col
  key.setMouse (key.mouse 0) (UInt8.ofNat (line.toNat &&& 0xff)) (UInt8.ofNat (col.toNat &&& 0xff))
    (UInt8.ofNat ((line.toNat &&& 0xf00) >>> 8 ||| (col.toNat &&& 0x300) >>> 4))

/-- `termkey_key_get_linecol`: the line and the column. -/
def getLinecol (key : TermKeyKey) : ℕ × ℕ :=
  ((key.mouse 2).toNat ||| ((key.mouse 3).toNat &&& 0x70) <<< 4,
    (key.mouse 1).toNat ||| ((key.mouse 3).toNat &&& 0x0f) <<< 8)

end TermKeyKey

/-- `TermKeyMouseEvent` -/
inductive TermKeyMouseEvent where
  | unknown
  | press
  | drag
  | release
  deriving DecidableEq

/-- What `termkey_interpret_mouse` says of a key. -/
structure MouseReport where
  event : TermKeyMouseEvent
  button : ℕ
  line : ℕ
  col : ℕ
  deriving DecidableEq

/-- The event and the button of `termkey_interpret_mouse`, for the byte `code` of a key. -/
def mouseEvent (code : UInt8) : TermKeyMouseEvent × ℕ :=
  let drag := code &&& 0x20 ≠ 0
  let code := code &&& 0xc3
  if code < 3 then (if drag then .drag else .press, code.toNat + 1)
  else if code = 3 then (.release, 0)
  else if code = 64 ∨ code = 65 then (if drag then .drag else .press, code.toNat + 4 - 64)
  else (.unknown, 0)

/-- `termkey_interpret_mouse` -/
def termkeyInterpretMouse (key : TermKeyKey) : Option MouseReport :=
  if key.type = .mouse then
    let (event, button) := mouseEvent (key.mouse 0)
    let (line, col) := key.getLinecol
    some {
      event := if key.mouse 3 &&& 0x80 ≠ 0 then .release else event
      button, line, col }
  else none

namespace TermKeyKey

variable (key : TermKeyKey)

/-! ## What is read back -/

theorem mouse_setMouse (m0 m1 m2 m3 : UInt8) :
    (key.setMouse m0 m1 m2 m3).mouse 0 = m0 ∧ (key.setMouse m0 m1 m2 m3).mouse 1 = m1 ∧
      (key.setMouse m0 m1 m2 m3).mouse 2 = m2 ∧ (key.setMouse m0 m1 m2 m3).mouse 3 = m3 := by
  unfold mouse setMouse
  refine ⟨?_, ?_, ?_, ?_⟩ <;>
    · apply UInt8.toBitVec_inj.mp
      ext i hi
      simp only [BitVec.getElem_extractLsb', BitVec.getLsbD_append]
      simp
      grind

@[simp] theorem type_setMouse (m0 m1 m2 m3 : UInt8) :
    (key.setMouse m0 m1 m2 m3).type = key.type := rfl

@[simp] theorem modifiers_setMouse (m0 m1 m2 m3 : UInt8) :
    (key.setMouse m0 m1 m2 m3).modifiers = key.modifiers := rfl

/-- The bytes of a key are what is seen of its symbol. -/
theorem mouse_eq_of_sym {key key' : TermKeyKey} (h : key.sym = key'.sym) {i : ℕ} (hi : i < 4) :
    key.mouse i = key'.mouse i := by
  apply UInt8.toBitVec_inj.mp
  ext j hj
  have hbit := congrArg (BitVec.getLsbD · (8 * i + j)) h
  simp only [sym, BitVec.getLsbD_setWidth, show 8 * i + j < 32 by omega, decide_true, Bool.true_and]
    at hbit
  simp only [mouse, BitVec.getElem_extractLsb', hbit]

/-- The three bytes of a position. -/
theorem position_bytes (line col : ℕ) :
    (UInt8.ofNat (line &&& 0xff)).toNat = line % 0x100 ∧
      (UInt8.ofNat ((line &&& 0xf00) >>> 8 ||| (col &&& 0x300) >>> 4)).toNat
        = line / 0x100 % 0x10 ||| col / 0x100 % 4 * 0x10 := by
  have hlow : line &&& 0xff = line % 0x100 := Nat.and_two_pow_sub_one_eq_mod line 8
  have hshift : ∀ n m k : ℕ, (n &&& m) >>> k = n >>> k &&& m >>> k := fun n m k ↦
    Nat.shiftRight_and_distrib
  have hline : (line &&& 0xf00) >>> 8 = line / 0x100 % 0x10 := by
    rw [hshift, Nat.shiftRight_eq_div_pow]
    exact Nat.and_two_pow_sub_one_eq_mod _ 4
  have hcol : (col &&& 0x300) >>> 4 = col / 0x100 % 4 * 0x10 := by
    have hbits : (col &&& 3 <<< 8) >>> 4 = (col >>> 8 &&& 3) <<< 4 := by
      apply Nat.eq_of_testBit_eq
      intro i
      simp only [Nat.testBit_shiftRight, Nat.testBit_and, Nat.testBit_shiftLeft]
      by_cases hi : 4 ≤ i
      · have h1 : 4 + i ≥ 8 := by omega
        have h2 : 4 + i - 8 = i - 4 := by omega
        have h3 : 8 + (i - 4) = 4 + i := by omega
        simp [hi, h1, h2, h3]
      · have h1 : ¬ 4 + i ≥ 8 := by omega
        simp [hi, h1]
    have hmod : col >>> 8 &&& 3 = col >>> 8 % 4 := Nat.and_two_pow_sub_one_eq_mod _ 2
    rw [show 0x300 = 3 <<< 8 from rfl, hbits, hmod, Nat.shiftRight_eq_div_pow, Nat.shiftLeft_eq]
  have hor : ∀ a < 0x10, ∀ b < 4, (a ||| b * 0x10) < 0x100 := by decide
  have hsmall := hor (line / 0x100 % 0x10) (by omega) (col / 0x100 % 4) (by omega)
  rw [hlow, hline, hcol]
  constructor
  · rw [UInt8.toNat_ofNat']
    omega
  · rw [UInt8.toNat_ofNat', Nat.mod_eq_of_lt hsmall]

/-- **What is read back of a position.** -/
theorem getLinecol_setLinecol (line col : BitVec 32) :
    (key.setLinecol line col).getLinecol
      = ((if (0x7ff : BitVec 32).slt col then 0x7ff else col).toNat % 0x400,
        (if (0xfff : BitVec 32).slt line then 0xfff else line).toNat % 0x1000) := by
  unfold setLinecol getLinecol
  dsimp only
  generalize (if (0xfff : BitVec 32).slt line then 0xfff else line).toNat = m
  generalize (if (0x7ff : BitVec 32).slt col then 0x7ff else col).toNat = n
  have hread : ∀ a < 0x10, ∀ b < 4, ((a ||| b * 0x10) &&& 0x70) <<< 4 = b * 0x100 ∧
      ((a ||| b * 0x10) &&& 0x0f) <<< 8 = a * 0x100 := by
    decide
  obtain ⟨-, h1, h2, h3⟩ := mouse_setMouse key (key.mouse 0) (UInt8.ofNat (m &&& 0xff))
    (UInt8.ofNat (n &&& 0xff)) (UInt8.ofNat ((m &&& 0xf00) >>> 8 ||| (n &&& 0x300) >>> 4))
  obtain ⟨hm, hmn⟩ := position_bytes m n
  obtain ⟨hn, -⟩ := position_bytes n m
  obtain ⟨hline, hcol⟩ := hread (m / 0x100 % 0x10) (by omega) (n / 0x100 % 4) (by omega)
  have hadd : ∀ a b : ℕ, a % 0x100 ||| b * 0x100 = b * 0x100 + a % 0x100 := by
    intro a b
    have h := Nat.two_pow_add_eq_or_of_lt (Nat.mod_lt a (by decide : 0 < 2 ^ 8)) b
    rw [Nat.or_comm, Nat.mul_comm b]
    exact h.symm
  simp only [h1, h2, h3, hm, hn, hmn, hline, hcol, hadd]
  exact Prod.ext (by simp only; omega) (by simp only; omega)

end TermKeyKey

end Rustyaxe.Termkey
