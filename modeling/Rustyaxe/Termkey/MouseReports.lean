import Rustyaxe.Termkey.CsiFaults

/-!
# Mouse reports

What `termkey_interpret_mouse` says of a key that has been read from a report as a terminal writes
it: the button, whether it has been released, and the cell, of which the column is clamped, and of
the line ten bits are left (`sgrMouse_read`).  The number of the button is a `long`, and one of
`2 ^ 63` and more is what is left of it modulo `2 ^ 64`.
-/

set_option autoImplicit false

namespace Rustyaxe.Termkey

open TermKeyKey

/-- The final byte of a report. -/
def mouseFinal (release : Bool) : UInt8 := if release then 0x6d else 0x4d

/-- A report of the mouse, as it is written. -/
def sgrMouse (b x y : ℕ) (release : Bool) : List UInt8 :=
  [0x1b, 0x5b] ++ csiText (some 0x3c) [some b, some x, some y] none ++ [mouseFinal release]

theorem charOfLong_ofNat (n : ℕ) : charOfLong (BitVec.ofNat 64 n) = UInt8.ofNat n := by
  apply UInt8.toNat_inj.mp
  rw [charOfLong, UInt8.toNat_ofBitVec, BitVec.toNat_setWidth, BitVec.toNat_ofNat,
    UInt8.toNat_ofNat']
  omega

/-- The modifiers that are kept in the same byte do not matter. -/
theorem mouseEvent_and (code : UInt8) : mouseEvent (code &&& 0xe3) = mouseEvent code := by
  have hdrag : code &&& 0xe3 &&& 0x20 = code &&& 0x20 := UInt8.and_assoc code 0xe3 0x20
  have hbutton : code &&& 0xe3 &&& 0xc3 = code &&& 0xc3 := UInt8.and_assoc code 0xe3 0xc3
  unfold mouseEvent
  rw [hdrag, hbutton]

theorem mouseModifiers (b : ℕ) :
    ((UInt8.ofNat b &&& 0x1c) >>> 2).toBitVec.setWidth 32 = BitVec.ofNat 32 (b / 4 % 8) := by
  have hall : ∀ c < 0x100, ((UInt8.ofNat c &&& 0x1c) >>> 2).toNat = c / 4 % 8 := by decide +kernel
  have hmod : UInt8.ofNat b = UInt8.ofNat (b % 0x100) := by
    apply UInt8.toNat_inj.mp
    rw [UInt8.toNat_ofNat', UInt8.toNat_ofNat', Nat.mod_mod]
  apply BitVec.eq_of_toNat_eq
  rw [BitVec.toNat_setWidth, UInt8.toNat_toBitVec, hmod, hall _ (Nat.mod_lt _ (by decide)),
    BitVec.toNat_ofNat]
  omega

/-- A number of a report is clamped. -/
theorem toNat_clamp {n m : ℕ} (hn : n < 2 ^ 31) (hm : m < 2 ^ 31) :
    (if (BitVec.ofNat 32 m).slt ((BitVec.ofNat 64 n).setWidth 32) then BitVec.ofNat 32 m
      else (BitVec.ofNat 64 n).setWidth 32).toNat = min n m := by
  have hwidth : (BitVec.ofNat 64 n).setWidth 32 = BitVec.ofNat 32 n := by
    apply BitVec.eq_of_toNat_eq
    rw [BitVec.toNat_setWidth, BitVec.toNat_ofNat, BitVec.toNat_ofNat]
    omega
  have hint : ∀ k < 2 ^ 31, (BitVec.ofNat 32 k).toInt = k := fun k hk ↦ by
    rw [BitVec.toInt_ofNat', Int.bmod_eq_of_le (by omega) (by omega)]
  have hnat : ∀ k < 2 ^ 31, (BitVec.ofNat 32 k).toNat = k := fun k hk ↦ by
    rw [BitVec.toNat_ofNat, Nat.mod_eq_of_lt (by omega)]
  rw [hwidth, BitVec.slt, hint m hm, hint n hn]
  split
  · next h =>
    rw [hnat m hm]
    simp only [decide_eq_true_eq] at h
    omega
  · next h =>
    rw [hnat n hn]
    simp only [decide_eq_true_eq] at h
    omega

/-- The bit that says that a button has been released is none of a position. -/
theorem position_high (line col : ℕ) :
    UInt8.ofNat ((line &&& 0xf00) >>> 8 ||| (col &&& 0x300) >>> 4) &&& 0x80 = 0 := by
  have hsmall : ∀ a < 0x10, ∀ c < 4, (a ||| c * 0x10) &&& 0x80 = 0 := by decide
  apply UInt8.toNat_inj.mp
  rw [UInt8.toNat_and, (position_bytes line col).2]
  exact hsmall _ (Nat.mod_lt _ (by decide)) _ (Nat.mod_lt _ (by decide))

/-- The bytes of the key of a report. -/
theorem mouseKey_bytes (key : TermKeyKey) (b : ℕ) {x y : ℕ} (hx : x < 2 ^ 31) (hy : y < 2 ^ 31) :
    let k := mouseKey key (BitVec.ofNat 64 b) (BitVec.ofNat 64 x) (BitVec.ofNat 64 y)
    k.mouse 0 = UInt8.ofNat b &&& 0xe3 ∧ k.getLinecol = (min y 0x7ff % 0x400, min x 0xfff) ∧
      k.mouse 3 &&& 0x80 = 0 := by
  unfold mouseKey
  dsimp only
  rw [charOfLong_ofNat]
  generalize hbase :
    ({ key.setMouse (UInt8.ofNat b &&& 0xe3) (key.mouse 1) (key.mouse 2) (key.mouse 3) with
        type := .mouse
        modifiers := ((UInt8.ofNat b &&& 0x1c) >>> 2).toBitVec.setWidth 32 } : TermKeyKey) = base
  have hbase0 : base.mouse 0 = UInt8.ofNat b &&& 0xe3 := by
    rw [← hbase]
    exact (mouse_setMouse key _ _ _ _).1
  refine ⟨?_, ?_, ?_⟩
  · exact (mouse_setMouse base _ _ _ _).1.trans hbase0
  · have hline := toNat_clamp hx (by decide : 0xfff < 2 ^ 31)
    have hcol := toNat_clamp hy (by decide : 0x7ff < 2 ^ 31)
    rw [getLinecol_setLinecol]
    refine Prod.ext ?_ ?_
    · exact congrArg (· % 0x400) hcol
    · refine (congrArg (· % 0x1000) hline).trans (Nat.mod_eq_of_lt ?_)
      omega
  · unfold setLinecol
    dsimp only
    rw [(mouse_setMouse base _ _ _ _).2.2.2]
    exact position_high _ _

theorem parseCsi_sgrMouse (b x y : ℕ) (release : Bool) (rest : List UInt8) :
    parseCsi 16 2 (sgrMouse b x y release ++ rest) = some (some
      ⟨(sgrMouse b x y release).length, [BitVec.ofNat 64 b, BitVec.ofNat 64 x, BitVec.ofNat 64 y],
        csiCommand (mouseFinal release) 0x3c 0⟩) := by
  have hfinal : isFinal (mouseFinal release) = true := by cases release <;> rfl
  have hparse := @parseCsi_csiText (some 0x3c) (by simp) [some b, some x, some y] none (by simp)
    (mouseFinal release) hfinal [0x1b, 0x5b] rest
  have hbytes : [0x1b, 0x5b] ++ csiText (some 0x3c) [some b, some x, some y] none ++
      mouseFinal release :: rest = sgrMouse b x y release ++ rest := by
    rw [sgrMouse, List.append_assoc _ [mouseFinal release] rest]
    rfl
  have hlen : (sgrMouse b x y release).length = [(0x1b : UInt8), 0x5b].length +
      (csiText (some 0x3c) [some b, some x, some y] none).length + 1 := by
    rw [sgrMouse, List.length_append, List.length_append]
    rfl
  have hvalues : csiValues [some b, some x, some y] =
      [BitVec.ofNat 64 b, BitVec.ofNat 64 x, BitVec.ofNat 64 y] := rfl
  rw [hbytes, hvalues, if_pos (by simp), ← hlen] at hparse
  exact hparse

/-- The key of a report that says that the button has been released. -/
def released (k : TermKeyKey) : TermKeyKey :=
  k.setMouse (k.mouse 0) (k.mouse 1) (k.mouse 2) (k.mouse 3 ||| 0x80)

theorem high_released (c : UInt8) : (c ||| 0x80) &&& 0x80 ≠ 0 := by
  have habsorb : (c ||| 0x80) &&& 0x80 = 0x80 := by
    apply UInt8.toNat_inj.mp
    rw [UInt8.toNat_and, UInt8.toNat_or]
    exact Nat.eq_of_testBit_eq fun i ↦ by simpa using Or.inr
  rw [habsorb]
  decide

/-- The position is not touched. -/
theorem getLinecol_released (k : TermKeyKey) : (released k).getLinecol = k.getLinecol := by
  obtain ⟨-, h1, h2, h3⟩ :=
    mouse_setMouse k (k.mouse 0) (k.mouse 1) (k.mouse 2) (k.mouse 3 ||| 0x80)
  have hline : ((k.mouse 3 ||| 0x80).toNat &&& 0x70) = (k.mouse 3).toNat &&& 0x70 := by
    rw [UInt8.toNat_or, Nat.and_or_distrib_right]
    exact Nat.or_zero _
  have hcol : ((k.mouse 3 ||| 0x80).toNat &&& 0x0f) = (k.mouse 3).toNat &&& 0x0f := by
    rw [UInt8.toNat_or, Nat.and_or_distrib_right]
    exact Nat.or_zero _
  unfold getLinecol released
  rw [h1, h2, h3, hline, hcol]

theorem csiHandle_sgrMouse (flags : TermKeyFlags) (key : TermKeyKey) (arg0 arg1 arg2 : BitVec 64)
    (release : Bool) :
    csiHandle flags key (csiCommand (mouseFinal release) 0x3c 0) [arg0, arg1, arg2] =
      some (true, if release then released (mouseKey key arg0 arg1 arg2)
        else mouseKey key arg0 arg1 arg2) := by
  have hhandler : csiHandlers (mouseFinal release) = some handleCsiM := by cases release <;> rfl
  rw [csiHandle]
  rw [final_csiCommand, hhandler]
  dsimp only
  rw [handleCsiM]
  simp only [csiCommand_inj]
  cases release <;> rfl

/-- **What is read of a report** of the mouse is what has been written, but for what there is no
room for. -/
theorem sgrMouse_read (flags : TermKeyFlags) (closed force : Bool) (p : Peeked) (b : ℕ) {x y : ℕ}
    (hx : x < 2 ^ 31) (hy : y < 2 ^ 31) (release : Bool) (rest behind : List UInt8) :
    ∃ q, peekkeyCsiDriver flags closed force (sgrMouse b x y release ++ rest) behind p =
        some (.key, q) ∧
      q.nbytes = (sgrMouse b x y release).length ∧ q.key.modifiers = BitVec.ofNat 32 (b / 4 % 8) ∧
      termkeyInterpretMouse q.key = some {
        event := if release then .release else (mouseEvent (UInt8.ofNat b)).1
        button := (mouseEvent (UInt8.ofNat b)).2
        line := min y 0x7ff % 0x400
        col := min x 0xfff } := by
  have hcsi : peekkeyCsiDriver flags closed force (sgrMouse b x y release ++ rest) behind p =
      peekkeyCsi flags 2 force (sgrMouse b x y release ++ rest) p := rfl
  obtain ⟨hcode, hlinecol, hhigh⟩ := mouseKey_bytes p.key b hx hy
  rw [hcsi, peekkeyCsi, parseCsi_sgrMouse, Option.bind_eq_bind, Option.bind_some]
  dsimp only
  rw [if_neg (fun h ↦ absurd h.2 (by simp)), csiHandle_sgrMouse, Option.bind_eq_bind,
    Option.bind_some]
  generalize hk : mouseKey p.key (BitVec.ofNat 64 b) (BitVec.ofNat 64 x) (BitVec.ofNat 64 y) =
    k at hcode hlinecol hhigh
  have htype : k.type = .mouse := by
    rw [← hk]
    rfl
  have hmodifiers : k.modifiers = BitVec.ofNat 32 (b / 4 % 8) := by
    rw [← mouseModifiers, ← charOfLong_ofNat, ← hk]
    rfl
  have hevent : mouseEvent (k.mouse 0) = mouseEvent (UInt8.ofNat b) := by rw [hcode, mouseEvent_and]
  cases release with
  | false =>
    refine ⟨{ p with key := k, nbytes := _ }, rfl, rfl, hmodifiers, ?_⟩
    rw [termkeyInterpretMouse]
    rw [if_pos htype, hevent, hlinecol, hhigh]
    rfl
  | true =>
    have htype' : (released k).type = .mouse := htype
    refine ⟨{ p with key := released k, nbytes := _ }, rfl, rfl, hmodifiers, ?_⟩
    show termkeyInterpretMouse (released k) = _
    rw [termkeyInterpretMouse]
    rw [if_pos htype', getLinecol_released, hlinecol, released, (mouse_setMouse ..).1,
      (mouse_setMouse ..).2.2.2, hevent]
    dsimp only
    rw [if_pos (high_released _)]
    rfl

/-- The cell in column 5 of line 1030 is reported as one of line 6. -/
theorem sgrMouse_read_far : ∃ q,
    peekkeyCsiDriver ⟨false, false, false, false, true⟩ false false (sgrMouse 0 5 1030 false) []
        ⟨⟨.unicode, 0, 0, []⟩, 0, 0, 0, none⟩ = some (.key, q) ∧
      termkeyInterpretMouse q.key = some ⟨.press, 1, 6, 5⟩ := by
  obtain ⟨q, hq, -, -, hreport⟩ := sgrMouse_read ⟨false, false, false, false, true⟩ false false
    ⟨⟨.unicode, 0, 0, []⟩, 0, 0, 0, none⟩ 0 (by decide : 5 < 2 ^ 31) (by decide : 1030 < 2 ^ 31)
    false [] []
  rw [List.append_nil] at hq
  exact ⟨q, hq, hreport⟩

end Rustyaxe.Termkey
