import Rustyaxe.Tui.Keys

/-!
# Editing the input line

`LineOk` says that the cursor is in the line, that the line is in `input_buf`, and that its
terminator is the first NUL there.  The operations of `InputState` are edits of a text in a buffer,
and `ShowsText` says of which: each of them is one of the edits of `TextBuffer`.  The moves and the
deletions leave a part of the text (`ShowsPart`).

Drawing leaves such a line as it is, if `buf` has room for what is drawn (`lineWidth`).
-/

set_option autoImplicit false

namespace Rustyaxe

open TextBuffer Runs

variable {κ : Type}

/-! ## What a line is -/

/-- The cursor is in the line, and the line ends with the first NUL of the buffer. -/
structure LineOk (st : InputState κ) : Prop where
  cursorPos_nonneg : 0 ≤ st.cursorPos
  cursorPos_le : st.cursorPos ≤ st.inputLen
  inputLen_le : st.inputLen ≤ tuiInputlen - 1
  terminated : load st.inputBuf st.inputLen = some 0
  no_nul : ∀ i, 0 ≤ i → i < st.inputLen → load st.inputBuf i ≠ some 0

/-- The buffer holds the text, and the cursor is in it. -/
structure ShowsText (st : InputState κ) (text : CStr) : Prop where
  holds : HoldsText 0 tuiInputlen st.inputBuf text
  inputLen_eq : st.inputLen = text.length
  cursorPos_nonneg : 0 ≤ st.cursorPos
  cursorPos_le : st.cursorPos ≤ st.inputLen

/-- The buffer holds the text, or what is left of it. -/
def ShowsPart (st : InputState κ) (text : CStr) : Prop :=
  ∃ part : CStr, part.Sublist text ∧ ShowsText st part

/-- How much of `buf` a character fills when it is drawn. -/
def charWidth (c : UInt8) : ℕ := ((placeholder c).map List.length).getD 1

/-- How much of `buf` is filled when the text is drawn. -/
def lineWidth : CStr → ℕ
  | [] => 0
  | c :: text => charWidth c + lineWidth text

/-- The buffer holds some text, and the text can be drawn. -/
def IsLine (st : InputState κ) : Prop := ∃ text, ShowsText st text ∧ lineWidth text < drawBufsize

theorem ShowsText.lineOk {st : InputState κ} {text : CStr} (h : ShowsText st text) : LineOk st := by
  have hlt := h.holds.length_lt
  refine ⟨h.cursorPos_nonneg, h.cursorPos_le, ?_, ?_, fun i hi hlen ↦ ?_⟩
  · rw [h.inputLen_eq]
    omega
  · rw [h.inputLen_eq, h.holds.load_length]
  · rw [h.inputLen_eq] at hlen
    obtain ⟨n, rfl⟩ := Int.eq_ofNat_of_zero_le hi
    rw [h.holds.load_lt (by omega), Ne, Option.some.injEq]
    exact fun hzero ↦ h.holds.no_nul (hzero ▸ List.getElem_mem _)

theorem showsText_empty (history : κ → InputHistory) : ShowsText (InputState.empty history) [] where
  holds := ⟨List.length_replicate, ⟨List.replicate 511 0, rfl⟩, List.not_mem_nil⟩
  inputLen_eq := rfl
  cursorPos_nonneg := Int.le_refl 0
  cursorPos_le := Int.le_refl 0

theorem clamp_eq_self {st : InputState κ} (h0 : 0 ≤ st.cursorPos) (hle : st.cursorPos ≤ st.inputLen)
    (hlen : st.inputLen ≤ tuiInputlen - 1) : st.clamp = st := by
  rw [InputState.clamp]
  rw [if_neg (by omega), if_neg (by omega), if_neg (by omega), if_neg (by omega)]

/-! ## Drawing -/

@[simp] theorem lineWidth_append (s t : CStr) : lineWidth (s ++ t) = lineWidth s + lineWidth t := by
  induction s with
  | nil => exact (Nat.zero_add _).symm
  | cons c s ih => rw [List.cons_append, lineWidth, lineWidth, ih, Nat.add_assoc]

@[simp] theorem lineWidth_singleton (c : UInt8) : lineWidth [c] = charWidth c := rfl

theorem lineWidth_le {s t : CStr} (h : s.Sublist t) : lineWidth s ≤ lineWidth t := by
  induction h with
  | slnil => exact Nat.le_refl 0
  | cons c _ ih => exact Nat.le_trans ih (Nat.le_add_left _ _)
  | cons_cons c _ ih => exact Nat.add_le_add_left ih _

theorem drawChar_eq (bufPos : ℕ) (c : UInt8) (h : bufPos < drawBufsize) :
    drawChar bufPos c = some (bufPos + charWidth c) := by
  rw [drawChar, charWidth]
  cases placeholder c with
  | some text => exact if_pos (Nat.le_of_lt h)
  | none => exact if_pos h

theorem eq_of_drawChar {bufPos bufPos' : ℕ} {c : UInt8} (h : drawChar bufPos c = some bufPos') :
    bufPos' = bufPos + charWidth c := by
  rw [drawChar] at h
  rw [charWidth]
  cases hc : placeholder c with
  | some text =>
    rw [hc] at h
    dsimp only at h
    split at h
    · exact (Option.some.inj h).symm
    · cases h
  | none =>
    rw [hc] at h
    dsimp only at h
    split at h
    · exact (Option.some.inj h).symm
    · cases h

/-- **The loop that draws the line** gets to its end, if there is room for the line. -/
theorem foldlM_drawChar : ∀ (text : CStr) {bufPos : ℕ}, bufPos + lineWidth text < drawBufsize →
    text.foldlM drawChar bufPos = some (bufPos + lineWidth text)
  | [], _, _ => rfl
  | c :: text, bufPos, h => by
    rw [lineWidth] at h ⊢
    rw [List.foldlM_cons, drawChar_eq bufPos c (by omega), Option.bind_eq_bind, Option.bind_some,
      foldlM_drawChar text (by omega), Nat.add_assoc]

theorem eq_of_foldlM_drawChar : ∀ (text : CStr) {bufPos bufPos' : ℕ},
    text.foldlM drawChar bufPos = some bufPos' → bufPos' = bufPos + lineWidth text
  | [], _, _, h => (Option.some.inj h).symm
  | c :: text, bufPos, bufPos', h => by
    rw [List.foldlM_cons, Option.bind_eq_bind, Option.bind_eq_some_iff] at h
    obtain ⟨next, hnext, h⟩ := h
    rw [eq_of_foldlM_drawChar text h, eq_of_drawChar hnext, lineWidth, Nat.add_assoc]

theorem tuiUpdateInputLine_cases {w : KeyWorld κ} {st st' : InputState κ}
    (h : tuiUpdateInputLine w st = some st') : st' = st ∨ st' = st.clamp := by
  rw [tuiUpdateInputLine] at h
  split at h
  · obtain ⟨bufPos, -, h⟩ := Option.bind_eq_some_iff.mp h
    split at h
    · exact .inr (Option.some.inj h).symm
    · cases h
  · exact .inl (Option.some.inj h).symm

/-- An empty line is drawn, wherever the cursor has been. -/
theorem tuiUpdateInputLine_empty (w : KeyWorld κ) (st : InputState κ) (h : st.inputLen = 0) :
    ∃ st', tuiUpdateInputLine w st = some st' ∧ st'.inputBuf = st.inputBuf := by
  rw [tuiUpdateInputLine]
  split
  · have htext : st.clamp.text = [] := by
      rw [InputState.text, InputState.clamp, h]
      rfl
    rw [htext]
    exact ⟨st.clamp, rfl, rfl⟩
  · exact ⟨st, rfl, rfl⟩

theorem ShowsPart.isLine {st : InputState κ} {text : CStr} (h : ShowsPart st text)
    (hwidth : lineWidth text < drawBufsize) : IsLine st := by
  obtain ⟨part, hpart, h⟩ := h
  exact ⟨part, h, (lineWidth_le hpart).trans_lt hwidth⟩

/-! ## The operations -/

namespace ShowsText

variable {st : InputState κ} {text : CStr} (h : ShowsText st text)
include h

/-- The cursor as a place in the text. -/
theorem exists_cursor : ∃ i : ℕ, st.cursorPos = i ∧ i ≤ text.length := by
  have h1 := h.cursorPos_nonneg
  have h2 := h.cursorPos_le
  rw [h.inputLen_eq] at h2
  exact ⟨st.cursorPos.toNat, by omega, by omega⟩

theorem length_le : st.inputLen ≤ st.inputBuf.length := by
  have hlt := h.holds.length_lt
  rw [h.inputLen_eq, h.holds.length_eq]
  omega

/-- The cursor may be anywhere in the line. -/
theorem moved {i : ℤ} (h0 : 0 ≤ i) (hi : i ≤ st.inputLen) :
    ShowsPart { st with cursorPos := i } text :=
  ⟨text, List.Sublist.refl text, h.holds, h.inputLen_eq, h0, hi⟩

/-- Nothing has been done. -/
theorem same : ShowsPart st text := ⟨text, List.Sublist.refl text, h⟩

theorem inputLen_nonneg : 0 ≤ st.inputLen := Int.le_trans h.cursorPos_nonneg h.cursorPos_le

theorem home : ShowsPart st.home text := h.moved (Int.le_refl 0) h.inputLen_nonneg

theorem toEnd : ShowsPart st.toEnd text := h.moved h.inputLen_nonneg (Int.le_refl _)

theorem left : ShowsPart st.left text := by
  have hle := h.cursorPos_le
  rw [InputState.left]
  split
  · exact h.moved (by omega) (by omega)
  · exact h.same

theorem right : ShowsPart st.right text := by
  have h0 := h.cursorPos_nonneg
  rw [InputState.right]
  split
  · exact h.moved (by omega) (by omega)
  · exact h.same

theorem wordStart_spec : ∃ i, st.wordStart = some i ∧ 0 ≤ i ∧ i ≤ st.cursorPos := by
  have hcursor := Int.le_trans h.cursorPos_le h.length_le
  obtain ⟨i, hi, h0, hle⟩ := scanBack_spec (· == space) h.cursorPos_nonneg hcursor
  obtain ⟨j, hj, hj0, hjle⟩ := scanBack_spec (· != space) h0 (Int.le_trans hle hcursor)
  refine ⟨j, ?_, hj0, Int.le_trans hjle hle⟩
  rw [InputState.wordStart, hi, Option.bind_eq_bind, Option.bind_some, hj]

theorem wordLeft : ∃ st', st.wordLeft = some st' ∧ ShowsPart st' text := by
  obtain ⟨i, hi, h0, hle⟩ := h.wordStart_spec
  exact ⟨_, by rw [InputState.wordLeft, hi]; rfl, h.moved h0 (Int.le_trans hle h.cursorPos_le)⟩

theorem wordRight : ∃ st', st.wordRight = some st' ∧ ShowsPart st' text := by
  obtain ⟨i, hi, hge, hle⟩ := scanForward_spec (· != space) h.cursorPos_nonneg h.cursorPos_le
    h.length_le
  have h0 := Int.le_trans h.cursorPos_nonneg hge
  obtain ⟨j, hj, hjge, hjle⟩ := scanForward_spec (· == space) h0 hle h.length_le
  refine ⟨{ st with cursorPos := j }, ?_, h.moved (Int.le_trans h0 hjge) hjle⟩
  rw [InputState.wordRight, hi, Option.bind_eq_bind, Option.bind_some, hj]
  rfl

/-- A byte that is inserted is at the cursor, and only a NUL ends the line there. -/
theorem insertByte (hroom : st.inputLen < tuiInputlen - 1) (c : UInt8) :
    ∃ st', st.insertByte c = some st' ∧ load st'.inputBuf st.cursorPos = some c ∧
      st'.inputLen = st.inputLen + 1 ∧ st'.cursorPos = st.cursorPos + 1 ∧
      (c ≠ 0 → ∃ text', ShowsText st' text' ∧ lineWidth text' = lineWidth text + charWidth c) := by
  obtain ⟨i, hi, hle⟩ := h.exists_cursor
  have hlen := h.inputLen_eq
  have hdst : st.cursorPos + 1 = (i : ℤ) + (1 : ℕ) := by rw [hi]; rfl
  have hn : st.inputLen - st.cursorPos + 1 = (text.length : ℤ) - i + 1 := by rw [hlen, hi]
  obtain ⟨gap, rest, hgap, hmove, hsize⟩ := h.holds.openGap hle hle hdst hn (by omega)
  obtain ⟨x, rfl⟩ := List.length_eq_one_iff.mp hgap
  have htake : st.cursorPos = (text.take i).length := by
    rw [List.length_take]
    omega
  refine ⟨{ st with
    inputBuf := text.take i ++ [c] ++ (text.drop i ++ 0 :: rest)
    cursorPos := st.cursorPos + 1, inputLen := st.inputLen + 1 }, ?_, ?_, rfl, rfl, fun hc ↦ ?_⟩
  · rw [← hi] at hmove
    rw [InputState.insertByte, hmove, Option.bind_eq_bind, Option.bind_some,
      store_append _ _ x c htake]
    rfl
  · exact load_append _ _ c htake
  · refine ⟨text.take i ++ [c] ++ text.drop i, ⟨holdsText_of_pieces ?_ ?_ ?_ ?_, ?_, ?_, ?_⟩, ?_⟩
    · simpa using hsize
    · exact fun hmem ↦ h.holds.no_nul (List.mem_of_mem_take hmem)
    · simpa using hc.symm
    · exact fun hmem ↦ h.holds.no_nul (List.mem_of_mem_drop hmem)
    · simp only [List.length_append, List.length_take, List.length_drop, List.length_singleton]
      omega
    · exact Int.le_add_one h.cursorPos_nonneg
    · exact Int.add_le_add_right h.cursorPos_le 1
    · have hsplit : lineWidth (text.take i) + lineWidth (text.drop i) = lineWidth text := by
        rw [← lineWidth_append, List.take_append_drop]
      rw [lineWidth_append, lineWidth_append, lineWidth_singleton]
      omega

/-- Taking out what is between two places of the line. -/
theorem cut {i j n : ℤ} (hi : 0 ≤ i) (hij : i ≤ j) (hj : j ≤ st.inputLen)
    (hn : n = st.inputLen - j + 1) (pos : ℤ) (hpos : 0 ≤ pos) (hle : pos ≤ st.inputLen - (j - i)) :
    ∃ buf, memmove st.inputBuf i j n = some buf ∧
      ShowsPart { st with inputBuf := buf, inputLen := st.inputLen - (j - i), cursorPos := pos }
        text := by
  have hlen := h.inputLen_eq
  obtain ⟨i, rfl⟩ := Int.eq_ofNat_of_zero_le hi
  obtain ⟨j, rfl⟩ := Int.eq_ofNat_of_zero_le (Int.le_trans hi hij)
  obtain ⟨buf, hmove, hholds⟩ := h.holds.cut (i := i) (j := j) (n := n) (by omega) (by omega)
    (by rw [hn, hlen])
  have hpart : (text.take i ++ text.drop j).Sublist text := by
    have hdrop : (text.drop j).Sublist (text.drop i) := List.drop_sublist_drop_left text (by omega)
    simpa only [List.take_append_drop] using (List.Sublist.refl (text.take i)).append hdrop
  refine ⟨buf, hmove, _, hpart, hholds, ?_, hpos, hle⟩
  simp only [List.length_append, List.length_take, List.length_drop]
  omega

theorem deleteBack : ∃ st', st.deleteBack = some st' ∧ ShowsPart st' text := by
  have hle := h.cursorPos_le
  rw [InputState.deleteBack]
  split
  · obtain ⟨buf, hmove, hline⟩ := h.cut (i := st.cursorPos - 1) (by omega) (by omega) hle rfl
      (st.cursorPos - 1) (by omega) (by omega)
    have hlen : st.inputLen - (st.cursorPos - (st.cursorPos - 1)) = st.inputLen - 1 := by omega
    rw [hlen] at hline
    exact ⟨_, by rw [hmove]; rfl, hline⟩
  · exact ⟨st, rfl, h.same⟩

theorem deleteForward : ∃ st', st.deleteForward = some st' ∧ ShowsPart st' text := by
  have h0 := h.cursorPos_nonneg
  rw [InputState.deleteForward]
  split
  · next hlt =>
    obtain ⟨buf, hmove, hline⟩ := h.cut (j := st.cursorPos + 1) (n := st.inputLen - st.cursorPos) h0
      (by omega) (by omega) (by omega) st.cursorPos h0 (by omega)
    have hlen : st.inputLen - (st.cursorPos + 1 - st.cursorPos) = st.inputLen - 1 := by omega
    rw [hlen] at hline
    exact ⟨_, by rw [hmove]; rfl, hline⟩
  · exact ⟨st, rfl, h.same⟩

theorem deleteWord : ∃ st', st.deleteWord = some st' ∧ ShowsPart st' text := by
  have hcursor := h.cursorPos_le
  rw [InputState.deleteWord]
  split
  · obtain ⟨start, hstart, h0, hle⟩ := h.wordStart_spec
    obtain ⟨buf, hmove, hline⟩ := h.cut h0 hle hcursor rfl start h0 (by omega)
    refine ⟨_, ?_, hline⟩
    rw [hstart, Option.bind_eq_bind, Option.bind_some, hmove]
    rfl
  · exact ⟨st, rfl, h.same⟩

/-- The line may end at any place in it. -/
theorem truncated {i : ℤ} (hi : 0 ≤ i) (hle : i ≤ st.inputLen) :
    ∃ buf, store st.inputBuf i 0 = some buf ∧
      ShowsPart { st with inputBuf := buf, inputLen := i, cursorPos := i } text := by
  have hlen := h.inputLen_eq
  obtain ⟨i, rfl⟩ := Int.eq_ofNat_of_zero_le hi
  obtain ⟨buf, hstore, hholds⟩ := h.holds.truncate (i := i) (by omega)
  refine ⟨buf, hstore, _, List.take_sublist i text, hholds, ?_, hi, Int.le_refl _⟩
  dsimp only
  rw [List.length_take]
  omega

theorem killToEnd : ∃ st', st.killToEnd = some st' ∧ ShowsPart st' text := by
  obtain ⟨buf, hstore, hline⟩ := h.truncated h.cursorPos_nonneg h.cursorPos_le
  exact ⟨_, by rw [InputState.killToEnd, hstore]; rfl, hline⟩

theorem killLine : ∃ st', st.killLine = some st' ∧ ShowsPart st' text := by
  obtain ⟨buf, hstore, hline⟩ := h.truncated (Int.le_refl 0) h.inputLen_nonneg
  exact ⟨_, by rw [InputState.killLine, hstore]; rfl, hline⟩

/-- A line of the history, with its length. -/
theorem putLine (line : HistoryLine) {len : List UInt8 → ℕ}
    (hlen : ∀ buf, HoldsText 0 tuiInputlen buf line.1 → len buf = line.1.length) :
    ∃ st', st.putLine line len = some st' ∧ ShowsText st' line.1 := by
  have hle := line.2.2
  have hlt : line.1.length < tuiInputlen := Nat.lt_of_le_pred (by decide) hle
  have hsize := h.holds.length_eq
  have hcopy : memcpy st.inputBuf 0 (line.1.take (tuiInputlen - 1) ++ [0])
      = some (line.1 ++ [0] ++ st.inputBuf.drop (line.1.length + 1)) := by
    have hroom : (line.1 ++ [0]).length = (st.inputBuf.take (line.1.length + 1)).length := by
      rw [List.length_append, List.length_take, List.length_singleton]
      omega
    have hput := memcpy_append [] (st.inputBuf.take (line.1.length + 1))
      (st.inputBuf.drop (line.1.length + 1)) (line.1 ++ [0]) hroom (show (0 : ℤ) = _ from rfl)
    rw [List.nil_append, List.nil_append, List.take_append_drop] at hput
    rw [List.take_of_length_le hle, hput]
  have hholds : HoldsText 0 tuiInputlen (line.1 ++ [0] ++ st.inputBuf.drop (line.1.length + 1))
      line.1 := by
    refine ⟨?_, List.prefix_append _ _, line.2.1⟩
    rw [List.length_append, List.length_append, List.length_drop, List.length_singleton, hsize]
    omega
  obtain ⟨buf, hstore, hholds'⟩ := hholds.truncate (Nat.le_refl _)
  rw [List.take_length] at hholds'
  refine ⟨{ st with inputBuf := buf, inputLen := line.1.length, cursorPos := line.1.length }, ?_,
    hholds', rfl, Int.natCast_nonneg _, Int.le_refl _⟩
  rw [InputState.putLine, hcopy, Option.bind_eq_bind, Option.bind_some, hlen _ hholds, hstore]
  rfl

theorem clamp_eq : st.clamp = st :=
  clamp_eq_self h.cursorPos_nonneg h.cursorPos_le h.lineOk.inputLen_le

theorem text_eq : st.text = text := by
  obtain ⟨rest, hrest⟩ := h.holds.exists_rest
  rw [InputState.text, hrest, h.inputLen_eq, Int.toNat_natCast, List.take_left]

/-- **Drawing leaves the line as it is**, if there is room for it in `buf`. -/
theorem tuiUpdateInputLine_eq (w : KeyWorld κ) (hwidth : lineWidth text < drawBufsize) :
    tuiUpdateInputLine w st = some st := by
  rw [tuiUpdateInputLine]
  split
  · have hloop : st.text.foldlM drawChar 0 = some (0 + lineWidth text) := by
      rw [h.text_eq, foldlM_drawChar text (by omega)]
    rw [h.clamp_eq, hloop, Option.bind_eq_bind, Option.bind_some, Nat.zero_add, if_pos hwidth]
    rfl
  · rfl

/-- **A line that is too wide** overflows `buf` when it is drawn. -/
theorem tuiUpdateInputLine_eq_none {w : KeyWorld κ} (hdrawn : w.drawn)
    (hwidth : drawBufsize ≤ lineWidth text) : tuiUpdateInputLine w st = none := by
  rw [tuiUpdateInputLine, if_pos hdrawn, h.clamp_eq, h.text_eq]
  cases hloop : text.foldlM drawChar 0 with
  | none => rfl
  | some bufPos =>
    have hpos := eq_of_foldlM_drawChar text hloop
    rw [Option.bind_eq_bind, Option.bind_some, if_neg (by omega)]

end ShowsText

end Rustyaxe
