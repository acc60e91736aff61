import Rustyaxe.CString
import Rustyaxe.Lib.Runs
import Rustyaxe.Lib.TextBuffer

/-!
# The input line

The state that `tui.keys.c` and `tui.completion.c` share, and the operations on it: `input_buf` with
`tui_input_len` and `tui_cursor_pos`, and the histories of input.  Each operation is what a case of
`stdin_ev_cb` does.

An operation without a result accesses `input_buf` outside its bounds.
-/

set_option autoImplicit false

namespace Rustyaxe

open TextBuffer

/-- `TUI_INPUTLEN` -/
def tuiInputlen : ℕ := 512

/-- `HISTORY_LINES` -/
def historyLines : ℕ := 50

/-! ## History -/

/-- A line of the history, as `strndup(line, TUI_INPUTLEN - 1)` makes it. -/
def HistoryLine : Type := { s : CStr // (0 : UInt8) ∉ s ∧ s.length ≤ tuiInputlen - 1 }

/-- `strndup(line, TUI_INPUTLEN - 1)` -/
def strndupLine (line : CStr) : HistoryLine :=
  ⟨(line.takeWhile (· ≠ 0)).take (tuiInputlen - 1), fun h ↦ by
    simpa using List.mem_takeWhile_imp (List.mem_of_mem_take h), List.length_take_le _ _⟩

/-- `input_history`, `history_count` and `history_index`, of all windows or of one. -/
structure InputHistory where
  lines : List (Option HistoryLine)
  count : ℕ
  index : ℤ
  length_lines : lines.length = historyLines
  count_le : count ≤ historyLines
  neg_one_le_index : -1 ≤ index
  index_le : index ≤ historyLines

namespace InputHistory

/-- `history_prev` -/
def prev (h : InputHistory) : Option HistoryLine × InputHistory :=
  if hcount : h.count = 0 then (none, h)
  else
    let index : ℤ := if h.index < 0 then h.count - 1 else if 0 < h.index then h.index - 1 else h.index
    have hindex : 0 ≤ index ∧ index < historyLines := by
      have h1 := h.count_le
      have h2 := h.index_le
      have h3 : (0 : ℤ) < historyLines := by decide
      simp only [index]
      split_ifs <;> omega
    (h.lines.get ⟨index.toNat, by rw [h.length_lines]; omega⟩,
      { h with index := index, neg_one_le_index := by omega, index_le := by omega })

/-- What `history_next` returns: `NULL`, an empty line behind the last one, or a line. -/
def next (h : InputHistory) : Option HistoryLine × InputHistory :=
  if hstop : h.count = 0 ∨ h.index < 0 then (none, h)
  else if hend : (h.count : ℤ) ≤ h.index + 1 then
    (some (strndupLine []), { h with index := -1, neg_one_le_index := by omega, index_le := by omega })
  else
    have hindex : 0 ≤ h.index + 1 ∧ h.index + 1 < historyLines := by
      have h1 := h.count_le
      omega
    (h.lines.get ⟨(h.index + 1).toNat, by rw [h.length_lines]; omega⟩,
      { h with index := h.index + 1, neg_one_le_index := by omega, index_le := by omega })

/-- `history_add`; `strndup` is the outcome of its allocation. -/
def add (h : InputHistory) (strndup : Bool) (line : CStr) : InputHistory :=
  if (line.takeWhile (· ≠ 0)) = [] then h
  else
    -- the oldest line makes room
    let full := historyLines ≤ h.count
    let lines := if full then h.lines.tail ++ h.lines.drop (historyLines - 1) else h.lines
    let count := if full then h.count - 1 else h.count
    have hlines : lines.length = historyLines := by
      have h1 := h.length_lines
      have h2 : historyLines = 50 := rfl
      simp only [lines]
      split_ifs
      · rw [List.length_append, List.length_tail, List.length_drop]
        omega
      · exact h1
    have hcount : count < historyLines := by
      have h1 := h.count_le
      have h2 : historyLines = 50 := rfl
      simp only [count, full]
      split_ifs <;> omega
    if strndup then
      { lines := lines.set count (some (strndupLine line)), count := count + 1, index := count + 1
        length_lines := by rw [List.length_set, hlines]
        count_le := hcount, neg_one_le_index := by omega, index_le := by omega }
    else
      { h with lines := lines.set count none, count := count
               length_lines := by rw [List.length_set, hlines], count_le := hcount.le }

end InputHistory

/-! ## The line -/

/-- The input line, and the histories of the windows and of all of them. -/
structure InputState (κ : Type) where
  inputBuf : List UInt8
  inputLen : ℤ
  cursorPos : ℤ
  history : κ → InputHistory

namespace InputState

variable {κ : Type}

/-- Nothing has been typed yet. -/
def empty (history : κ → InputHistory) : InputState κ :=
  ⟨List.replicate tuiInputlen 0, 0, 0, history⟩

/-- `tui_cursor_pos = 0` -/
def home (st : InputState κ) : InputState κ := { st with cursorPos := 0 }

/-- `tui_cursor_pos = tui_input_len` -/
def toEnd (st : InputState κ) : InputState κ := { st with cursorPos := st.inputLen }

def left (st : InputState κ) : InputState κ :=
  if 0 < st.cursorPos then { st with cursorPos := st.cursorPos - 1 } else st

def right (st : InputState κ) : InputState κ :=
  if st.cursorPos < st.inputLen then { st with cursorPos := st.cursorPos + 1 } else st

/-- The start of the word before the cursor, and of the spaces behind it. -/
def wordStart (st : InputState κ) : Option ℤ := do
  scanBack (· != space) st.inputBuf (← scanBack (· == space) st.inputBuf st.cursorPos)

def wordLeft (st : InputState κ) : Option (InputState κ) := do
  return { st with cursorPos := ← st.wordStart }

def wordRight (st : InputState κ) : Option (InputState κ) := do
  let i ← scanForward (· != space) st.inputBuf st.cursorPos st.inputLen
  return { st with cursorPos := ← scanForward (· == space) st.inputBuf i st.inputLen }

/-- Insert a byte at the cursor. -/
def insertByte (st : InputState κ) (c : UInt8) : Option (InputState κ) := do
  let buf ← memmove st.inputBuf (st.cursorPos + 1) st.cursorPos (st.inputLen - st.cursorPos + 1)
  let buf ← store buf st.cursorPos c
  return { st with inputBuf := buf, cursorPos := st.cursorPos + 1, inputLen := st.inputLen + 1 }

/-- Delete the byte before the cursor. -/
def deleteBack (st : InputState κ) : Option (InputState κ) :=
  if 0 < st.cursorPos then do
    let buf ←
      memmove st.inputBuf (st.cursorPos - 1) st.cursorPos (st.inputLen - st.cursorPos + 1)
    return { st with inputBuf := buf, cursorPos := st.cursorPos - 1, inputLen := st.inputLen - 1 }
  else some st

/-- Delete the byte at the cursor. -/
def deleteForward (st : InputState κ) : Option (InputState κ) :=
  if st.cursorPos < st.inputLen then do
    let buf ← memmove st.inputBuf st.cursorPos (st.cursorPos + 1) (st.inputLen - st.cursorPos)
    return { st with inputBuf := buf, inputLen := st.inputLen - 1 }
  else some st

/-- Delete the word before the cursor. -/
def deleteWord (st : InputState κ) : Option (InputState κ) :=
  if 0 < st.cursorPos then do
    let start ← st.wordStart
    let buf ← memmove st.inputBuf start st.cursorPos (st.inputLen - st.cursorPos + 1)
    return { st with
      inputBuf := buf, inputLen := st.inputLen - (st.cursorPos - start), cursorPos := start }
  else some st

/-- Delete from the cursor on. -/
def killToEnd (st : InputState κ) : Option (InputState κ) := do
  return { st with inputBuf := ← store st.inputBuf st.cursorPos 0, inputLen := st.cursorPos }

/-- Delete all. -/
def killLine (st : InputState κ) : Option (InputState κ) := do
  return { st with inputBuf := ← store st.inputBuf 0 0, inputLen := 0, cursorPos := 0 }

/-- `strlcpy(input_buf, line, TUI_INPUTLEN)` and what goes with it; `len` is the length that is
noted. -/
def putLine (st : InputState κ) (line : HistoryLine) (len : List UInt8 → ℕ) :
    Option (InputState κ) := do
  let buf ← memcpy st.inputBuf 0 (line.1.take (tuiInputlen - 1) ++ [0])
  return { st with
    inputBuf := ← store buf (len buf) 0, inputLen := len buf, cursorPos := len buf }

/-- What `tui_update_input_line` does to the line before it draws it. -/
def clamp (st : InputState κ) : InputState κ :=
  let len := if st.inputLen < 0 then 0 else st.inputLen
  let len := if tuiInputlen ≤ len then (tuiInputlen : ℤ) - 1 else len
  let pos := if st.cursorPos < 0 then 0 else st.cursorPos
  { st with inputLen := len, cursorPos := if len < pos then len else pos }

end InputState

end Rustyaxe
