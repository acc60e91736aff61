import Rustyaxe.Tui.InputLine

/-!
# Keys

`stdin_ev_cb` of `tui.keys.c` and `tui_do_completion` of `tui.completion.c`: what a key that has
been read does to the input line.

The views, the hotkeys and the callbacks of the application are parameters (`KeyWorld`); they do not
write to the input line.  What `tui_update_input_line` does to the line is here, and how far it
fills the buffer that it draws the line in; the prompt, the colours and the terminal are left out.
-/

set_option autoImplicit false

namespace Rustyaxe

open TextBuffer

/-! ## Keys -/

/-- `key.type` with the member of `key.code` that belongs to it. -/
inductive KeyCode where
  | unicode (codepoint : ℕ)
  | keysym (sym : ℤ)
  | mouse
  /-- Function keys and the reports of the terminal. -/
  | other
  deriving DecidableEq

/-- `TermKeyKey` -/
structure Key where
  code : KeyCode
  shift : Bool
  alt : Bool
  ctrl : Bool

/-! `TermKeySym` -/

def symBackspace : ℤ := 1
def symTab : ℤ := 2
def symEnter : ℤ := 3
def symUp : ℤ := 7
def symDown : ℤ := 8
def symLeft : ℤ := 9
def symRight : ℤ := 10
def symDelete : ℤ := 14
def symPageup : ℤ := 16
def symPagedown : ℤ := 17
def symHome : ℤ := 18
def symEnd : ℤ := 19

/-- The conversion to `int`. -/
def toInt (n : ℕ) : ℤ := Int.bmod n 0x100000000

/-- The conversion of an `int` to `char`. -/
def toChar (c : ℤ) : UInt8 := UInt8.ofNat (c % 256).toNat

/-- The key as a number, for line editing. -/
def Key.c (key : Key) : ℤ :=
  match key.code with
  | .unicode codepoint => toInt codepoint
  | .keysym sym => if sym = symBackspace then 0x08 else if sym = symEnter then 0x0a else sym
  | _ => 0

/-! ## The rest of the program -/

/-- A string of the application. -/
def CString : Type := { s : CStr // (0 : UInt8) ∉ s }

/-- The rest of the program at the time of a key. -/
structure KeyWorld (κ : Type) where
  /-- There is an active window. -/
  window : Bool
  /-- `active_history` -/
  activeHistory : κ
  /-- The outcome of `tui_hotkey_dispatch` for these modifiers. -/
  hotkeyDispatch : (key : ℤ) → Bool
  /-- The view of the window has consumed the key. -/
  viewKey : Bool
  /-- `win->view_draw && win->view_full_height` -/
  viewFullHeight : Bool
  /-- The interface is enabled, and no view stands where the line is drawn. -/
  drawn : Bool
  /-- `tui_input_blocked_cb`, if it is set. -/
  inputBlocked : CStr → Bool
  /-- The outcome of `strndup` for the history. -/
  strndup : Bool
  /-- A completion handler is set, and has done the work. -/
  completionHandler : Bool
  completionProviders : List (CStr → CStr → Option (List CString))
  /-- The outcomes of the calls of `realloc` in `completion_collect`. -/
  realloc : ℕ → Bool

/-! ## Drawing the line -/

/-- `sizeof(buf)` in `tui_update_input_line` -/
def drawBufsize : ℕ := 2048

/-- What is drawn in the place of a control character. -/
def placeholder (c : UInt8) : Option CStr :=
  if c = 0x02 then some (lit "\x7bbold\x7dB\x7bbold-off\x7d")
  else if c = 0x03 then some (lit "\x7breverse\x7dC\x7breverse-off\x7d")
  else if c = 0x04 then some (lit "\x7breverse\x7dH\x7breverse-off\x7d")
  else if c = 0x0f then some (lit "\x7breset\x7d")
  else if c = 0x16 then some (lit "\x7breverse\x7dV\x7breverse-off\x7d")
  else if c = 0x1d then some (lit "\x7bitalic\x7dI\x7bitalic-off\x7d")
  else if c = 0x1f then some (lit "\x7bunderline\x7d_\x7bunderline-off\x7d")
  else none

/-- `buf_pos` behind a character that is written to `buf`.  `snprintf` writes no more than there is
room for, but `buf_pos` grows by the whole length; past the end, the room is a `size_t` that has
wrapped. -/
def drawChar (bufPos : ℕ) (c : UInt8) : Option ℕ :=
  match placeholder c with
  | some text => if bufPos ≤ drawBufsize then some (bufPos + text.length) else none
  -- the character itself, or a question mark
  | none => if bufPos < drawBufsize then some (bufPos + 1) else none

/-- The `tui_input_len` bytes of the line. -/
def InputState.text {κ : Type} (st : InputState κ) : CStr := st.inputBuf.take st.inputLen.toNat

section Keys

variable {κ : Type} [DecidableEq κ] (w : KeyWorld κ)

/-- `tui_update_input_line`.  Without a result, it writes past the end of `buf`. -/
def tuiUpdateInputLine (st : InputState κ) : Option (InputState κ) :=
  if w.drawn then do
    let bufPos ← st.clamp.text.foldlM drawChar 0
    -- `buf[buf_pos] = '\0'`
    if bufPos < drawBufsize then return st.clamp else none
  else some st

/-! ## Completion -/

/-- `completion_collect` -/
def completionCollect (line word : CStr) : List CString :=
  let all := w.completionProviders.flatMap fun provider ↦ (provider line word).getD []
  (all.zipIdx.filter fun m ↦ w.realloc m.2).map Prod.fst

/-- The length of the common prefix of two strings. -/
def commonLength : CStr → CStr → ℕ
  | a :: s, b :: t => if a = b then commonLength s t + 1 else 0
  | _, _ => 0

/-- `plen`: the length of what all matches start with. -/
def prefixLength (first : CString) (rest : List CString) : ℕ :=
  rest.foldl (fun plen m ↦ commonLength (first.1.take plen) m.1) first.1.length

/-- `pl`: a single match is followed by a space, if there is room for it in `word`. -/
def replacementLength (first : CString) (rest : List CString) : ℕ :=
  let plen := prefixLength first rest
  if rest = [] ∧ plen < tuiInputlen - 1 then plen + 1 else plen

/-- The word before the cursor, where it starts, and the matches for it. -/
def completionMatches (st : InputState κ) : Option (ℤ × CStr × List CString) := do
  let start ← scanBack (· != space) st.inputBuf st.cursorPos
  let word ← slice st.inputBuf start (st.cursorPos - start)
  let line ← slice st.inputBuf 0 st.cursorPos
  return (start, word, completionCollect w line word)

/-- Replace the word by the match, or by what all matches start with. -/
def replaceWord (st : InputState κ) (start : ℤ) (first : CString) (rest : List CString) :
    Option (InputState κ) := do
  let pl := replacementLength first rest
  let buf ← memmove st.inputBuf (start + pl) st.cursorPos (st.inputLen - st.cursorPos + 1)
  let buf ← memcpy buf start (first.1.take (if rest = [] then pl - 1 else pl))
  let buf ← if rest = [] then store buf (start + pl - 1) space else some buf
  return { st with
    inputBuf := buf, inputLen := st.inputLen + (pl - (st.cursorPos - start)), cursorPos := start + pl }

/-- `tui_do_completion` -/
def tuiDoCompletion (st : InputState κ) : Option (Bool × InputState κ) :=
  if w.completionHandler then some (true, st)
  else if st.cursorPos = 0 then some (false, st)
  else do
    let (start, word, found) ← completionMatches w st
    match found with
    | [] => return (false, st)
    | first :: rest =>
      if rest = [] ∨ word.length < prefixLength first rest then
        if start + replacementLength first rest < tuiInputlen then
          return (true, ← replaceWord st start first rest)
        else return (false, st)
      else return (false, st)

/-! ## The parts of `stdin_ev_cb` -/

/-- `handle_enter_key` -/
def handleEnterKey (st : InputState κ) : Option (InputState κ) := do
  let buf ← store st.inputBuf st.inputLen 0
  let st : InputState κ := { st with inputBuf := buf }
  let line := buf.takeWhile (· ≠ 0)
  if 0 < st.inputLen ∧ w.inputBlocked line then tuiUpdateInputLine w st
  else if 0 < st.inputLen then
    let history := (st.history w.activeHistory).add w.strndup line
    tuiUpdateInputLine w { st with
      inputBuf := ← store buf 0 0, inputLen := 0
      history := Function.update st.history w.activeHistory history }
  else tuiUpdateInputLine w st

/-- A line of the history takes the place of the input. -/
def recallLine (st : InputState κ) (r : Option HistoryLine × InputHistory)
    (len : HistoryLine → List UInt8 → ℕ) : Option (InputState κ) :=
  let st := { st with history := Function.update st.history w.activeHistory r.2 }
  match r.1 with
  | none => some st
  | some line => st.putLine line (len line)

/-- The special keys.  Turning pages and changing windows redraws the screen and does not count as
handled. -/
def keysymKey (key : Key) (sym : ℤ) (st : InputState κ) : Option (Bool × InputState κ) :=
  if sym = symEnter then
    if key.alt then some (w.hotkeyDispatch sym, st)
    else do
      let st ← handleEnterKey w st
      return (true, { st with
        inputLen := 0, cursorPos := 0, inputBuf := List.replicate tuiInputlen 0 })
  else if sym = symTab then
    if key.ctrl then some (w.hotkeyDispatch symTab, st)
    else if !(key.ctrl || key.alt || key.shift) then tuiDoCompletion w st
    else some (false, st)
  else if sym = symPageup ∨ sym = symPagedown then do return (false, ← tuiUpdateInputLine w st)
  else if sym = symHome then some (true, st.home)
  else if sym = symEnd then some (true, st.toEnd)
  else if sym = symLeft then
    if key.ctrl then do return (true, ← st.wordLeft)
    else if key.alt then do return (false, ← tuiUpdateInputLine w st)
    else some (true, st.left)
  else if sym = symRight then
    if key.ctrl then do return (true, ← st.wordRight)
    else if key.alt then do return (false, ← tuiUpdateInputLine w st)
    else some (true, st.right)
  else if sym = symUp then do
    return (true, ← recallLine w st (st.history w.activeHistory).prev fun _ buf ↦
      (buf.takeWhile (· ≠ 0)).length)
  else if sym = symDown then do
    return (true, ← recallLine w st (st.history w.activeHistory).next fun line _ ↦ line.1.length)
  -- what `tui_window_swap` is called with here is a digit and no character, and changes nothing
  else some (false, st)

/-- The control character that a letter with Ctrl inserts. -/
def ctrlInsert (c : ℤ) : Option UInt8 :=
  if c = 0x5f then some 0x1f                    -- underline
  else if c = 0x42 ∨ c = 0x62 then some 0x02    -- bold
  else if c = 0x43 ∨ c = 0x63 then some 0x03    -- colour
  else if c = 0x49 ∨ c = 0x69 then some 0x1d    -- italic
  else if c = 0x4f ∨ c = 0x6f then some 0x0f    -- reset
  else if c = 0x52 ∨ c = 0x72 then some 0x16    -- reverse
  else none

/-- Line editing with Ctrl. -/
def ctrlKey (c : ℤ) (st : InputState κ) : Option (Bool × InputState κ) :=
  if c = 0x41 ∨ c = 0x61 ∨ c = 0x01 then some (true, st.home)
  else if c = 0x45 ∨ c = 0x65 ∨ c = 0x05 then some (true, st.toEnd)
  else if c = 0x55 ∨ c = 0x75 then do return (true, ← st.killLine)
  else if c = 0x57 ∨ c = 0x77 ∨ c = 0x17 then do return (true, ← st.deleteWord)
  else if c = 0x44 ∨ c = 0x64 ∨ c = 0x04 then do return (true, ← st.deleteForward)
  else if c = 0x4b ∨ c = 0x6b ∨ c = 0x0b then do return (true, ← st.killToEnd)
  else if c = 0x08 then do return (true, ← st.deleteBack)
  else
    match ctrlInsert c with
    | some insert =>
      if st.inputLen < tuiInputlen - 1 then do return (true, ← st.insertByte insert)
      else some (false, st)
    | none => some (false, st)

/-- Enter, the deleting keys, and the windows of the digits. -/
def plainKey (key : Key) (st : InputState κ) : Option (Bool × InputState κ) :=
  if key.c = 0x0a then do
    let st ← handleEnterKey w st
    return (true, { st with
      inputBuf := ← store st.inputBuf 0 0, inputLen := 0, cursorPos := 0 })
  else if key.c = 0x08 ∨ key.c = 0x7f then do return (true, ← st.deleteBack)
  else if 0x30 ≤ key.c ∧ key.c ≤ 0x39 ∧ key.alt then do return (true, ← tuiUpdateInputLine w st)
  else if key.c = symDelete then do return (true, ← st.deleteForward)
  else some (false, st)

/-- Insertion of a character. -/
def insertKey (key : Key) (st : InputState κ) : Option (Bool × InputState κ) :=
  match key.code with
  | .unicode _ =>
    if 0x20 ≤ key.c then do
      if st.inputLen < tuiInputlen - 1 then return (true, ← st.insertByte (toChar key.c))
      else return (true, st)
    else some (false, st)
  | _ => some (false, st)

/-- `window_keys` -/
def windowKeys : CStr := lit "qwertyuiop"

/-- A hotkey takes a letter with Alt. -/
def altHotkey (key : Key) (handled : Bool) : Bool :=
  match key.code with
  | .unicode codepoint => !handled && key.alt && w.hotkeyDispatch (toInt codepoint)
  | _ => false

/-- A letter with Alt, for a window.  `strchr` compares characters, and finds the end of the string
for a NUL. -/
def altLetter (key : Key) (handled : Bool) (st : InputState κ) : Option (Bool × InputState κ) :=
  match key.code with
  | .unicode codepoint =>
    if !handled && key.alt && decide (toChar (toInt codepoint) ∈ windowKeys ++ [0]) then do
      return (true, ← tuiUpdateInputLine w st)
    else some (handled, st)
  | _ => some (handled, st)

/-- Ctrl-Space. -/
def ctrlSpace (key : Key) : Bool :=
  match key.code with
  | .unicode codepoint =>
    key.ctrl && (codepoint == 0 || codepoint == 0x20) && w.hotkeyDispatch codepoint
  | _ => false

/-- `if (!handled) { … }` -/
def nextPart (part : InputState κ → Option (Bool × InputState κ)) (r : Bool × InputState κ) :
    Option (Bool × InputState κ) := if r.1 then some r else part r.2

/-- The end of `stdin_ev_cb`: the editing of the line, unless a case before has handled the key. -/
def editLine (key : Key) (handled : Bool) (st : InputState κ) : Option (InputState κ) := do
  let r ← nextPart (fun st ↦ if key.ctrl then ctrlKey key.c st else some (false, st)) (handled, st)
  let r ← nextPart (plainKey w key) r
  let r ← nextPart (insertKey key) r
  if r.1 then tuiUpdateInputLine w r.2 else return r.2

/-- The special keys and Ctrl-Space. -/
def specialKey (key : Key) (st : InputState κ) : Option (Bool × InputState κ) :=
  match key.code with
  | .keysym sym => keysymKey w key sym st
  | _ => some (ctrlSpace w key, st)

/-- The letters with Alt, and the editing of the line, which a view may hide. -/
def letterKey (key : Key) (r : Bool × InputState κ) : Option (InputState κ) :=
  if altHotkey w key r.1 then some r.2
  else do
    let (handled, st) ← altLetter w key r.1 r.2
    if w.viewFullHeight then return st else editLine w key handled st

/-- `stdin_ev_cb`, for one key. -/
def stdinEvCb (key : Key) (st : InputState κ) : Option (InputState κ) :=
  if !w.window then some st
  else if key.code = .unicode 0x09 ∧ key.ctrl ∧ !key.alt ∧ w.hotkeyDispatch symTab then some st
  else if key.code = .mouse then some st
  else if w.viewKey && !key.alt then some st
  else do letterKey w key (← specialKey w key st)

end Keys

end Rustyaxe
