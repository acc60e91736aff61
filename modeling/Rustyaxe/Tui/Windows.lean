import Rustyaxe.CString
import Rustyaxe.Lib.PackedArray
import Rustyaxe.Lib.Runs

/-!
# The windows of the text user interface

`tui.window.c`.  Windows are allocated one by one, and `tui_windows` has pointers to them, those in
use first; `tui_active_win` is an index into it.

A pointer is an address, and `none` as a state is a call that reads where there is nothing.
Printing and drawing do one thing to the windows: they call `tui_active_window`, which creates the
status window if there are none and moves an index that is out of range.  `calloc` is the outcome
of the allocation of a window, wherever one may be made.
-/

set_option autoImplicit false

namespace Rustyaxe

open Runs PackedArray

/-- `TUI_MAX_WINDOWS` -/
def tuiMaxWindows : ℕ := 32

/-- `"status"` -/
def statusTitle : CStr := [115, 116, 97, 116, 117, 115]

/-- What `strlcpy` or `snprintf` with `"%s"` leaves in a buffer. -/
def copyInto (size : ℕ) (s : CStr) : CStr := s.take (size - 1)

/-- `tui_window_t` -/
structure TuiWindow where
  title : CStr
  statusLine : CStr
  deriving DecidableEq, Repr

/-- The static variables of `tui.window.c`, the heap, and `tui_is_enabled`. -/
structure Tui where
  heap : ℕ → Option TuiWindow
  /-- The address the next window is allocated at. -/
  nextWindow : ℕ
  /-- `tui_windows`, `none` being `NULL`. -/
  windows : List (Option ℕ)
  activeWin : ℤ
  numWindows : ℕ
  isEnabled : Bool

namespace Tui

/-- The pointers in use. -/
def slots (s : Tui) : List (Option ℕ) := s.windows.take s.numWindows

/-- `tui_windows[tui_active_win]` -/
def activeSlot (s : Tui) : Option ℕ := s.windows.getD s.activeWin.toNat none

/-- Allocate a window and save it in the next slot. -/
def addWindow (s : Tui) (w : TuiWindow) : Tui :=
  { s with
    heap := Function.update s.heap s.nextWindow (some w)
    nextWindow := s.nextWindow + 1
    windows := s.windows.set s.numWindows (some s.nextWindow)
    numWindows := s.numWindows + 1 }

/-- Free a window and close the gap at its slot, with another active index. -/
def removeWindow (s : Tui) (w i : ℕ) (activeWin : ℤ) : Tui :=
  let num := s.numWindows - 1
  { s with
    heap := Function.update s.heap w none
    windows := (shiftDown i (num - i) s.windows).set num none
    activeWin := activeWin
    numWindows := num }

end Tui

/-- `tui_window_find` -/
def tuiWindowFind (s : Tui) (title : Option CStr) : Option ℕ :=
  let tp := match title with
    | none | some [] => statusTitle
    | some title => title
  s.slots.findSome? fun slot ↦ slot.filter fun p ↦ (s.heap p).any fun w ↦ strcaseeq w.title tp

/-- The second half of `tui_active_window`. -/
def fixActive (s : Tui) : Tui :=
  if s.activeWin < 0 ∨ s.numWindows ≤ s.activeWin then { s with activeWin := s.numWindows - 1 }
  else s

/-- `tui_window_create`, with the window it returns.  `tui_active_window` creates nothing when it
is called from here, as there are windows then. -/
def tuiWindowCreate (calloc : Bool) (s : Tui) (title : CStr) : Option ℕ × Tui :=
  match tuiWindowFind s (some title) with
  | some w => (some w, s)
  | none =>
    if tuiMaxWindows ≤ s.numWindows then (none, fixActive s)
    else if calloc = false then (none, s)
    else (some s.nextWindow, s.addWindow ⟨copyInto 64 title, copyInto 128 title⟩)

/-- `tui_active_window` -/
def tuiActiveWindow (calloc : Bool) (s : Tui) : Option (Option ℕ × Tui) :=
  let s :=
    if s.numWindows = 0 then { (tuiWindowCreate calloc s statusTitle).2 with activeWin := 0 }
    else s
  let s := fixActive s
  if s.activeWin < 0 then none else some (s.activeSlot, s)

/-- What printing or drawing does to the windows. -/
def tuiDraw (calloc : Bool) (s : Tui) : Option Tui :=
  if s.isEnabled then (tuiActiveWindow calloc s).map Prod.snd else some s

/-- `tui_print(tui_active_window(), ...)` -/
def printActive (calloc : Bool) (s : Tui) : Option Tui := do
  let (w, s) ← tuiActiveWindow calloc s
  if w = none then return s
  tuiDraw calloc s

/-- The loop of `tui_window_focus`. -/
def focusLoop (s : Tui) (title : CStr) : List (Option ℕ) → ℕ → Option (Option (ℕ × ℕ))
  | [], _ => some none
  | none :: _, _ => none
  | some p :: slots, i => do
    let w ← s.heap p
    if w.title = title then return some (i, p)
    focusLoop s title slots (i + 1)

/-- `tui_window_focus` -/
def tuiWindowFocus (calloc : Bool) (s : Tui) (title : Option CStr) : Option (Option ℕ × Tui) :=
  match title with
  | none => some (none, s)
  | some title => do
    match ← focusLoop s title s.slots 0 with
    | none => return (none, s)
    | some (i, p) =>
      let s ← tuiDraw calloc { s with activeWin := i }
      return (some p, s)

/-- `tui_window_focus(tui_windows[i]->title)` -/
def focusSlot (calloc : Bool) (s : Tui) (i : ℤ) : Option (Option ℕ × Tui) := do
  if i < 0 then none
  let p ← s.windows.getD i.toNat none
  let w ← s.heap p
  tuiWindowFocus calloc s (some w.title)

/-- `tui_window_focus_id` -/
def tuiWindowFocusId (calloc : Bool) (s : Tui) (id : ℤ) : Option (Option ℕ × Tui) :=
  if id < 1 ∨ s.numWindows < id then do
    let s ← printActive calloc s
    return (none, s)
  else if s.windows.getD (id - 1).toNat none = none then some (none, s)
  else focusSlot calloc s (id - 1)

/-- `tui_window_init` -/
def tuiWindowInit (calloc : Bool) (s : Tui) : Option Tui :=
  if s.numWindows = 0 then
    match tuiWindowCreate calloc s statusTitle with
    | (none, _) => none
    | (some p, s) =>
      some { s with
        windows := s.windows.set 0 (some p)
        heap := Function.update s.heap p
          ((s.heap p).map fun w ↦ { w with statusLine := statusTitle })
        numWindows := 1
        activeWin := 0 }
  else some s

/-- `tui_window_swap` -/
def tuiWindowSwap (calloc : Bool) (s : Tui) (key : ℤ) : Option Tui :=
  let num := if key = 48 then 9 else key - 49
  if 0 ≤ num ∧ num < s.numWindows then do
    let (_, s) ← focusSlot calloc s num
    tuiDraw calloc s
  else some s

/-- What the two handlers share. -/
def focusAndRedraw (calloc : Bool) (s : Tui) (next : ℤ) : Option Tui :=
  if 0 < s.numWindows then do
    let (_, s) ← focusSlot calloc s next
    tuiDraw calloc s
  else some s

/-- `handle_alt_left` -/
def handleAltLeft (calloc : Bool) (s : Tui) : Option Tui :=
  focusAndRedraw calloc s ((s.activeWin - 1 + s.numWindows).tmod s.numWindows)

/-- `handle_alt_right` -/
def handleAltRight (calloc : Bool) (s : Tui) : Option Tui :=
  focusAndRedraw calloc s ((s.activeWin + 1).tmod s.numWindows)

/-- The index that `tui_window_destroy` makes active.  Its case of a negative `tui_num_windows`
cannot be. -/
def activeAfter (activeWin : ℤ) (numWindows destroyed : ℕ) : ℤ :=
  if numWindows ≤ activeWin ∨ activeWin = destroyed then
    if 0 < destroyed then destroyed - 1 else 0
  else if destroyed < activeWin then activeWin - 1
  else activeWin

/-- `tui_window_destroy` -/
def tuiWindowDestroy (calloc : Bool) (s : Tui) (w : Option ℕ) : Option (Bool × Tui) :=
  match w with
  | none => some (true, s)
  | some w => do
    let win ← s.heap w
    if strcaseeq win.title statusTitle then
      let s ← printActive calloc s
      return (false, s)
    match s.slots.findIdx? (· == some w) with
    | none => return (true, { s with heap := Function.update s.heap w none })
    | some i =>
      let s ← if (tuiWindowFind s (some statusTitle)).isSome then tuiDraw calloc s else some s
      let s := s.removeWindow w i (activeAfter s.activeWin (s.numWindows - 1) i)
      if 0 ≤ s.activeWin ∧ s.activeSlot ≠ none then
        let (_, s) ← focusSlot calloc s s.activeWin
        return (false, s)
      let s ← tuiDraw calloc s
      return (false, s)

/-- `tui_window_destroy_id` -/
def tuiWindowDestroyId (calloc : Bool) (s : Tui) (id : ℤ) : Option (Bool × Tui) :=
  if id < 1 ∨ s.numWindows < id then do
    let s ← printActive calloc s
    return (true, s)
  else if s.windows.getD (id - 1).toNat none = none then some (true, s)
  else tuiWindowDestroy calloc s (s.windows.getD (id - 1).toNat none)

/-! ## Calls -/

/-- A call, with the outcome of an allocation of a window. -/
inductive TuiCall where
  | init (calloc : Bool)
  | create (calloc : Bool) (title : CStr)
  | focus (calloc : Bool) (title : CStr)
  | focusId (calloc : Bool) (id : ℤ)
  | swap (calloc : Bool) (key : ℤ)
  | altLeft (calloc : Bool)
  | altRight (calloc : Bool)
  | destroy (calloc : Bool) (w : Option ℕ)
  | destroyId (calloc : Bool) (id : ℤ)
  deriving DecidableEq, Repr

/-- The state after a call. -/
def tuiCall (s : Tui) : TuiCall → Option Tui
  | .init calloc => tuiWindowInit calloc s
  | .create calloc title => some (tuiWindowCreate calloc s title).2
  | .focus calloc title => (tuiWindowFocus calloc s (some title)).map Prod.snd
  | .focusId calloc id => (tuiWindowFocusId calloc s id).map Prod.snd
  | .swap calloc key => tuiWindowSwap calloc s key
  | .altLeft calloc => handleAltLeft calloc s
  | .altRight calloc => handleAltRight calloc s
  | .destroy calloc w => (tuiWindowDestroy calloc s w).map Prod.snd
  | .destroyId calloc id => (tuiWindowDestroyId calloc s id).map Prod.snd

end Rustyaxe
