import Rustyaxe.Config.Lines

/-!
# Writing a setting

`cfg_write_wrapped` of `config.c` writes a value on lines of 80 columns: every line but the last
ends in a backslash, and the lines after the first are indented to the column of the value.
-/

set_option autoImplicit false

namespace Rustyaxe

/-- `max_columns` -/
def maxColumns : ℕ := 80

/-- `indent` in `cfg_write_wrapped`. -/
def wrapIndent (key : CStr) : ℕ := key.length + 1

/-- `capacity` in `cfg_write_wrapped`. -/
def wrapCapacity (key : CStr) : ℕ :=
  if wrapIndent key < maxColumns then maxColumns - wrapIndent key else 1

/-- `chunk` on a line that is continued. -/
def wrapChunk (key : CStr) : ℕ := if wrapCapacity key > 1 then wrapCapacity key - 1 else 1

/-- The loop of `cfg_write_wrapped`: what it writes for the rest of the value. -/
def wrapLoop (key : CStr) : (fuel : ℕ) → (firstLine : Bool) → (text : CStr) → List UInt8
  | 0, _, _ => []
  | fuel + 1, firstLine, text =>
    let remaining := text.length
    let chunk := if remaining > wrapCapacity key then wrapChunk key else remaining
    (if firstLine then key ++ [equals] else List.replicate (wrapIndent key) space) ++
      text.take chunk ++
      if remaining > chunk then backslash :: newline :: wrapLoop key fuel false (text.drop chunk)
      else [newline]

/-- `cfg_write_wrapped` -/
def cfgWriteWrapped (key : CStr) (value : Option CStr) : List UInt8 :=
  let text := value.getD []
  wrapLoop key (text.length + 1) true text

theorem wrapCapacity_pos (key : CStr) : 0 < wrapCapacity key := by
  rw [wrapCapacity]
  split <;> omega

theorem wrapChunk_pos (key : CStr) : 0 < wrapChunk key := by
  rw [wrapChunk]
  split <;> omega

theorem wrapChunk_le (key : CStr) : wrapChunk key ≤ wrapCapacity key := by
  have := wrapCapacity_pos key
  rw [wrapChunk]
  split <;> omega

theorem wrapIndent_add_wrapCapacity_lt {key : CStr} {n : ℕ} (hkey : wrapIndent key + 1 < n)
    (hn : maxColumns < n) : wrapIndent key + wrapCapacity key < n := by
  rw [wrapCapacity]
  split <;> omega

/-- What stands before the text on a line. -/
def wrapLead (key : CStr) (firstLine : Bool) : CStr :=
  if firstLine then key ++ [equals] else List.replicate (wrapIndent key) space

/-- A line that is continued. -/
theorem wrapLoop_more {key text : CStr} (h : wrapCapacity key < text.length) (fuel : ℕ)
    (firstLine : Bool) : wrapLoop key (fuel + 1) firstLine text
      = wrapLead key firstLine ++ text.take (wrapChunk key) ++ [backslash] ++ newline ::
        wrapLoop key fuel false (text.drop (wrapChunk key)) := by
  have hchunk := wrapChunk_le key
  rw [wrapLoop, if_pos h, if_pos (show text.length > wrapChunk key by omega), wrapLead]
  simp only [List.append_assoc, List.singleton_append]

/-- The last line. -/
theorem wrapLoop_last {key text : CStr} (h : text.length ≤ wrapCapacity key) (fuel : ℕ)
    (firstLine : Bool) : wrapLoop key (fuel + 1) firstLine text
      = wrapLead key firstLine ++ text ++ [newline] := by
  rw [wrapLoop, if_neg (show ¬ text.length > wrapCapacity key by omega), if_neg (lt_irrefl _),
    List.take_length, wrapLead]

theorem length_le_wrapLoop (key : CStr) : ∀ (fuel : ℕ) (text : CStr) (firstLine : Bool),
    text.length < fuel → text.length ≤ (wrapLoop key fuel firstLine text).length
  | 0, _, _, h => by omega
  | fuel + 1, text, firstLine, h => by
    have hpos := wrapChunk_pos key
    by_cases hmore : wrapCapacity key < text.length
    · have hchunk := wrapChunk_le key
      have ih := length_le_wrapLoop key fuel (text.drop (wrapChunk key)) false
        (by rw [List.length_drop]; omega)
      rw [List.length_drop] at ih
      rw [wrapLoop_more hmore]
      simp only [List.length_append, List.length_cons, List.length_take]
      omega
    · rw [wrapLoop_last (by omega), List.length_append, List.length_append]
      omega

end Rustyaxe
