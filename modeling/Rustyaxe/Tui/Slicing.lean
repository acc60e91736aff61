import Rustyaxe.Tui.Colors

/-!
# Slices of a rendered text

`ansi_column_offset` and `ansi_copy_columns` of `tui.c`, which cut the columns that fit on the
screen out of the input line.

`Renders single text v` says that every escape sequence of the text is complete, and that `v` are
the bytes outside of them.  Both functions take an escape sequence as a whole, and neither stops in
one.
-/

set_option autoImplicit false

namespace Rustyaxe

/-! ## The code -/

/-- What follows an escape sequence, from behind its first byte on.  If that is not followed by a
bracket, it is on its own. -/
def skipEscape (s : CStr) : CStr :=
  if s.head? = some lbracket then afterEscape (s.drop 1) else s

theorem length_skipEscape_le (s : CStr) : (skipEscape s).length ≤ s.length := by
  rw [skipEscape]
  split_ifs
  · exact (length_afterEscape_le _).trans (List.drop_sublist 1 s).length_le
  · exact le_rfl

/-- The loop of `ansi_column_offset`, with `p` for `text + offset`. -/
def columnOffsetLoop (column : ℤ) (p : CStr) (offset : ℕ) (visible : ℤ) : ℕ :=
  match p with
  | [] => offset
  | c :: s =>
    if visible < column then
      if c = esc then
        columnOffsetLoop column (skipEscape s) (offset + (1 + (s.length - (skipEscape s).length)))
          visible
      else columnOffsetLoop column s (offset + 1) (visible + 1)
    else offset
termination_by p.length
decreasing_by
  · exact Nat.lt_succ_of_le (length_skipEscape_le s)
  · simp

/-- `ansi_column_offset` -/
def ansiColumnOffset (text : Option CStr) (column : ℤ) : ℕ :=
  match text with
  | none => 0
  | some text => if column ≤ 0 then 0 else columnOffsetLoop column text 0 0

/-- The loop of `ansi_copy_columns`, with `p` for `text + in` and the bytes `out` that have been
copied. -/
def copyColumnsLoop (columns : ℤ) (outSize : ℕ) (p out : CStr) (visible : ℤ) : CStr :=
  match p with
  | [] => out
  | c :: s =>
    if out.length + 1 < outSize ∧ visible < columns then
      if c = esc then
        copyColumnsLoop columns outSize (skipEscape s)
          (out ++ (upTo (c :: s) (skipEscape s)).take (outSize - 1 - out.length)) visible
      else copyColumnsLoop columns outSize s (out ++ [c]) (visible + 1)
    else out
termination_by p.length
decreasing_by
  · exact Nat.lt_succ_of_le (length_skipEscape_le s)
  · simp

/-- `ansi_copy_columns`: the text that it leaves in `out`, if it writes there at all. -/
def ansiCopyColumns (text : Option CStr) (columns : ℤ) (outSize : ℕ) : Option CStr :=
  match text with
  | none => none
  | some text => if outSize = 0 then none else some (copyColumnsLoop columns outSize text [] 0)

/-! ## Complete escape sequences -/

/-- An escape sequence in front of a text: one with parameters and a final byte, or, if `single`,
an escape byte on its own. -/
inductive IsEscape (single : Bool) : (x text : CStr) → Prop where
  | sequence {params : CStr} {c : UInt8} (text : CStr) : (∀ d ∈ params, isFinal d = false) →
      isFinal c = true → IsEscape single (esc :: lbracket :: (params ++ [c])) text
  | single {text : CStr} : single = true → text.head? ≠ some lbracket → IsEscape single [esc] text

/-- The text is made of complete escape sequences and these visible bytes. -/
inductive Renders (single : Bool) : (text visible : CStr) → Prop where
  | nil : Renders single [] []
  | visible {c : UInt8} {text v : CStr} : c ≠ esc → Renders single text v →
      Renders single (c :: text) (c :: v)
  | escape {x text v : CStr} : IsEscape single x text → Renders single text v →
      Renders single (x ++ text) v

namespace IsEscape

variable {single : Bool} {x text : CStr} (h : IsEscape single x text)
include h

/-- Both functions skip it. -/
theorem skip : ∃ s, x ++ text = esc :: s ∧ skipEscape s = text := by
  cases h with
  | @sequence params c _ hparams hc =>
    refine ⟨lbracket :: (params ++ [c] ++ text), rfl, ?_⟩
    have hdrop : ∀ d ∈ params, (!isFinal d) = true := fun d hd ↦ by rw [hparams d hd]; rfl
    rw [skipEscape, List.head?_cons, if_pos rfl, List.drop_one, List.tail_cons, afterEscape,
      List.append_assoc, List.dropWhile_append_of_pos hdrop, List.singleton_append,
      List.dropWhile_cons_of_neg (by simp [hc]), List.drop_one, List.tail_cons]
  | single _ hhead => exact ⟨text, rfl, if_neg hhead⟩

/-- It is as complete in front of the beginning of the text. -/
theorem of_isPrefix {q : CStr} (hq : q <+: text) : IsEscape single x q := by
  cases h with
  | sequence _ hparams hc => exact .sequence q hparams hc
  | single hsingle hhead =>
    refine .single hsingle fun hbracket ↦ hhead ?_
    obtain ⟨t, rfl⟩ := hq
    rw [List.head?_append, hbracket, Option.some_or]

end IsEscape

/-- The visible bytes of a text are determined by it. -/
theorem Renders.unique {single : Bool} {text v v' : CStr} (h : Renders single text v)
    (h' : Renders single text v') : v = v' := by
  induction h generalizing v' with
  | nil =>
    generalize htext : ([] : CStr) = text at h'
    cases h' with
    | nil => rfl
    | visible => cases htext
    | escape hx _ =>
      obtain ⟨s, hs, -⟩ := hx.skip
      cases htext.trans hs
  | @visible c text v hc _ ih =>
    generalize htext : c :: text = text' at h'
    cases h' with
    | nil => cases htext
    | visible _ hv' =>
      obtain ⟨rfl, rfl⟩ := List.cons.inj htext
      exact congrArg _ (ih hv')
    | escape hx _ =>
      obtain ⟨s, hs, -⟩ := hx.skip
      exact absurd (List.cons.inj (htext.trans hs)).1 hc
  | @escape x text v hx _ ih =>
    obtain ⟨s, hs, hskip⟩ := hx.skip
    rw [hs] at h'
    generalize htext : esc :: s = text' at h'
    cases h' with
    | nil => cases htext
    | visible hc _ => exact absurd (List.cons.inj htext).1.symm hc
    | escape hx' hv' =>
      obtain ⟨s', hs', hskip'⟩ := hx'.skip
      obtain rfl := (List.cons.inj (htext.trans hs')).2
      exact ih (hskip.symm.trans hskip' ▸ hv')

/-! ## The offset of a column -/

theorem columnOffsetLoop_reached (p : CStr) (offset : ℕ) (visible : ℤ) :
    columnOffsetLoop visible p offset visible = offset := by
  cases p with
  | nil => rw [columnOffsetLoop]
  | cons c s => rw [columnOffsetLoop, if_neg (lt_irrefl visible)]

theorem columnOffsetLoop_visible {c : UInt8} (hc : c ≠ esc) (s : CStr) (k offset : ℕ)
    (visible : ℤ) : columnOffsetLoop (visible + (k + 1 : ℕ)) (c :: s) offset visible =
      columnOffsetLoop (visible + 1 + k) s (offset + 1) (visible + 1) := by
  rw [columnOffsetLoop, if_pos (by omega), if_neg hc, Nat.cast_succ, add_right_comm, add_assoc,
    add_comm (k : ℤ) 1, ← add_assoc]

theorem columnOffsetLoop_escape {single : Bool} {x text : CStr} (hx : IsEscape single x text)
    (k offset : ℕ) (visible : ℤ) :
    columnOffsetLoop (visible + (k + 1 : ℕ)) (x ++ text) offset visible =
      columnOffsetLoop (visible + (k + 1 : ℕ)) text (offset + x.length) visible := by
  obtain ⟨s, hs, hskip⟩ := hx.skip
  have hlen := congrArg List.length hs
  rw [List.length_append, List.length_cons] at hlen
  have hle := length_skipEscape_le s
  rw [hskip] at hle
  rw [hs, columnOffsetLoop, if_pos (by omega), if_pos rfl, hskip]
  congr 1
  omega

/-- **The offset is behind as many visible bytes**, and not in an escape sequence. -/
theorem columnOffsetLoop_spec {single : Bool} {text v : CStr} (h : Renders single text v) :
    ∀ (k offset : ℕ) (visible : ℤ), ∃ m,
      columnOffsetLoop (visible + k) text offset visible = offset + m ∧
        Renders single (text.drop m) (v.drop k) := by
  induction h with
  | nil =>
    intro k offset visible
    refine ⟨0, by rw [columnOffsetLoop, Nat.add_zero], ?_⟩
    rw [List.drop_nil, List.drop_nil]
    exact .nil
  | @visible c text v hc htext ih =>
    intro k offset visible
    cases k with
    | zero =>
      rw [Nat.cast_zero, add_zero]
      exact ⟨0, columnOffsetLoop_reached _ _ _, .visible hc htext⟩
    | succ k =>
      obtain ⟨m, hm, hshows⟩ := ih k (offset + 1) (visible + 1)
      refine ⟨m + 1, ?_, hshows⟩
      rw [columnOffsetLoop_visible hc, hm, Nat.add_right_comm, Nat.add_assoc]
  | @escape x text v hx htext ih =>
    intro k offset visible
    cases k with
    | zero =>
      rw [Nat.cast_zero, add_zero]
      exact ⟨0, columnOffsetLoop_reached _ _ _, .escape hx htext⟩
    | succ k =>
      obtain ⟨m, hm, hshows⟩ := ih (k + 1) (offset + x.length) visible
      refine ⟨x.length + m, ?_, ?_⟩
      · rw [columnOffsetLoop_escape hx, hm, Nat.add_assoc]
      · rwa [List.drop_length_add_append]

theorem renders_drop_ansiColumnOffset {single : Bool} {text v : CStr} (h : Renders single text v)
    (k : ℕ) : Renders single (text.drop (ansiColumnOffset (some text) k)) (v.drop k) := by
  rw [ansiColumnOffset]
  split_ifs with hk
  · obtain rfl : k = 0 := by omega
    exact h
  · obtain ⟨m, hm, hshows⟩ := columnOffsetLoop_spec h k 0 0
    rw [zero_add, Nat.zero_add] at hm
    rwa [hm]

/-! ## The columns that are copied -/

theorem copyColumnsLoop_full (outSize : ℕ) (p out : CStr) (visible : ℤ) :
    copyColumnsLoop visible outSize p out visible = out := by
  cases p with
  | nil => rw [copyColumnsLoop]
  | cons c s => rw [copyColumnsLoop, if_neg fun h ↦ lt_irrefl visible h.2]

theorem copyColumnsLoop_visible {c : UInt8} (hc : c ≠ esc) {outSize : ℕ} {s out : CStr}
    (hroom : out.length + (c :: s).length < outSize) (n : ℕ) (visible : ℤ) :
    copyColumnsLoop (visible + (n + 1 : ℕ)) outSize (c :: s) out visible =
      copyColumnsLoop (visible + 1 + n) outSize s (out ++ [c]) (visible + 1) := by
  rw [List.length_cons] at hroom
  rw [copyColumnsLoop, if_pos ⟨by omega, by omega⟩, if_neg hc, Nat.cast_succ, add_right_comm,
    add_assoc, add_comm (n : ℤ) 1, ← add_assoc]

theorem copyColumnsLoop_escape {single : Bool} {x text : CStr} (hx : IsEscape single x text)
    {outSize : ℕ} {out : CStr} (hroom : out.length + (x ++ text).length < outSize) (n : ℕ)
    (visible : ℤ) :
    copyColumnsLoop (visible + (n + 1 : ℕ)) outSize (x ++ text) out visible =
      copyColumnsLoop (visible + (n + 1 : ℕ)) outSize text (out ++ x) visible := by
  obtain ⟨s, hs, hskip⟩ := hx.skip
  have hlen := congrArg List.length hs
  rw [List.length_append, List.length_cons] at hlen
  rw [List.length_append] at hroom
  rw [hs, copyColumnsLoop, if_pos ⟨by omega, by omega⟩, if_pos rfl, hskip, ← hs, upTo_append,
    List.take_of_length_le (by omega)]

/-- **What is copied is complete**: so many of the visible bytes, and the sequences among them. -/
theorem copyColumnsLoop_spec {single : Bool} {text v : CStr} (h : Renders single text v)
    (outSize : ℕ) : ∀ (n : ℕ) (out : CStr) (visible : ℤ), out.length + text.length < outSize →
      ∃ q, copyColumnsLoop (visible + n) outSize text out visible = out ++ q ∧ q <+: text ∧
        Renders single q (v.take n) := by
  induction h with
  | nil =>
    intro n out visible _
    refine ⟨[], ?_, List.prefix_rfl, ?_⟩
    · rw [copyColumnsLoop, List.append_nil]
    · rw [List.take_nil]
      exact .nil
  | @visible c text v hc htext ih =>
    intro n out visible hroom
    cases n with
    | zero =>
      rw [Nat.cast_zero, add_zero, copyColumnsLoop_full, List.take_zero]
      exact ⟨[], (List.append_nil out).symm, List.nil_prefix, .nil⟩
    | succ n =>
      obtain ⟨q, hq, hprefix, hshows⟩ := ih n (out ++ [c]) (visible + 1) (by
        simp only [List.length_append, List.length_cons, List.length_nil] at hroom ⊢
        omega)
      refine ⟨c :: q, ?_, List.cons_prefix_cons.mpr ⟨rfl, hprefix⟩, .visible hc hshows⟩
      rw [copyColumnsLoop_visible hc hroom, hq, List.append_assoc, List.singleton_append]
  | @escape x text v hx htext ih =>
    intro n out visible hroom
    cases n with
    | zero =>
      rw [Nat.cast_zero, add_zero, copyColumnsLoop_full, List.take_zero]
      exact ⟨[], (List.append_nil out).symm, List.nil_prefix, .nil⟩
    | succ n =>
      obtain ⟨q, hq, hprefix, hshows⟩ := ih (n + 1) (out ++ x) visible (by
        simp only [List.length_append] at hroom ⊢
        omega)
      refine ⟨x ++ q, ?_, (List.prefix_append_right_inj x).mpr hprefix,
        .escape (hx.of_isPrefix hprefix) hshows⟩
      rw [copyColumnsLoop_escape hx hroom, hq, List.append_assoc]

/-- **A slice of a text shows its columns**: the visible bytes from one column on, as many as there
is room for, in a text with complete escape sequences. -/
theorem renders_ansiCopyColumns {single : Bool} {text v : CStr} (h : Renders single text v)
    (k n : ℕ) {outSize : ℕ} (hsize : text.length < outSize) :
    ∃ out, ansiCopyColumns (some (text.drop (ansiColumnOffset (some text) k))) n outSize =
        some out ∧ ∀ w, Renders single out w ↔ w = (v.drop k).take n := by
  have hroom : ([] : CStr).length + (text.drop (ansiColumnOffset (some text) k)).length <
      outSize := by
    rw [List.length_nil, List.length_drop]
    omega
  obtain ⟨q, hq, -, hshows⟩ :=
    copyColumnsLoop_spec (renders_drop_ansiColumnOffset h k) outSize n [] 0 hroom
  rw [zero_add, List.nil_append] at hq
  refine ⟨q, ?_, fun w ↦ ⟨fun hw ↦ hw.unique hshows, fun hw ↦ hw ▸ hshows⟩⟩
  rw [ansiCopyColumns, if_neg (by omega), hq]

/-- A word with two letters in red. -/
def colouredWord : CStr :=
  0x66 :: ([esc, lbracket, 0x33, 0x31, 0x6d] ++ 0x72 :: 0x65 :: ([esc, lbracket, 0x6d] ++ [0x71]))

theorem renders_colouredWord : Renders false colouredWord (lit "freq") := by
  have hred : ∀ text, IsEscape false [esc, lbracket, 0x33, 0x31, 0x6d] text := fun text ↦
    @IsEscape.sequence false [0x33, 0x31] 0x6d text (by decide) (by decide)
  have hend : ∀ text, IsEscape false [esc, lbracket, 0x6d] text := fun text ↦
    @IsEscape.sequence false [] 0x6d text (by decide) (by decide)
  exact .visible (by decide) (.escape (hred _) (.visible (by decide) (.visible (by decide)
    (.escape (hend _) (.visible (by decide) .nil)))))

theorem renders_ansiCopyColumns_colouredWord :
    ∃ out, ansiCopyColumns (some (colouredWord.drop (ansiColumnOffset (some colouredWord) (1 : ℕ))))
        (2 : ℕ) 2048 = some out ∧
      ∀ w, Renders false out w ↔ w = ((lit "freq").drop 1).take 2 :=
  renders_ansiCopyColumns renders_colouredWord 1 2 (by decide)

example : ansiCopyColumns (some (colouredWord.drop (ansiColumnOffset (some colouredWord) 1))) 2
    2048 = some ([esc, lbracket, 0x33, 0x31, 0x6d] ++ lit "re") := by decide +kernel

end Rustyaxe
