import Rustyaxe.Strtol

/-!
# Formatting codes

`irc.format.c`, and `irc_to_tui_colors` and `strip_mirc_formatting` of `tui.theme.c`.

A code is a control byte, with the parameters of a colour behind it.  What is written for a text is
made of its literal bytes, which are those that are left if it is stripped, and of complete escape
sequences (`IsRendered`).
-/

set_option autoImplicit false

namespace Rustyaxe

/-! ## `irc.format.c` -/

/-- `irc_color_t` -/
structure IrcColor where
  hex : Bool
  reset : Bool
  background : Bool
  foreground : ℕ
  bg : ℕ
deriving DecidableEq

/-- A digit of `color_component`. -/
def colorDigit (hex : Bool) (c : UInt8) : Option ℕ :=
  if 0x30 ≤ c ∧ c ≤ 0x39 then some (c.toNat - 0x30)
  else if hex ∧ 0x61 ≤ c ∧ c ≤ 0x66 then some (c.toNat - 0x61 + 10)
  else if hex ∧ 0x41 ≤ c ∧ c ≤ 0x46 then some (c.toNat - 0x41 + 10)
  else none

/-- `color_component`: the number of digits, and the value. -/
def colorComponent (hex : Bool) (p : CStr) : ℕ × ℕ :=
  let digits := (p.take (if hex then 6 else 2)).takeWhile fun c ↦ (colorDigit hex c).isSome
  if hex ∧ digits.length ≠ 6 then (0, 0)
  else (digits.length, digits.foldl
    (fun result c ↦ result * (if hex then 16 else 10) + (colorDigit hex c).getD 0) 0)

/-- The background of a colour, if `p` starts with a comma. -/
def colorBackground (hex : Bool) (p : CStr) : ℕ × ℕ :=
  if p.head? = some comma then colorComponent hex (p.drop 1) else (0, 0)

/-- `irc_color_parse`: the length of a code, and the colour. -/
def ircColorParse (input : CStr) : ℕ × IrcColor :=
  match input with
  | [] => (0, ⟨false, false, false, 0, 0⟩)
  | c :: p =>
    if c ≠ 0x03 ∧ c ≠ 0x04 then (0, ⟨false, false, false, 0, 0⟩)
    else
      let hex := decide (c = 0x04)
      let (foreground, value) := colorComponent hex p
      if foreground = 0 then (1, ⟨hex, true, false, 0, 0⟩)
      else
        let (background, bg) := colorBackground hex (p.drop foreground)
        if background = 0 then (1 + foreground, ⟨hex, false, false, value, 0⟩)
        else (1 + foreground + (1 + background), ⟨hex, false, true, value, bg⟩)

/-- `irc_color_ansi_extended` -/
def ircColorAnsiExtended (index : ℕ) : ℕ :=
  if 16 ≤ index ∧ index ≤ 98 then
    [52, 94, 100, 58, 22, 29, 23, 24, 17, 54, 53, 89,
      88, 130, 142, 64, 28, 35, 30, 25, 18, 91, 90, 125,
      124, 166, 184, 106, 34, 49, 37, 33, 19, 129, 127, 161,
      196, 208, 226, 154, 46, 86, 51, 75, 21, 171, 201, 198,
      203, 215, 227, 191, 83, 122, 87, 111, 63, 177, 207, 205,
      217, 223, 229, 193, 157, 158, 159, 153, 147, 183, 219, 212,
      16, 233, 235, 237, 239, 241, 244, 247, 250, 254, 231].getD (index - 16) 0
  else 0

/-! ## `tui.theme.c` -/

/-- `"\033[%sm"` -/
def sgr (params : CStr) : CStr := esc :: lbracket :: (params ++ [0x6d])

/-- `foreground`, of `irc_to_tui_colors`. -/
def ircForeground : List String :=
  ["97", "30", "34", "32", "91", "38;5;94", "35", "38;5;208",
    "93", "92", "36", "96", "94", "95", "90", "37"]

/-- `background`, of `irc_to_tui_colors`. -/
def ircBackground : List String :=
  ["107", "40", "44", "42", "101", "48;5;94", "45", "48;5;208",
    "103", "102", "46", "106", "104", "105", "100", "47"]

/-- What `irc_to_tui_colors` writes for a component of a colour. -/
def ircComponent (hex component : Bool) (value : ℕ) : CStr :=
  let plane := decimal (if component then 48 else 38)
  sgr (if hex then
      plane ++ lit ";2;" ++ decimal (value / 65536) ++ lit ";" ++ decimal (value / 256 % 256) ++
        lit ";" ++ decimal (value % 256)
    else if value = 99 then lit (if component then "49" else "39")
    else if value < 16 then lit ((if component then ircBackground else ircForeground).getD value "")
    else plane ++ lit ";5;" ++ decimal (ircColorAnsiExtended value))

/-- What `irc_to_tui_colors` writes for a colour. -/
def ircColorText (color : IrcColor) : CStr :=
  if color.reset then sgr (lit "39;49")
  else
    ircComponent color.hex false color.foreground ++
      if color.background then ircComponent color.hex true color.bg else []

/-- The styles that are on. -/
structure IrcStyle where
  bold : Bool
  underline : Bool
  reverse : Bool
  italic : Bool
  strikethrough : Bool

/-- The `switch` of `irc_to_tui_colors`. -/
def ircControl (style : IrcStyle) (control : UInt8) : CStr × IrcStyle :=
  if control = 0x02 then
    (sgr (lit (if style.bold then "22" else "1")), { style with bold := !style.bold })
  else if control = 0x0f then (sgr (lit "0"), ⟨false, false, false, false, false⟩)
  else if control = 0x16 then
    (sgr (lit (if style.reverse then "27" else "7")), { style with reverse := !style.reverse })
  else if control = 0x1d then
    (sgr (lit (if style.italic then "23" else "3")), { style with italic := !style.italic })
  else if control = 0x1e then
    (sgr (lit (if style.strikethrough then "29" else "9")),
      { style with strikethrough := !style.strikethrough })
  else if control = 0x1f then
    (sgr (lit (if style.underline then "24" else "4")),
      { style with underline := !style.underline })
  else if control = 0x11 then ([], style)
  else ([control], style)

/-- The loop of `irc_to_tui_colors`. -/
def ircLoop (style : IrcStyle) (input : CStr) : CStr :=
  match input with
  | [] => []
  | control :: rest =>
    if control = 0x03 ∨ control = 0x04 then
      let (used, color) := ircColorParse (control :: rest)
      ircColorText color ++ ircLoop style (rest.drop (used - 1))
    else
      let (text, style) := ircControl style control
      text ++ ircLoop style rest
termination_by input.length
decreasing_by
  · rw [List.length_drop, List.length_cons]
    omega
  · exact Nat.lt_succ_self _

/-- `irc_to_tui_colors` -/
def ircToTuiColors (input : CStr) : CStr := ircLoop ⟨false, false, false, false, false⟩ input

theorem ircColorParse_pos {c : UInt8} (p : CStr) (hc : c = 0x03 ∨ c = 0x04) :
    1 ≤ (ircColorParse (c :: p)).1 := by
  rw [ircColorParse, if_neg (by rcases hc with rfl | rfl <;> decide)]
  simp only
  split_ifs
  · exact le_rfl
  · exact Nat.le_add_right 1 _
  · exact (Nat.le_add_right 1 _).trans (Nat.le_add_right _ _)

/-- `strip_mirc_formatting` -/
def stripMircFormatting (p : CStr) : CStr :=
  match p with
  | [] => []
  | c :: s =>
    if c = 0x02 ∨ c = 0x1d ∨ c = 0x1f ∨ c = 0x0f ∨ c = 0x11 ∨ c = 0x16 ∨ c = 0x1e then
      stripMircFormatting s
    else if c = 0x03 ∨ c = 0x04 then
      stripMircFormatting ((c :: s).drop (ircColorParse (c :: s)).1)
    else c :: stripMircFormatting s
termination_by p.length
decreasing_by
  · exact Nat.lt_succ_self _
  · rename_i hc
    have hpos := ircColorParse_pos s hc
    rw [List.length_drop, List.length_cons]
    omega
  · exact Nat.lt_succ_self _

/-! ## Codes end at a brace -/

theorem takeWhile_take_append {p : UInt8 → Bool} {b : UInt8} (hb : p b = false) (x y : CStr)
    (n : ℕ) : ((x ++ b :: y).take n).takeWhile p = (x.take n).takeWhile p := by
  induction x generalizing n with
  | nil =>
    rcases n with _ | n
    · rfl
    · rw [List.nil_append, List.take_succ_cons, List.takeWhile_cons_of_neg (by simp [hb])]
      rfl
  | cons a x ih =>
    rcases n with _ | n
    · rfl
    · rw [List.cons_append, List.take_succ_cons, List.take_succ_cons, List.takeWhile_cons,
        List.takeWhile_cons, ih]

theorem colorComponent_append {hex : Bool} {b : UInt8} (hb : colorDigit hex b = none)
    (x y : CStr) : colorComponent hex (x ++ b :: y) = colorComponent hex x := by
  rw [colorComponent, colorComponent,
    takeWhile_take_append (p := fun c ↦ (colorDigit hex c).isSome) (by simp [hb])]

theorem colorComponent_le (hex : Bool) (p : CStr) : (colorComponent hex p).1 ≤ p.length := by
  obtain ⟨digits, hdigits⟩ : ∃ digits, digits = (p.take (if hex then 6 else 2)).takeWhile
    fun c ↦ (colorDigit hex c).isSome := ⟨_, rfl⟩
  have hle : digits.length ≤ p.length :=
    hdigits ▸ ((List.takeWhile_sublist _).trans (List.take_sublist _ _)).length_le
  simp only [colorComponent, ← hdigits]
  by_cases hshort : hex = true ∧ digits.length ≠ 6
  · rw [if_pos hshort]
    exact Nat.zero_le _
  · rw [if_neg hshort]
    exact hle

/-- A byte that is no part of a colour. -/
def EndsColor (b : UInt8) : Prop := (∀ hex, colorDigit hex b = none) ∧ b ≠ comma

theorem colorBackground_append {hex : Bool} {b : UInt8} (hb : EndsColor b) (x y : CStr) :
    colorBackground hex (x ++ b :: y) = colorBackground hex x := by
  rcases x with _ | ⟨c, x⟩
  · simp [colorBackground, hb.2]
  · simp only [colorBackground, List.cons_append, List.head?_cons, List.drop_one, List.tail_cons]
    rw [colorComponent_append (hb.1 hex)]

theorem colorBackground_le (hex : Bool) (p : CStr) (h : (colorBackground hex p).1 ≠ 0) :
    1 + (colorBackground hex p).1 ≤ p.length := by
  rw [colorBackground] at h ⊢
  split_ifs at h ⊢ with hcomma
  · obtain ⟨s, rfl⟩ := List.head?_eq_some_iff.mp hcomma
    have hle := colorComponent_le hex s
    rw [List.drop_one, List.tail_cons, List.length_cons]
    omega
  · exact absurd rfl h

theorem ircColorParse_append {b : UInt8} (hb : EndsColor b) (c : UInt8) (x y : CStr) :
    ircColorParse (c :: (x ++ b :: y)) = ircColorParse (c :: x) := by
  simp only [ircColorParse, colorComponent_append (hb.1 _),
    List.drop_append_of_le_length (colorComponent_le _ x), colorBackground_append hb]

/-- A code is not longer than the text. -/
theorem ircColorParse_le (c : UInt8) (p : CStr) : (ircColorParse (c :: p)).1 ≤ p.length + 1 := by
  have hcolor := colorComponent_le (decide (c = 0x04)) p
  have hbackground := colorBackground_le (decide (c = 0x04))
    (p.drop (colorComponent (decide (c = 0x04)) p).1)
  rw [List.length_drop] at hbackground
  simp only [ircColorParse]
  split_ifs with hc hfg hbg
  · exact Nat.zero_le _
  · exact Nat.le_add_left 1 _
  · simp only
    omega
  · have hlast := hbackground hbg
    simp only
    omega

/-! ## What is written -/

/-- A byte between `ESC [` and `m`. -/
def isParam (c : UInt8) : Bool := isdigit c || c == semicolon

/-- Complete escape sequences. -/
inductive IsEscapes : CStr → Prop where
  | nil : IsEscapes []
  | cons {params rest : CStr} : (∀ c ∈ params, isParam c = true) → IsEscapes rest →
      IsEscapes (sgr params ++ rest)

/-- A text whose escape sequences are complete. -/
inductive IsRendered : CStr → Prop where
  | nil : IsRendered []
  | byte {c : UInt8} {out : CStr} : c ≠ esc → IsRendered out → IsRendered (c :: out)
  | sequence {params out : CStr} : (∀ c ∈ params, isParam c = true) → IsRendered out →
      IsRendered (sgr params ++ out)

theorem IsEscapes.of_params {params : CStr} (h : ∀ c ∈ params, isParam c = true) :
    IsEscapes (sgr params) := by
  have hone := IsEscapes.cons h .nil
  rwa [List.append_nil] at hone

theorem IsEscapes.append {x y : CStr} (hx : IsEscapes x) (hy : IsEscapes y) :
    IsEscapes (x ++ y) := by
  induction hx with
  | nil => exact hy
  | cons hparams _ ih =>
    rw [List.append_assoc]
    exact .cons hparams ih

theorem IsEscapes.rendered {x out : CStr} (hx : IsEscapes x) (hout : IsRendered out) :
    IsRendered (x ++ out) := by
  induction hx with
  | nil => exact hout
  | cons hparams _ ih =>
    rw [List.append_assoc]
    exact .sequence hparams ih

theorem isParam_decimal {n : ℕ} : ∀ c ∈ decimal n, isParam c = true := by
  intro c hc
  rw [isParam, isdigit_of_mem_decimal hc]
  rfl

theorem isParam_table : ∀ value < 16, ∀ component : Bool, ∀ c ∈
    lit ((if component then ircBackground else ircForeground).getD value ""),
    isParam c = true := by decide +kernel

theorem isEscapes_ircComponent (hex component : Bool) (value : ℕ) :
    IsEscapes (ircComponent hex component value) := by
  have hplane : ∀ c ∈ decimal (if component then 48 else 38), isParam c = true := isParam_decimal
  have hseparator : ∀ c ∈ lit ";", isParam c = true := by decide
  refine .of_params ?_
  by_cases hhex : hex = true
  · have hrgb : ∀ c ∈ lit ";2;", isParam c = true := by decide
    simp only [if_pos hhex, List.forall_mem_append]
    exact ⟨⟨⟨⟨⟨⟨hplane, hrgb⟩, isParam_decimal⟩, hseparator⟩, isParam_decimal⟩, hseparator⟩,
      isParam_decimal⟩
  · rw [if_neg hhex]
    by_cases hdefault : value = 99
    · rw [if_pos hdefault]
      revert component
      decide
    · rw [if_neg hdefault]
      by_cases hvalue : value < 16
      · rw [if_pos hvalue]
        exact isParam_table value hvalue component
      · have hextended : ∀ c ∈ lit ";5;", isParam c = true := by decide
        simp only [if_neg hvalue, List.forall_mem_append]
        exact ⟨⟨hplane, hextended⟩, isParam_decimal⟩

theorem isEscapes_ircColorText (color : IrcColor) : IsEscapes (ircColorText color) := by
  rw [ircColorText]
  split_ifs
  · exact .of_params (by decide)
  · exact (isEscapes_ircComponent _ _ _).append (isEscapes_ircComponent _ _ _)
  · exact (isEscapes_ircComponent _ _ _).append .nil

/-- `strpbrk`, in `tui_colorize_string`. -/
def isIrcControl (c : UInt8) : Bool :=
  [0x03, 0x04, 0x02, 0x11, 0x16, 0x1d, 0x1e, 0x1f, 0x0f].contains c

theorem isIrcControl_iff {c : UInt8} : isIrcControl c = true ↔
    c ∈ [0x03, 0x04, 0x02, 0x11, 0x16, 0x1d, 0x1e, 0x1f, 0x0f] := by
  rw [isIrcControl, List.contains_iff_mem]

theorem isIrcControl_cases {c : UInt8} (hc : ¬(c = 0x03 ∨ c = 0x04)) : isIrcControl c = true ↔
    c = 0x02 ∨ c = 0x1d ∨ c = 0x1f ∨ c = 0x0f ∨ c = 0x11 ∨ c = 0x16 ∨ c = 0x1e := by
  rw [not_or] at hc
  simp only [isIrcControl_iff, List.mem_cons, List.not_mem_nil, or_false, hc.1, hc.2, false_or]
  grind

/-- A style is switched. -/
theorem isEscapes_ircControl (style : IrcStyle) {c : UInt8} (hc : ¬(c = 0x03 ∨ c = 0x04))
    (hcontrol : isIrcControl c = true) : IsEscapes (ircControl style c).1 := by
  have hswitch (b : Bool) (off on : String) (hoff : ∀ c ∈ lit off, isParam c = true)
      (hon : ∀ c ∈ lit on, isParam c = true) : IsEscapes (sgr (lit (if b then off else on))) := by
    refine .of_params ?_
    split
    · exact hoff
    · exact hon
  rcases (isIrcControl_cases hc).mp hcontrol with rfl | rfl | rfl | rfl | rfl | rfl | rfl
  · exact hswitch style.bold "22" "1" (by decide) (by decide)
  · exact hswitch style.italic "23" "3" (by decide) (by decide)
  · exact hswitch style.underline "24" "4" (by decide) (by decide)
  · exact .of_params (by decide)
  · exact .nil
  · exact hswitch style.reverse "27" "7" (by decide) (by decide)
  · exact hswitch style.strikethrough "29" "9" (by decide) (by decide)

/-- Any other byte is written as it is. -/
theorem ircControl_of_not_control (style : IrcStyle) {c : UInt8}
    (hcontrol : isIrcControl c = false) : ircControl style c = ([c], style) := by
  have hne : c ≠ 0x02 ∧ c ≠ 0x0f ∧ c ≠ 0x16 ∧ c ≠ 0x1d ∧ c ≠ 0x1e ∧ c ≠ 0x1f ∧ c ≠ 0x11 := by
    have hnot := isIrcControl_iff.not.mp (Bool.eq_false_iff.mp hcontrol)
    simp only [List.mem_cons, List.not_mem_nil, or_false, not_or] at hnot
    grind
  obtain ⟨h02, h0f, h16, h1d, h1e, h1f, h11⟩ := hne
  rw [ircControl, if_neg h02, if_neg h0f, if_neg h16, if_neg h1d, if_neg h1e, if_neg h1f,
    if_neg h11]

theorem not_color_of_not_control {c : UInt8} (hcontrol : isIrcControl c = false) :
    ¬(c = 0x03 ∨ c = 0x04) := by
  rintro (rfl | rfl) <;> exact absurd hcontrol (by decide)

/-! ## One code after another -/

/-- What is written for a code. -/
def codeText (style : IrcStyle) (c : UInt8) (s : CStr) : CStr :=
  if c = 0x03 ∨ c = 0x04 then ircColorText (ircColorParse (c :: s)).2 else (ircControl style c).1

/-- The styles after a code. -/
def codeStyle (style : IrcStyle) (c : UInt8) : IrcStyle :=
  if c = 0x03 ∨ c = 0x04 then style else (ircControl style c).2

/-- What follows a code that starts with `c`. -/
def afterCode (c : UInt8) (s : CStr) : CStr :=
  if c = 0x03 ∨ c = 0x04 then s.drop ((ircColorParse (c :: s)).1 - 1) else s

theorem length_afterCode_le (c : UInt8) (s : CStr) : (afterCode c s).length ≤ s.length := by
  rw [afterCode]
  split
  · exact (List.drop_sublist _ _).length_le
  · exact le_rfl

theorem mem_of_mem_afterCode {b c : UInt8} {s : CStr} (h : b ∈ afterCode c s) : b ∈ s := by
  rw [afterCode] at h
  split at h
  · exact List.mem_of_mem_drop h
  · exact h

/-- Texts are made of codes and bytes. -/
theorem code_induction {P : CStr → Prop} (nil : P [])
    (code : ∀ c s, isIrcControl c = true → P (afterCode c s) → P (c :: s))
    (byte : ∀ c s, isIrcControl c = false → P s → P (c :: s)) (x : CStr) : P x := by
  obtain ⟨n, hn⟩ : ∃ n, x.length = n := ⟨_, rfl⟩
  induction n using Nat.strong_induction_on generalizing x with
  | _ n ih =>
    rcases x with _ | ⟨c, s⟩
    · exact nil
    · rw [List.length_cons] at hn
      cases hcontrol : isIrcControl c with
      | false => exact byte c s hcontrol (ih s.length (by omega) s rfl)
      | true =>
        have hle := length_afterCode_le c s
        exact code c s hcontrol (ih (afterCode c s).length (by omega) _ rfl)

theorem ircLoop_nil (style : IrcStyle) : ircLoop style [] = [] := by rw [ircLoop]

theorem ircLoop_code (style : IrcStyle) (c : UInt8) (s : CStr) : ircLoop style (c :: s) =
    codeText style c s ++ ircLoop (codeStyle style c) (afterCode c s) := by
  rw [ircLoop, codeText, codeStyle, afterCode]
  split_ifs <;> rfl

theorem ircLoop_byte (style : IrcStyle) {c : UInt8} (s : CStr) (hc : isIrcControl c = false) :
    ircLoop style (c :: s) = c :: ircLoop style s := by
  rw [ircLoop, if_neg (not_color_of_not_control hc), ircControl_of_not_control style hc]
  rfl

theorem stripMircFormatting_nil : stripMircFormatting [] = [] := by rw [stripMircFormatting]

theorem stripMircFormatting_code {c : UInt8} (s : CStr) (hc : isIrcControl c = true) :
    stripMircFormatting (c :: s) = stripMircFormatting (afterCode c s) := by
  rw [stripMircFormatting, afterCode]
  by_cases hcolor : c = 0x03 ∨ c = 0x04
  · obtain ⟨n, hn⟩ : ∃ n, (ircColorParse (c :: s)).1 = n + 1 :=
      ⟨_, (Nat.sub_add_cancel (ircColorParse_pos s hcolor)).symm⟩
    rw [if_neg (by rcases hcolor with rfl | rfl <;> decide), if_pos hcolor, if_pos hcolor, hn,
      List.drop_succ_cons, Nat.add_sub_cancel]
  · rw [if_pos ((isIrcControl_cases hcolor).mp hc), if_neg hcolor]

theorem stripMircFormatting_byte {c : UInt8} (s : CStr) (hc : isIrcControl c = false) :
    stripMircFormatting (c :: s) = c :: stripMircFormatting s := by
  have hcolor := not_color_of_not_control hc
  rw [stripMircFormatting, if_neg, if_neg hcolor]
  intro hstyle
  rw [(isIrcControl_cases hcolor).mpr hstyle] at hc
  exact Bool.noConfusion hc

theorem isEscapes_codeText (style : IrcStyle) {c : UInt8} (s : CStr) (hc : isIrcControl c = true) :
    IsEscapes (codeText style c s) := by
  rw [codeText]
  split_ifs with hcolor
  · exact isEscapes_ircColorText _
  · exact isEscapes_ircControl style hcolor hc

/-- **A text is written as complete escape sequences and bytes.** -/
theorem isRendered_ircLoop {x : CStr} (hx : esc ∉ x) (style : IrcStyle) :
    IsRendered (ircLoop style x) := by
  induction x using code_induction generalizing style with
  | nil =>
    rw [ircLoop_nil]
    exact .nil
  | code c s hc ih =>
    rw [ircLoop_code]
    exact (isEscapes_codeText style s hc).rendered
      (ih (fun h ↦ hx (List.mem_cons_of_mem _ (mem_of_mem_afterCode h))) _)
  | byte c s hc ih =>
    rw [ircLoop_byte style s hc]
    exact .byte (fun h ↦ hx (h ▸ List.mem_cons_self)) (ih (fun h ↦ hx (List.mem_cons_of_mem _ h)) _)

/-- A byte that is in no code splits what is written. -/
theorem ircLoop_append {b : UInt8} (hb : EndsColor b) (hbyte : isIrcControl b = false) (x : CStr)
    (style : IrcStyle) : ∃ style', ∀ y,
      ircLoop style (x ++ b :: y) = ircLoop style x ++ b :: ircLoop style' y := by
  induction x using code_induction generalizing style with
  | nil =>
    refine ⟨style, fun y ↦ ?_⟩
    rw [ircLoop_nil, List.nil_append, List.nil_append, ircLoop_byte style y hbyte]
  | code c s hc ih =>
    obtain ⟨style', hstyle⟩ := ih (codeStyle style c)
    refine ⟨style', fun y ↦ ?_⟩
    have htext : codeText style c (s ++ b :: y) = codeText style c s := by
      rw [codeText, codeText, ircColorParse_append hb]
    have hafter : afterCode c (s ++ b :: y) = afterCode c s ++ b :: y := by
      have hle := ircColorParse_le c s
      rw [afterCode, afterCode, ircColorParse_append hb]
      split
      · exact List.drop_append_of_le_length (by omega)
      · rfl
    rw [List.cons_append, ircLoop_code, htext, hafter, hstyle, ircLoop_code style c s,
      List.append_assoc]
  | byte c s hc ih =>
    obtain ⟨style', hstyle⟩ := ih style
    refine ⟨style', fun y ↦ ?_⟩
    rw [List.cons_append, ircLoop_byte style _ hc, hstyle, ircLoop_byte style s hc]
    rfl

end Rustyaxe
