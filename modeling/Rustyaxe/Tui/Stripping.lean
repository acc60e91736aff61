import Rustyaxe.Lib.LongestMatch
import Rustyaxe.Tui.Colors

/-!
# Texts without formatting

`strip_mirc_formatting` takes the formatting codes out of a text.  Without colours,
`tui_colorize_string` first writes each of them as an escape sequence, and then drops those.

`IsFormattingCode` says what the codes are, and a code in a text is as long as it can be
(`longest_ircColorParse`).  Both functions leave the text without its codes.
-/

set_option autoImplicit false

namespace Rustyaxe

open LongestMatch

/-! ## The codes -/

/-- A component of a colour: one digit or two, or six hexadecimal ones. -/
def IsComponent (hex : Bool) (s : CStr) : Prop :=
  if hex then s.length = 6 ∧ ∀ c ∈ s, isxdigit c = true
  else (s.length = 1 ∨ s.length = 2) ∧ ∀ c ∈ s, isdigit c = true

/-- The control byte of a colour. -/
def colorControl (hex : Bool) : UInt8 := if hex then 0x04 else 0x03

/-- The formatting codes: a style that is switched, or a colour, with a background or without, or
the end of the colours. -/
inductive IsFormattingCode : CStr → Prop where
  | style {c : UInt8} : c ∈ [0x02, 0x0f, 0x11, 0x16, 0x1d, 0x1e, 0x1f] → IsFormattingCode [c]
  | reset (hex : Bool) : IsFormattingCode [colorControl hex]
  | foreground {hex : Bool} {fg : CStr} : IsComponent hex fg →
      IsFormattingCode (colorControl hex :: fg)
  | background {hex : Bool} {fg bg : CStr} : IsComponent hex fg → IsComponent hex bg →
      IsFormattingCode (colorControl hex :: (fg ++ comma :: bg))

/-- A byte that is no control. -/
def IsPlain (c : UInt8) : Prop := isIrcControl c = false

/-! ## Components -/

theorem colorDigit_isSome (hex : Bool) (c : UInt8) :
    (colorDigit hex c).isSome = if hex then isxdigit c else isdigit c := by
  revert hex
  refine forall_byte ?_ c
  decide +kernel

theorem colorComponent_fst {hex : Bool} {p digits : CStr}
    (h : (p.take (if hex then 6 else 2)).takeWhile (fun c ↦ (colorDigit hex c).isSome) = digits) :
    (colorComponent hex p).1 = if hex = true ∧ digits.length ≠ 6 then 0 else digits.length := by
  subst h
  simp only [colorComponent, apply_ite Prod.fst]

theorem IsComponent.digits {hex : Bool} {x : CStr} (h : IsComponent hex x) :
    ∀ c ∈ x, (colorDigit hex c).isSome = true := by
  intro c hc
  rw [colorDigit_isSome]
  cases hex with
  | true => exact h.2 c hc
  | false => exact h.2 c hc

theorem IsComponent.length_ne_zero {hex : Bool} {x : CStr} (h : IsComponent hex x) :
    x.length ≠ 0 := by
  cases hex with
  | true =>
    have hsix : x.length = 6 := h.1
    omega
  | false =>
    have hshort : x.length = 1 ∨ x.length = 2 := h.1
    omega

/-- A component is not read in part. -/
theorem IsComponent.length_le {hex : Bool} {x : CStr} (h : IsComponent hex x) (y : CStr) :
    x.length ≤ (colorComponent hex (x ++ y)).1 := by
  have hfit : x.length ≤ if hex then 6 else 2 := by
    cases hex with
    | true => exact h.1.le
    | false => exact h.1.elim (fun h1 ↦ h1.le.trans (by decide)) (·.le)
  rw [colorComponent_fst rfl, List.take_append, List.take_of_length_le hfit,
    List.takeWhile_append_of_pos h.digits, if_neg, List.length_append]
  · exact Nat.le_add_right _ _
  · rintro ⟨rfl, hne⟩
    have hsix : x.length = 6 := h.1
    simp [hsix] at hne

theorem IsComponent.colorComponent_comma {hex : Bool} {x : CStr} (h : IsComponent hex x)
    (y : CStr) : (colorComponent hex (x ++ comma :: y)).1 = x.length := by
  have hcomma : colorDigit hex comma = none := by cases hex <;> decide
  have hge := h.length_le []
  rw [List.append_nil] at hge
  rw [colorComponent_append hcomma]
  exact Nat.le_antisymm (colorComponent_le hex x) hge

/-- What is read is a component. -/
theorem isComponent_take {hex : Bool} {p : CStr} (h : (colorComponent hex p).1 ≠ 0) :
    IsComponent hex (p.take (colorComponent hex p).1) := by
  obtain ⟨digits, hdigits⟩ : ∃ digits, (p.take (if hex then 6 else 2)).takeWhile
    (fun c ↦ (colorDigit hex c).isSome) = digits := ⟨_, rfl⟩
  have hprefix : digits <+: p := hdigits ▸ (List.takeWhile_prefix _).trans (List.take_prefix _ _)
  have hlength : digits.length ≤ if hex then 6 else 2 := by
    rw [← hdigits]
    exact (List.takeWhile_sublist _).length_le.trans (List.length_take_le _ _)
  have hall : ∀ c ∈ digits, (if hex then isxdigit c else isdigit c) = true := by
    intro c hc
    rw [← hdigits] at hc
    rw [← colorDigit_isSome]
    exact List.mem_takeWhile_imp (p := fun c ↦ (colorDigit hex c).isSome) hc
  rw [colorComponent_fst hdigits] at h ⊢
  have hfull : ¬(hex = true ∧ digits.length ≠ 6) := fun hshort ↦ h (if_pos hshort)
  rw [if_neg hfull] at h ⊢
  rw [← List.prefix_iff_eq_take.mp hprefix, IsComponent]
  cases hex with
  | true => exact ⟨by simpa using hfull, hall⟩
  | false =>
    refine ⟨?_, hall⟩
    simp only [Bool.false_eq_true, if_false] at hlength
    omega

/-! ## The longest code -/

theorem colorControl_inj {hex hex' : Bool} (h : colorControl hex = colorControl hex') :
    hex = hex' := by
  cases hex <;> cases hex' <;> first | rfl | cases h

/-- How many bytes a colour takes. -/
theorem ircColorParse_fst (hex : Bool) (s : CStr) : (ircColorParse (colorControl hex :: s)).1 =
    if (colorComponent hex s).1 = 0 then 1
    else if (colorBackground hex (s.drop (colorComponent hex s).1)).1 = 0 then
      1 + (colorComponent hex s).1
    else 1 + (colorComponent hex s).1 +
      (1 + (colorBackground hex (s.drop (colorComponent hex s).1)).1) := by
  have hcontrol : ¬(colorControl hex ≠ 0x03 ∧ colorControl hex ≠ 0x04) := by cases hex <;> decide
  have hhex : decide (colorControl hex = 0x04) = hex := by cases hex <;> decide
  rw [ircColorParse, if_neg hcontrol, hhex]
  simp only [apply_ite Prod.fst]

theorem take_background (c : UInt8) (x q : CStr) (n : ℕ) :
    (c :: (x ++ comma :: q)).take (1 + x.length + (1 + n)) = c :: (x ++ comma :: q.take n) := by
  rw [show 1 + x.length + (1 + n) = x.length + (n + 1) + 1 by omega, List.take_succ_cons,
    List.take_length_add_append, List.take_succ_cons]

/-- What `irc_color_parse` takes is a code. -/
theorem isFormattingCode_take (hex : Bool) (s : CStr) : IsFormattingCode
    ((colorControl hex :: s).take (ircColorParse (colorControl hex :: s)).1) := by
  rw [ircColorParse_fst]
  by_cases hfg : (colorComponent hex s).1 = 0
  · rw [if_pos hfg]
    exact .reset hex
  rw [if_neg hfg]
  have hforeground := isComponent_take hfg
  by_cases hbg : (colorBackground hex (s.drop (colorComponent hex s).1)).1 = 0
  · rw [if_pos hbg, Nat.add_comm, List.take_succ_cons]
    exact .foreground hforeground
  · rw [if_neg hbg]
    rw [colorBackground] at hbg ⊢
    split_ifs at hbg ⊢ with hcomma
    · obtain ⟨q, hq⟩ := List.head?_eq_some_iff.mp hcomma
      rw [hq, List.drop_one, List.tail_cons] at hbg ⊢
      have htake := take_background (colorControl hex) (s.take (colorComponent hex s).1) q
        (colorComponent hex q).1
      rw [← hq, List.take_append_drop, List.length_take_of_le (colorComponent_le hex s)] at htake
      rw [htake]
      exact .background hforeground (isComponent_take hbg)
    · exact absurd rfl hbg

/-- No code is longer than what `irc_color_parse` takes. -/
theorem IsFormattingCode.length_le {code : CStr} (h : IsFormattingCode code) {hex : Bool}
    {s : CStr} (hstart : code <+: colorControl hex :: s) :
    code.length ≤ (ircColorParse (colorControl hex :: s)).1 := by
  rw [ircColorParse_fst]
  cases h with
  | style =>
    rw [List.length_singleton]
    split_ifs <;> omega
  | reset =>
    rw [List.length_singleton]
    split_ifs <;> omega
  | foreground hfg =>
    rw [List.cons_prefix_cons] at hstart
    obtain ⟨hcontrol, y, rfl⟩ := hstart
    obtain rfl := colorControl_inj hcontrol
    have hle := hfg.length_le y
    rw [List.length_cons]
    split_ifs <;> omega
  | @background _ fg bg hfg hbg =>
    rw [List.cons_prefix_cons] at hstart
    obtain ⟨hcontrol, y, rfl⟩ := hstart
    obtain rfl := colorControl_inj hcontrol
    rw [List.append_assoc, List.cons_append, hfg.colorComponent_comma, List.drop_left]
    have hle := hbg.length_le y
    have hpos : fg.length ≠ 0 ∧ bg.length ≠ 0 := ⟨hfg.length_ne_zero, hbg.length_ne_zero⟩
    simp only [colorBackground, List.head?_cons, if_true, List.drop_one, List.tail_cons]
    rw [if_neg hpos.1, if_neg (by omega), List.length_cons, List.length_append, List.length_cons]
    omega

/-- **A colour is cut where it is longest.** -/
theorem longest_ircColorParse (hex : Bool) (s : CStr) : Longest IsFormattingCode
    ((colorControl hex :: s).take (ircColorParse (colorControl hex :: s)).1)
    ((colorControl hex :: s).drop (ircColorParse (colorControl hex :: s)).1) := by
  refine ⟨isFormattingCode_take hex s, fun code hcode hprefix ↦ ?_⟩
  rw [List.take_append_drop] at hprefix
  rw [List.length_take_of_le (ircColorParse_le _ s)]
  exact hcode.length_le hprefix

/-- A control that is no colour is a code on its own. -/
theorem longest_style {c : UInt8} (hcolor : ¬(c = 0x03 ∨ c = 0x04)) (hc : isIrcControl c = true)
    (s : CStr) : Longest IsFormattingCode [c] s := by
  refine ⟨.style ?_, fun code hcode hprefix ↦ ?_⟩
  · rcases (isIrcControl_cases hcolor).mp hc with rfl | rfl | rfl | rfl | rfl | rfl | rfl <;> decide
  · have hne : ∀ hex, colorControl hex ≠ c := by
      rintro (_ | _) rfl
      · exact hcolor (.inl rfl)
      · exact hcolor (.inr rfl)
    cases hcode with
    | style => exact le_rfl
    | reset => exact le_rfl
    | foreground => exact absurd (List.cons_prefix_cons.mp hprefix).1 (hne _)
    | background => exact absurd (List.cons_prefix_cons.mp hprefix).1 (hne _)

theorem longest_afterCode {c : UInt8} (s : CStr) (hc : isIrcControl c = true) :
    ∃ code, c :: s = code ++ afterCode c s ∧ Longest IsFormattingCode code (afterCode c s) := by
  rw [afterCode]
  by_cases hcolor : c = 0x03 ∨ c = 0x04
  · obtain ⟨hex, rfl⟩ : ∃ hex, c = colorControl hex :=
      hcolor.elim (fun h ↦ ⟨false, h⟩) fun h ↦ ⟨true, h⟩
    obtain ⟨n, hn⟩ : ∃ n, (ircColorParse (colorControl hex :: s)).1 = n + 1 :=
      ⟨_, (Nat.sub_add_cancel (ircColorParse_pos s hcolor)).symm⟩
    have hlongest := longest_ircColorParse hex s
    rw [hn, List.drop_succ_cons] at hlongest
    rw [if_pos hcolor, hn, Nat.add_sub_cancel]
    refine ⟨_, ?_, hlongest⟩
    rw [List.take_succ_cons, List.cons_append, List.take_append_drop]
  · rw [if_neg hcolor]
    exact ⟨[c], rfl, longest_style hcolor hc s⟩

/-! ## Both functions -/

/-- **`strip_mirc_formatting` removes the codes**, and nothing else. -/
theorem removed_stripMircFormatting (s : CStr) :
    Removed IsFormattingCode IsPlain s (stripMircFormatting s) := by
  induction s using code_induction with
  | nil =>
    rw [stripMircFormatting_nil]
    exact .nil
  | code c s hc ih =>
    obtain ⟨code, hsplit, hlongest⟩ := longest_afterCode s hc
    rw [stripMircFormatting_code s hc, hsplit]
    exact .skip hlongest ih
  | byte c s hc ih =>
    rw [stripMircFormatting_byte s hc]
    exact .keep hc ih

/-- There is nothing else that is left of a text without its codes. -/
theorem removed_iff {s t : CStr} :
    Removed IsFormattingCode IsPlain s t ↔ t = stripMircFormatting s := by
  refine ⟨fun h ↦ h.unique ?_ (removed_stripMircFormatting s),
    fun h ↦ h ▸ removed_stripMircFormatting s⟩
  intro code hcode
  have hcontrol : ∀ hex, ¬ IsPlain (colorControl hex) := by
    intro hex
    cases hex <;> exact Bool.noConfusion
  cases hcode with
  | @style c hc =>
    refine ⟨c, [], rfl, fun hplain ↦ ?_⟩
    rw [IsPlain] at hplain
    revert c
    decide
  | reset hex => exact ⟨_, _, rfl, hcontrol hex⟩
  | foreground => exact ⟨_, _, rfl, hcontrol _⟩
  | background => exact ⟨_, _, rfl, hcontrol _⟩

theorem stripMircFormatting_plain {s : CStr} (hs : ∀ c ∈ s, isIrcControl c = false) :
    stripMircFormatting s = s := by
  induction s with
  | nil => exact stripMircFormatting_nil
  | cons c s ih =>
    rw [stripMircFormatting_byte s (hs c List.mem_cons_self),
      ih fun c hc ↦ hs c (List.mem_cons_of_mem _ hc)]

/-- What was written for the codes is dropped again. -/
theorem colorizeLoop_escapes {x : CStr} (hx : IsEscapes x) (s : CStr) :
    colorizeLoop true false (x ++ s) = colorizeLoop true false s := by
  induction hx with
  | nil => rfl
  | cons hparams _ ih =>
    rw [List.append_assoc, colorizeLoop_sgr hparams, if_neg Bool.false_ne_true, ih]
    rfl

/-- The escape sequences of a converted text are those of its codes. -/
theorem colorizeLoop_ircLoop {s : CStr} (hesc : esc ∉ s) (hbrace : lbrace ∉ s)
    (style : IrcStyle) : colorizeLoop true false (ircLoop style s) = stripMircFormatting s := by
  induction s using code_induction generalizing style with
  | nil => rw [ircLoop_nil, colorizeLoop_nil, stripMircFormatting_nil]
  | code c s hc ih =>
    rw [ircLoop_code, colorizeLoop_escapes (isEscapes_codeText style s hc),
      stripMircFormatting_code s hc]
    exact ih (fun h ↦ hesc (List.mem_cons_of_mem _ (mem_of_mem_afterCode h)))
      (fun h ↦ hbrace (List.mem_cons_of_mem _ (mem_of_mem_afterCode h))) _
  | byte c s hc ih =>
    rw [List.mem_cons, not_or] at hesc hbrace
    rw [ircLoop_byte style s hc, colorizeLoop_byte (Ne.symm hesc.1) (Ne.symm hbrace.1),
      stripMircFormatting_byte s hc, ih hesc.2 hbrace.2]

theorem colorizeLoop_plain {convertedIrc colors : Bool} {s : CStr} (hesc : esc ∉ s)
    (hbrace : lbrace ∉ s) : colorizeLoop convertedIrc colors s = s := by
  induction s with
  | nil => exact colorizeLoop_nil _ _
  | cons c s ih =>
    rw [List.mem_cons, not_or] at hesc hbrace
    rw [colorizeLoop_byte (Ne.symm hesc.1) (Ne.symm hbrace.1), ih hesc.2 hbrace.2]

/-- **Without colours, `tui_colorize_string` strips the text**: no control is left, and every byte
that is in no code is. -/
theorem tuiColorizeString_eq_stripMircFormatting (s : CStr) (hesc : esc ∉ s)
    (hbrace : lbrace ∉ s) :
    tuiColorizeString false s = stripMircFormatting s ∧
      (∀ c ∈ stripMircFormatting s, isIrcControl c = false) ∧
      ∀ t, Removed IsFormattingCode IsPlain s t ↔ t = stripMircFormatting s := by
  refine ⟨?_, (removed_stripMircFormatting s).forall_plain, fun _ ↦ removed_iff⟩
  rw [tuiColorizeString]
  cases hconverted : s.any isIrcControl with
  | true => exact colorizeLoop_ircLoop hesc hbrace _
  | false =>
    have hplain : ∀ c ∈ s, isIrcControl c = false := by
      simpa [List.any_eq_false] using hconverted
    rw [stripMircFormatting_plain hplain]
    exact colorizeLoop_plain hesc hbrace

/-- A colour, the end of all styles, and an underlined word. -/
def radioText : CStr :=
  0x04 :: lit "aabbccRadio" ++ 0x0f :: lit " " ++ 0x1f :: lit "text" ++ [0x1f]

theorem tuiColorizeString_radioText :
    tuiColorizeString false radioText = stripMircFormatting radioText ∧
      (∀ c ∈ stripMircFormatting radioText, isIrcControl c = false) ∧
      ∀ t, Removed IsFormattingCode IsPlain radioText t ↔ t = stripMircFormatting radioText :=
  tuiColorizeString_eq_stripMircFormatting radioText (by decide +kernel) (by decide +kernel)

example : stripMircFormatting radioText = lit "Radio text" := by decide +kernel

end Rustyaxe
