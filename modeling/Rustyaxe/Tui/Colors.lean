import Rustyaxe.Tui.Formatting
import Rustyaxe.Tui.Rows

/-!
# Titles

`tui_colorize_string` of `tui.theme.c`, and `visible_length` of `util.string.c`, with which
`tui_update_input_line` places the cursor behind a title.

A title is cut at its braces (`titlePieces`).  The two functions differ by what each piece adds to
the bytes that are counted but not drawn, and to those that are drawn but not counted.
-/

set_option autoImplicit false

namespace Rustyaxe

/-! ## The code -/

/-- The tags of `ansi_table`, and the parameters in their codes. -/
def ansiParams : List (String × String) :=
  [("reset", "0"), ("bold", "1"), ("dim", "2"), ("italic", "3"), ("underline", "4"), ("blink", "5"),
    ("reverse", "7"), ("hidden", "8"), ("strike", "9"), ("bold-off", "22"), ("dim-off", "22"),
    ("italic-off", "23"), ("underline-off", "24"), ("blink-off", "25"), ("reverse-off", "27"),
    ("hidden-off", "28"), ("strike-off", "29")]

/-- `ansi_table` -/
def ansiTable : List (CStr × CStr) :=
  ansiParams.map fun (tag, params) ↦ (lit tag, sgr (lit params))

/-- `ansi_code` -/
def ansiCode (tag : CStr) : Option CStr := (ansiTable.find? fun entry ↦ tag == entry.1).map (·.2)

/-- The loop of `tui_colorize_string`. -/
def colorizeLoop (convertedIrc colors : Bool) (p : CStr) : CStr :=
  match p with
  | [] => []
  | c :: s =>
    if c = esc then
      if s.head? = some lbracket then
        let rest := ((s.drop 1).dropWhile (!isalpha ·)).drop 1
        (if convertedIrc && colors then upTo (c :: s) rest else []) ++
          colorizeLoop convertedIrc colors rest
      else colorizeLoop convertedIrc colors s
    else if c = lbrace then
      match strchr rbrace (c :: s) with
      | none => c :: colorizeLoop convertedIrc colors s
      | some close =>
        let key := (s.take (close - 1)).take 63
        match ansiCode key with
        | some code =>
          (if colors then code else []) ++
            colorizeLoop convertedIrc colors ((c :: s).drop (close + 1))
        | none => c :: colorizeLoop convertedIrc colors s
    else c :: colorizeLoop convertedIrc colors s
termination_by p.length
decreasing_by
  · have hrest := (List.dropWhile_sublist (l := s.drop 1) (!isalpha ·)).length_le
    simp only [List.length_drop, List.length_cons] at *
    omega
  · simp
  · simp
  · simp only [List.length_drop, List.length_cons]
    omega
  · simp
  · simp

/-- `tui_colorize_string`, where there is memory for its result. -/
def tuiColorizeString (colors : Bool) (input : CStr) : CStr :=
  let convertedIrc := input.any isIrcControl
  colorizeLoop convertedIrc colors (if convertedIrc then ircToTuiColors input else input)

/-- `visible_length` -/
def visibleLength (p : CStr) : ℕ :=
  match p with
  | [] => 0
  | c :: s =>
    if c = esc ∧ s.head? = some lbracket then
      visibleLength (((s.drop 1).dropWhile (· ≠ 0x6d)).drop 1)
    else if c = lbrace then visibleLength (s.dropWhile (· ≠ rbrace))
    else visibleLength s + 1
termination_by p.length
decreasing_by
  · have hrest := (List.dropWhile_sublist (l := s.drop 1) (· ≠ 0x6d)).length_le
    simp only [List.length_drop, List.length_cons] at *
    omega
  · exact Nat.lt_succ_of_le (List.dropWhile_sublist _).length_le
  · simp

/-! ## What is asked for -/

/-- The bytes of a text outside its escape sequences. -/
def outsideEscapes (s : CStr) : ℕ :=
  match s with
  | [] => 0
  | c :: s =>
    if c = esc ∧ s.head? = some lbracket then outsideEscapes (afterEscape (s.drop 1))
    else outsideEscapes s + 1
termination_by s.length
decreasing_by
  · have := length_afterEscape_le (s.drop 1)
    simp only [List.length_drop, List.length_cons] at *
    omega
  · simp

/-- Braces around nothing but a known tag. -/
def isTag (body : CStr) : Bool := (ansiCode (body.filter (· ≠ 0x11))).isSome

/-- A piece of a title: up to a brace, in braces, or behind a brace that is not closed. -/
inductive TitlePiece where
  | text (s : CStr)
  | group (body : CStr)
  | unclosed (s : CStr)

/-- The pieces of a title. -/
def titlePieces (t : CStr) : List TitlePiece :=
  if lbrace ∈ t then
    let s := (t.dropWhile (· ≠ lbrace)).drop 1
    if rbrace ∈ s then
      .text (t.takeWhile (· ≠ lbrace)) :: .group (s.takeWhile (· ≠ rbrace)) ::
        titlePieces ((s.dropWhile (· ≠ rbrace)).drop 1)
    else [.text (t.takeWhile (· ≠ lbrace)), .unclosed s]
  else [.text t]
termination_by t.length
decreasing_by
  rename_i hmem _
  have hpos := List.length_pos_of_mem hmem
  have hopen := (List.dropWhile_sublist (l := t) (· ≠ lbrace)).length_le
  have hclose := (List.dropWhile_sublist
    (l := (t.dropWhile (· ≠ lbrace)).drop 1) (· ≠ rbrace)).length_le
  simp only [List.length_drop] at *
  omega

/-- The bytes of a piece that are counted but not drawn: those of its codes, and the closing brace
of a known tag. -/
def TitlePiece.undrawn : TitlePiece → ℕ
  | text s => s.length - (stripMircFormatting s).length
  | group body => if isTag body then 1 else 0
  | unclosed _ => 0

/-- The bytes of a piece that are drawn but not counted: those of braces that are not a known tag,
but for the closing brace, or up to a known tag in them. -/
def TitlePiece.uncounted : TitlePiece → ℕ
  | text _ => 0
  | group body =>
    if isTag body then 0
    else
      match strrchr lbrace body with
      | some n =>
        if isTag (body.drop (n + 1)) then (stripMircFormatting (body.take n)).length
        else (stripMircFormatting body).length + 1
      | none => (stripMircFormatting body).length + 1
  | unclosed s => (stripMircFormatting s).length + 1

/-- As many bytes of a title are counted but not drawn as are drawn but not counted. -/
def Balanced (title : CStr) : Prop :=
  ((titlePieces title).map TitlePiece.undrawn).sum =
    ((titlePieces title).map TitlePiece.uncounted).sum

/-! ## Tags -/

theorem ansiParams_spec : ∀ entry ∈ ansiParams, (lit entry.1).length < 63 ∧
    (∀ c ∈ lit entry.2, isParam c = true) ∧
    ∀ c ∈ lit entry.1, c ≠ lbrace ∧ c ≠ esc ∧ isIrcControl c = false := by
  decide +kernel

theorem ansiCode_spec {tag code : CStr} (h : ansiCode tag = some code) :
    tag.length < 63 ∧ IsEscapes code ∧
      ∀ c ∈ tag, c ≠ lbrace ∧ c ≠ esc ∧ isIrcControl c = false := by
  obtain ⟨entry, hfind, rfl⟩ := Option.map_eq_some_iff.mp h
  obtain ⟨⟨name, params⟩, hmem, rfl⟩ := List.mem_map.mp (List.mem_of_find?_eq_some hfind)
  have hbeq := List.find?_some hfind
  obtain rfl : tag = lit name := beq_iff_eq.mp hbeq
  obtain ⟨hlength, hparams, hchars⟩ := ansiParams_spec _ hmem
  exact ⟨hlength, .of_params hparams, hchars⟩

/-- A key with a byte that is in no tag is not one, however it is cut. -/
theorem ansiCode_take_eq_none {b : UInt8} {x : CStr} (hb : b ∈ x)
    (hbyte : b = lbrace ∨ b = esc) : ansiCode (x.take 63) = none := by
  by_contra hne
  obtain ⟨code, hcode⟩ := Option.ne_none_iff_exists'.mp hne
  obtain ⟨hlength, -, hchars⟩ := ansiCode_spec hcode
  rw [List.length_take] at hlength
  rw [List.take_of_length_le (by omega)] at hchars
  rcases hbyte with rfl | rfl
  · exact (hchars _ hb).1 rfl
  · exact (hchars _ hb).2.1 rfl

/-! ## Escape sequences -/

theorem dropWhile_params {p : UInt8 → Bool} (hparam : ∀ c, isParam c = true → p c = true)
    (hm : p 0x6d = false) {params : CStr} (hparams : ∀ c ∈ params, isParam c = true) (out : CStr) :
    ((params ++ [0x6d] ++ out).dropWhile p).drop 1 = out := by
  rw [List.append_assoc, List.dropWhile_append_of_pos fun c hc ↦ hparam c (hparams c hc),
    List.singleton_append, List.dropWhile_cons_of_neg (by simp [hm])]
  rfl

theorem outsideEscapes_nil : outsideEscapes [] = 0 := by rw [outsideEscapes]

theorem outsideEscapes_byte {c : UInt8} (hc : c ≠ esc) (s : CStr) :
    outsideEscapes (c :: s) = outsideEscapes s + 1 := by
  rw [outsideEscapes, if_neg fun h ↦ hc h.1]

theorem outsideEscapes_sgr {params : CStr} (hparams : ∀ c ∈ params, isParam c = true) (s : CStr) :
    outsideEscapes (sgr params ++ s) = outsideEscapes s := by
  have hafter : afterEscape (params ++ [0x6d] ++ s) = s :=
    dropWhile_params (forall_byte (by decide +kernel)) (by decide) hparams s
  rw [sgr, List.cons_append, List.cons_append, outsideEscapes, if_pos ⟨rfl, rfl⟩, List.drop_one,
    List.tail_cons, hafter]

theorem outsideEscapes_escapes {x : CStr} (hx : IsEscapes x) (s : CStr) :
    outsideEscapes (x ++ s) = outsideEscapes s := by
  induction hx with
  | nil => rfl
  | cons hparams _ ih => rw [List.append_assoc, outsideEscapes_sgr hparams, ih]

/-- What is drawn for a text is what is left if it is stripped. -/
theorem outsideEscapes_ircLoop {x : CStr} (hx : esc ∉ x) (style : IrcStyle) (s : CStr) :
    outsideEscapes (ircLoop style x ++ s) =
      (stripMircFormatting x).length + outsideEscapes s := by
  induction x using code_induction generalizing style with
  | nil => rw [ircLoop_nil, stripMircFormatting_nil, List.nil_append, List.length_nil, Nat.zero_add]
  | code c x hc ih =>
    rw [ircLoop_code, List.append_assoc, outsideEscapes_escapes (isEscapes_codeText style x hc),
      ih (fun h ↦ hx (List.mem_cons_of_mem _ (mem_of_mem_afterCode h))),
      stripMircFormatting_code x hc]
  | byte c x hc ih =>
    rw [ircLoop_byte style x hc, List.cons_append,
      outsideEscapes_byte (fun h ↦ hx (h ▸ List.mem_cons_self)),
      ih (fun h ↦ hx (List.mem_cons_of_mem _ h)), stripMircFormatting_byte x hc, List.length_cons]
    omega

/-! ## The loop over a rendered text -/

theorem colorizeLoop_nil (convertedIrc colors : Bool) : colorizeLoop convertedIrc colors [] = [] := by
  rw [colorizeLoop]

theorem colorizeLoop_byte {convertedIrc colors : Bool} {c : UInt8} (hc : c ≠ esc)
    (hbrace : c ≠ lbrace) (s : CStr) : colorizeLoop convertedIrc colors (c :: s) =
      c :: colorizeLoop convertedIrc colors s := by
  rw [colorizeLoop, if_neg hc, if_neg hbrace]

theorem upTo_append (x s : CStr) : upTo (x ++ s) s = x := by
  rw [upTo, List.length_append, Nat.add_sub_cancel]
  exact List.take_left

/-- The codes that were written are kept, if there are to be colours. -/
theorem colorizeLoop_sgr {params : CStr} (hparams : ∀ c ∈ params, isParam c = true)
    (colors : Bool) (s : CStr) : colorizeLoop true colors (sgr params ++ s) =
      (if colors then sgr params else []) ++ colorizeLoop true colors s := by
  have hafter : ((params ++ [0x6d] ++ s).dropWhile (!isalpha ·)).drop 1 = s :=
    dropWhile_params (forall_byte (by decide +kernel)) (by decide) hparams s
  have hupTo : upTo (esc :: lbracket :: (params ++ [0x6d] ++ s)) s = sgr params :=
    upTo_append (sgr params) s
  rw [sgr, List.cons_append, List.cons_append, colorizeLoop, if_pos rfl, List.head?_cons,
    if_pos rfl]
  simp only [List.drop_one, List.tail_cons] at hafter ⊢
  rw [hafter, hupTo]
  rfl

/-- A brace that is not closed. -/
theorem colorizeLoop_unclosed {convertedIrc : Bool} {s : CStr} (hs : rbrace ∉ s) :
    colorizeLoop convertedIrc true (lbrace :: s) =
      lbrace :: colorizeLoop convertedIrc true s := by
  have hnone : strchr rbrace (lbrace :: s) = none :=
    if_neg fun h ↦ (List.mem_cons.mp h).elim (by decide) hs
  rw [colorizeLoop, if_neg (by decide), if_pos rfl, hnone]

/-- The key of a brace that is closed. -/
theorem colorizeLoop_group {convertedIrc : Bool} {key s : CStr} (hkey : rbrace ∉ key) :
    colorizeLoop convertedIrc true (lbrace :: (key ++ rbrace :: s)) =
      match ansiCode (key.take 63) with
      | some code => code ++ colorizeLoop convertedIrc true s
      | none => lbrace :: colorizeLoop convertedIrc true (key ++ rbrace :: s) := by
  have hclose : strchr rbrace (lbrace :: (key ++ rbrace :: s)) = some (key.length + 1) :=
    strchr_append (s := lbrace :: key)
      (fun h ↦ (List.mem_cons.mp h).elim (by decide) hkey) s
  have htake : (key ++ rbrace :: s).take (key.length + 1 - 1) = key := List.take_left' rfl
  have hdrop : (lbrace :: (key ++ rbrace :: s)).drop (key.length + 1 + 1) = s := by
    rw [List.drop_succ_cons, List.append_cons]
    exact List.drop_left' (by simp)
  rw [colorizeLoop, if_neg (by decide), if_pos rfl, hclose]
  simp only [htake, hdrop, if_true]

/-- **Text with braces that are no tags is kept.** -/
theorem colorizeLoop_rendered {out : CStr} (hout : IsRendered out) (rest : CStr)
    (hbrace : ∀ key, lbrace :: key <:+ out →
      colorizeLoop true true (lbrace :: (key ++ rest)) =
        lbrace :: colorizeLoop true true (key ++ rest)) :
    colorizeLoop true true (out ++ rest) = out ++ colorizeLoop true true rest := by
  induction hout with
  | nil => rfl
  | @byte c out hc _ ih =>
    have hrest := ih fun key hkey ↦ hbrace key (hkey.trans (List.suffix_cons c out))
    rw [List.cons_append, List.cons_append, ← hrest]
    by_cases hopen : c = lbrace
    · rw [hopen]
      exact hbrace out (hopen ▸ List.suffix_refl _)
    · exact colorizeLoop_byte hc hopen _
  | @sequence params out hparams _ ih =>
    rw [List.append_assoc, colorizeLoop_sgr hparams, if_pos rfl,
      ih fun key hkey ↦ hbrace key (hkey.trans (List.suffix_append _ _)), List.append_assoc]

/-! ## Braces and tags in a converted text -/

/-- A brace. -/
def IsBrace (c : UInt8) : Prop := c = lbrace ∨ c = rbrace

theorem IsBrace.endsColor {b : UInt8} (hb : IsBrace b) : EndsColor b := by
  rcases hb with rfl | rfl
  · exact ⟨by decide, by decide⟩
  · exact ⟨by decide, by decide⟩

theorem IsBrace.not_control {b : UInt8} (hb : IsBrace b) : isIrcControl b = false := by
  rcases hb with rfl | rfl <;> decide

theorem not_isParam_brace {b : UInt8} (hb : IsBrace b) : isParam b = false := by
  rcases hb with rfl | rfl <;> decide

theorem brace_notMem_escapes {b : UInt8} (hb : IsBrace b) {x : CStr} (hx : IsEscapes x) :
    b ∉ x := by
  induction hx with
  | nil => exact List.not_mem_nil
  | @cons params rest hparams _ ih =>
    have hother : b ≠ esc ∧ b ≠ lbracket ∧ b ≠ 0x6d := by
      rcases hb with rfl | rfl <;> decide
    intro hmem
    simp only [sgr, List.mem_append, List.mem_cons, List.cons_append, List.not_mem_nil,
      or_false] at hmem
    rcases hmem with hmem | hmem | (hmem | hmem) | hmem
    · exact hother.1 hmem
    · exact hother.2.1 hmem
    · exact absurd (hparams b hmem) (by rw [not_isParam_brace hb]; decide)
    · exact hother.2.2 hmem
    · exact ih hmem

/-- No brace is added. -/
theorem brace_mem_ircLoop {b : UInt8} (hb : IsBrace b) {x : CStr} {style : IrcStyle}
    (h : b ∈ ircLoop style x) : b ∈ x := by
  induction x using code_induction generalizing style with
  | nil => rwa [ircLoop_nil] at h
  | code c s hc ih =>
    rw [ircLoop_code] at h
    rcases List.mem_append.mp h with h | h
    · exact absurd h (brace_notMem_escapes hb (isEscapes_codeText style s hc))
    · exact List.mem_cons_of_mem _ (mem_of_mem_afterCode (ih h))
  | byte c s hc ih =>
    rw [ircLoop_byte style s hc] at h
    rcases List.mem_cons.mp h with rfl | h
    · exact List.mem_cons_self
    · exact List.mem_cons_of_mem _ (ih h)

/-- Every code but one is written as an escape sequence. -/
theorem esc_mem_codeText (style : IrcStyle) {c : UInt8} (s : CStr) (hc : isIrcControl c = true)
    (hmono : c ≠ 0x11) : esc ∈ codeText style c s := by
  rw [codeText]
  split_ifs with hcolor
  · rw [ircColorText]
    split_ifs
    · exact List.mem_cons_self
    · exact List.mem_append_left _ List.mem_cons_self
    · exact List.mem_append_left _ List.mem_cons_self
  · rcases (isIrcControl_cases hcolor).mp hc with rfl | rfl | rfl | rfl | rfl | rfl | rfl
    all_goals first
      | exact List.mem_cons_self
      | exact absurd rfl hmono

theorem ircLoop_mono (style : IrcStyle) (s : CStr) :
    ircLoop style (0x11 :: s) = ircLoop style s := by
  rw [ircLoop_code]
  rfl

/-- Text without codes, but for those that are not written, is written as it is. -/
theorem ircLoop_eq_filter {x : CStr} (hx : ∀ c ∈ x, c = 0x11 ∨ isIrcControl c = false)
    (style : IrcStyle) : ircLoop style x = x.filter (· ≠ 0x11) := by
  induction x with
  | nil => exact ircLoop_nil style
  | cons c x ih =>
    have hrest := ih fun c hc ↦ hx c (List.mem_cons_of_mem _ hc)
    by_cases hmono : c = 0x11
    · rw [hmono, ircLoop_mono, hrest, List.filter_cons_of_neg (by decide)]
    · rw [ircLoop_byte style x ((hx c List.mem_cons_self).resolve_left hmono), hrest,
        List.filter_cons_of_pos (by simpa using hmono)]

theorem not_control_of_esc_notMem {x : CStr} {style : IrcStyle} (h : esc ∉ ircLoop style x) :
    ∀ c ∈ x, c = 0x11 ∨ isIrcControl c = false := by
  induction x using code_induction generalizing style with
  | nil => exact fun c hc ↦ absurd hc List.not_mem_nil
  | code c s hc ih =>
    obtain rfl : c = 0x11 := by
      by_contra hmono
      rw [ircLoop_code] at h
      exact h (List.mem_append_left _ (esc_mem_codeText style s hc hmono))
    rw [ircLoop_mono] at h
    exact List.forall_mem_cons.mpr ⟨.inl rfl, ih h⟩
  | byte c s hc ih =>
    rw [ircLoop_byte style s hc] at h
    exact List.forall_mem_cons.mpr ⟨.inr hc, ih fun hmem ↦ h (List.mem_cons_of_mem _ hmem)⟩

/-- The key of a tag, with and without its codes. -/
theorem ansiCode_ircLoop (x : CStr) (style : IrcStyle) :
    (ansiCode ((ircLoop style x).take 63)).isSome = isTag x := by
  rw [isTag, Bool.eq_iff_iff]
  constructor
  · intro h
    obtain ⟨code, hcode⟩ := Option.isSome_iff_exists.mp h
    have hesc : esc ∉ ircLoop style x := by
      intro hmem
      rw [ansiCode_take_eq_none hmem (.inr rfl)] at hcode
      exact absurd hcode nofun
    have hlength := (ansiCode_spec hcode).1
    rw [List.length_take] at hlength
    rw [List.take_of_length_le (by omega)] at h
    rwa [← ircLoop_eq_filter (not_control_of_esc_notMem hesc) style]
  · intro h
    obtain ⟨code, hcode⟩ := Option.isSome_iff_exists.mp h
    obtain ⟨hlength, -, hchars⟩ := ansiCode_spec hcode
    have hplain : ∀ c ∈ x, c = 0x11 ∨ isIrcControl c = false := by
      intro c hc
      by_cases hmono : c = 0x11
      · exact .inl hmono
      · exact .inr (hchars c (List.mem_filter.mpr ⟨hc, decide_eq_true hmono⟩)).2.2
    rw [ircLoop_eq_filter hplain, List.take_of_length_le (by omega)]
    exact h

/-! ## The pieces of what is drawn -/

/-- What is drawn for the text up to a brace. -/
theorem outside_text {x : CStr} (hesc : esc ∉ x) (hx : lbrace ∉ x) (style : IrcStyle)
    (rest : CStr) : outsideEscapes (colorizeLoop true true (ircLoop style x ++ rest)) =
      (stripMircFormatting x).length + outsideEscapes (colorizeLoop true true rest) := by
  rw [colorizeLoop_rendered (isRendered_ircLoop hesc style) rest, outsideEscapes_ircLoop hesc]
  intro key hkey
  exact absurd (brace_mem_ircLoop (.inl rfl) (hkey.subset List.mem_cons_self)) hx

/-- What is drawn behind a brace that is not closed. -/
theorem outside_unclosed {s : CStr} (hesc : esc ∉ s) (hs : rbrace ∉ s) (style : IrcStyle) :
    outsideEscapes (colorizeLoop true true (lbrace :: ircLoop style s)) =
      (stripMircFormatting s).length + 1 := by
  have hclose : rbrace ∉ ircLoop style s := fun h ↦ hs (brace_mem_ircLoop (.inr rfl) h)
  have hloop := colorizeLoop_rendered (isRendered_ircLoop hesc style) []
    fun key hkey ↦ by
      rw [List.append_nil]
      exact colorizeLoop_unclosed fun h ↦
        hclose (hkey.subset (List.mem_cons_of_mem _ h))
  rw [colorizeLoop_unclosed hclose, outsideEscapes_byte (by decide)]
  rw [List.append_nil, colorizeLoop_nil] at hloop
  rw [hloop, outsideEscapes_ircLoop hesc, outsideEscapes_nil, Nat.add_zero]

/-- What is drawn for a known tag. -/
theorem outside_tag {body : CStr} (hbody : rbrace ∉ body) (htag : isTag body = true)
    (style : IrcStyle) (rest : CStr) :
    outsideEscapes (colorizeLoop true true (lbrace :: (ircLoop style body ++ rbrace :: rest))) =
      outsideEscapes (colorizeLoop true true rest) := by
  have hclose : rbrace ∉ ircLoop style body := fun h ↦ hbody (brace_mem_ircLoop (.inr rfl) h)
  rw [← ansiCode_ircLoop body style] at htag
  obtain ⟨code, hcode⟩ := Option.isSome_iff_exists.mp htag
  rw [colorizeLoop_group hclose, hcode]
  exact outsideEscapes_escapes (ansiCode_spec hcode).2.1 _

/-- A brace that is closed, but not around a known tag. -/
theorem colorizeLoop_unknown (key : CStr) (hkey : rbrace ∉ key) (rest : CStr)
    (hnone : ansiCode (key.take 63) = none) :
    colorizeLoop true true (lbrace :: (key ++ rbrace :: rest)) =
      lbrace :: colorizeLoop true true (key ++ rbrace :: rest) := by
  rw [colorizeLoop_group hkey, hnone]

/-- The last brace of a text. -/
theorem eq_of_last_brace {key head tail : CStr} (hkey : lbrace ∉ key) (htail : lbrace ∉ tail)
    (h : lbrace :: key <:+ head ++ lbrace :: tail) : key = tail := by
  obtain ⟨before, hbefore⟩ := h
  have hlast := strrchr_append before hkey
  rw [hbefore, strrchr_append head htail] at hlast
  have hcons := (List.append_inj hbefore (Option.some.inj hlast).symm).2
  exact (List.cons.inj hcons).2

/-- What is drawn for braces without a known tag. -/
theorem outside_unknown {body : CStr} (hesc : esc ∉ body) (hbody : rbrace ∉ body)
    (htag : isTag body = false) (hlast : ∀ head tail, body = head ++ lbrace :: tail →
      lbrace ∉ tail → isTag tail = false) (style : IrcStyle) (rest : CStr) :
    outsideEscapes (colorizeLoop true true (lbrace :: (ircLoop style body ++ rbrace :: rest))) =
      (stripMircFormatting body).length + 2 + outsideEscapes (colorizeLoop true true rest) := by
  have hclose : rbrace ∉ ircLoop style body := fun h ↦ hbody (brace_mem_ircLoop (.inr rfl) h)
  have hnone {x : CStr} (hx : isTag x = false) (style : IrcStyle) :
      ansiCode ((ircLoop style x).take 63) = none := by
    rw [← ansiCode_ircLoop x style] at hx
    exact Option.not_isSome_iff_eq_none.mp (by rw [hx]; decide)
  have hkeep := colorizeLoop_rendered (isRendered_ircLoop hesc style) (rbrace :: rest)
    fun key hkey ↦ by
      refine colorizeLoop_unknown key
        (fun h ↦ hclose (hkey.subset (List.mem_cons_of_mem _ h))) rest ?_
      by_cases hnested : lbrace ∈ key
      · exact ansiCode_take_eq_none hnested (.inl rfl)
      · -- The innermost brace, and what was written for the text behind it.
        have hmem := brace_mem_ircLoop (.inl rfl) (hkey.subset List.mem_cons_self)
        obtain ⟨n, hn⟩ := Option.ne_none_iff_exists'.mp fun h ↦
          strrchr_eq_none_iff.mp h hmem
        obtain ⟨head, tail, hsplit, htail, -⟩ := strrchr_eq_some hn
        obtain ⟨style', hstyle⟩ := ircLoop_append (IsBrace.endsColor (.inl rfl))
          (IsBrace.not_control (.inl rfl)) head style
        rw [hsplit, hstyle] at hkey
        rw [eq_of_last_brace hnested (fun h ↦ htail (brace_mem_ircLoop (.inl rfl) h)) hkey]
        exact hnone (hlast head tail hsplit htail) style'
  rw [colorizeLoop_unknown _ hclose rest (hnone htag style), outsideEscapes_byte (by decide), hkeep,
    outsideEscapes_ircLoop hesc, colorizeLoop_byte (by decide) (by decide),
    outsideEscapes_byte (by decide)]
  omega

/-- What is drawn for braces with a known tag at their end. -/
theorem outside_nested {head tail : CStr} (hesc : esc ∉ head) (hhead : rbrace ∉ head)
    (htail : rbrace ∉ tail) (htag : isTag tail = true) (style : IrcStyle) (rest : CStr) :
    outsideEscapes (colorizeLoop true true
        (lbrace :: (ircLoop style (head ++ lbrace :: tail) ++ rbrace :: rest))) =
      (stripMircFormatting head).length + 1 + outsideEscapes (colorizeLoop true true rest) := by
  obtain ⟨style', hstyle⟩ := ircLoop_append (IsBrace.endsColor (.inl rfl))
    (IsBrace.not_control (.inl rfl)) head style
  have hopen {key : CStr} (hkey : rbrace ∉ key) :
      colorizeLoop true true
        (lbrace :: (key ++ lbrace :: (ircLoop style' tail ++ rbrace :: rest))) =
      lbrace :: colorizeLoop true true
        (key ++ lbrace :: (ircLoop style' tail ++ rbrace :: rest)) := by
    have hunknown := colorizeLoop_unknown (key ++ lbrace :: ircLoop style' tail) (by
      intro h
      rcases List.mem_append.mp h with h | h
      · exact hkey h
      · rcases List.mem_cons.mp h with h | h
        · exact absurd h (by decide)
        · exact htail (brace_mem_ircLoop (.inr rfl) h)) rest
      (ansiCode_take_eq_none (List.mem_append_right _ List.mem_cons_self) (.inl rfl))
    rwa [List.append_assoc, List.cons_append] at hunknown
  have hclose : rbrace ∉ ircLoop style head := fun h ↦ hhead (brace_mem_ircLoop (.inr rfl) h)
  rw [hstyle, List.append_assoc, List.cons_append, hopen hclose, outsideEscapes_byte (by decide),
    colorizeLoop_rendered (isRendered_ircLoop hesc style) _ fun key hkey ↦
      hopen fun h ↦ hclose (hkey.subset (List.mem_cons_of_mem _ h)),
    outsideEscapes_ircLoop hesc, outside_tag htail htag]
  omega

/-- **What is drawn for braces.** -/
theorem outside_group {body : CStr} (hesc : esc ∉ body) (hbody : rbrace ∉ body) (style : IrcStyle)
    (rest : CStr) :
    outsideEscapes (colorizeLoop true true (lbrace :: (ircLoop style body ++ rbrace :: rest))) +
        (TitlePiece.group body).undrawn =
      1 + (TitlePiece.group body).uncounted + outsideEscapes (colorizeLoop true true rest) := by
  cases htag : isTag body with
  | true =>
    rw [outside_tag hbody htag, TitlePiece.undrawn, TitlePiece.uncounted, if_pos htag, if_pos htag]
    omega
  | false =>
    have hneg : ¬isTag body = true := by rw [htag]; decide
    rw [TitlePiece.undrawn, TitlePiece.uncounted, if_neg hneg, if_neg hneg]
    cases hlast : strrchr lbrace body with
    | none =>
      rw [outside_unknown hesc hbody htag fun head tail hsplit _ ↦
        absurd (hsplit ▸ List.mem_append_right _ List.mem_cons_self)
          (strrchr_eq_none_iff.mp hlast)]
      simp only
      omega
    | some n =>
      obtain ⟨head, tail, rfl, htail, rfl⟩ := strrchr_eq_some hlast
      have hdrop : (head ++ lbrace :: tail).drop (head.length + 1) = tail := by
        rw [List.append_cons]
        exact List.drop_left' (by simp)
      simp only [hdrop, List.take_left]
      by_cases hnested : isTag tail = true
      · rw [if_pos hnested, outside_nested (fun h ↦ hesc (List.mem_append_left _ h))
          (fun h ↦ hbody (List.mem_append_left _ h))
          (fun h ↦ hbody (List.mem_append_right _ (List.mem_cons_of_mem _ h))) hnested]
        omega
      · have hunknown : ∀ head' tail', head ++ lbrace :: tail = head' ++ lbrace :: tail' →
            lbrace ∉ tail' → isTag tail' = false := by
          intro head' tail' hsplit htail'
          rw [eq_of_last_brace htail' htail (hsplit ▸ List.suffix_append head' _)]
          exact Bool.not_eq_true _ ▸ hnested
        rw [if_neg hnested, outside_unknown hesc hbody htag hunknown]
        omega

/-! ## The pieces of what is counted -/

theorem visibleLength_nil : visibleLength [] = 0 := by rw [visibleLength]

theorem visibleLength_text {x : CStr} (hesc : esc ∉ x) (hx : lbrace ∉ x) (rest : CStr) :
    visibleLength (x ++ rest) = x.length + visibleLength rest := by
  induction x with
  | nil => rw [List.nil_append, List.length_nil, Nat.zero_add]
  | cons c x ih =>
    have hne : ¬(c = esc ∧ (x ++ rest).head? = some lbracket) := fun h ↦
      hesc (h.1 ▸ List.mem_cons_self)
    have hbrace : c ≠ lbrace := fun h ↦ hx (h ▸ List.mem_cons_self)
    rw [List.cons_append, visibleLength, if_neg hne, if_neg hbrace,
      ih (fun h ↦ hesc (List.mem_cons_of_mem _ h)) (fun h ↦ hx (List.mem_cons_of_mem _ h)),
      List.length_cons]
    omega

/-- Of braces, the closing one is counted. -/
theorem visibleLength_group {body : CStr} (hbody : rbrace ∉ body) (rest : CStr) :
    visibleLength (lbrace :: (body ++ rbrace :: rest)) = 1 + visibleLength rest := by
  have hskip : (body ++ rbrace :: rest).dropWhile (· ≠ rbrace) = rbrace :: rest :=
    dropWhile_append_of_all (fun c hc ↦ decide_eq_true (ne_of_mem_of_not_mem hc hbody))
      (by simp)
  rw [visibleLength, if_neg (by simp [lbrace, esc]), if_pos rfl, hskip, visibleLength,
    if_neg (by simp [rbrace, esc]), if_neg (by decide), Nat.add_comm]

theorem visibleLength_unclosed {s : CStr} (hs : rbrace ∉ s) :
    visibleLength (lbrace :: s) = 0 := by
  have hskip : s.dropWhile (· ≠ rbrace) = [] :=
    List.dropWhile_eq_nil_iff.mpr fun c hc ↦ decide_eq_true (ne_of_mem_of_not_mem hc hs)
  rw [visibleLength, if_neg (by simp [lbrace, esc]), if_pos rfl, hskip, visibleLength_nil]

/-! ## Titles, piece by piece -/

/-- A title is a text, or a text with braces and another title, or a text with a brace that is not
closed. -/
theorem title_induction {P : CStr → Prop} (text : ∀ x, lbrace ∉ x → P x)
    (group : ∀ x body rest, lbrace ∉ x → rbrace ∉ body → P rest →
      P (x ++ lbrace :: (body ++ rbrace :: rest)))
    (unclosed : ∀ x s, lbrace ∉ x → rbrace ∉ s → P (x ++ lbrace :: s)) (t : CStr) : P t := by
  obtain ⟨n, hn⟩ : ∃ n, t.length = n := ⟨_, rfl⟩
  induction n using Nat.strong_induction_on generalizing t with
  | _ n ih =>
    by_cases hopen : lbrace ∈ t
    · obtain ⟨x, s, rfl, hx⟩ := List.eq_append_cons_of_mem hopen
      by_cases hclose : rbrace ∈ s
      · obtain ⟨body, rest, rfl, hbody⟩ := List.eq_append_cons_of_mem hclose
        simp only [List.length_append, List.length_cons] at hn
        exact group x body rest hx hbody (ih rest.length (by omega) rest rfl)
      · exact unclosed x s hx hclose
    · exact text t hopen

theorem takeWhile_ne {b : UInt8} {x : CStr} (hx : b ∉ x) (s : CStr) :
    (x ++ b :: s).takeWhile (· ≠ b) = x :=
  takeWhile_append_of_all (fun c hc ↦ decide_eq_true (ne_of_mem_of_not_mem hc hx)) (by simp)

theorem dropWhile_ne {b : UInt8} {x : CStr} (hx : b ∉ x) (s : CStr) :
    ((x ++ b :: s).dropWhile (· ≠ b)).drop 1 = s := by
  rw [dropWhile_append_of_all (fun c hc ↦ decide_eq_true (ne_of_mem_of_not_mem hc hx)) (by simp)]
  rfl

theorem titlePieces_text {x : CStr} (hx : lbrace ∉ x) : titlePieces x = [.text x] := by
  rw [titlePieces, if_neg hx]

theorem titlePieces_group {x body : CStr} (hx : lbrace ∉ x) (hbody : rbrace ∉ body) (rest : CStr) :
    titlePieces (x ++ lbrace :: (body ++ rbrace :: rest)) =
      .text x :: .group body :: titlePieces rest := by
  rw [titlePieces, if_pos (List.mem_append_right _ List.mem_cons_self)]
  simp only [takeWhile_ne hx, dropWhile_ne hx]
  rw [if_pos (List.mem_append_right _ List.mem_cons_self), takeWhile_ne hbody, dropWhile_ne hbody]

theorem titlePieces_unclosed {x s : CStr} (hx : lbrace ∉ x) (hs : rbrace ∉ s) :
    titlePieces (x ++ lbrace :: s) = [.text x, .unclosed s] := by
  rw [titlePieces, if_pos (List.mem_append_right _ List.mem_cons_self)]
  simp only [takeWhile_ne hx, dropWhile_ne hx]
  rw [if_neg hs]

theorem length_stripMircFormatting_le (x : CStr) :
    (stripMircFormatting x).length ≤ x.length := by
  induction x using code_induction with
  | nil => rw [stripMircFormatting_nil]
  | code c s hc ih =>
    rw [stripMircFormatting_code s hc, List.length_cons]
    exact (ih.trans (length_afterCode_le c s)).trans (Nat.le_succ _)
  | byte c s hc ih =>
    rw [stripMircFormatting_byte s hc, List.length_cons, List.length_cons]
    exact Nat.succ_le_succ ih

/-- **What is counted and what is drawn, piece by piece.** -/
theorem title_counts {t : CStr} (hesc : esc ∉ t) (style : IrcStyle) :
    visibleLength t + ((titlePieces t).map TitlePiece.uncounted).sum =
      outsideEscapes (colorizeLoop true true (ircLoop style t)) +
        ((titlePieces t).map TitlePiece.undrawn).sum := by
  obtain ⟨hopen, hclose⟩ : IsBrace lbrace ∧ IsBrace rbrace := ⟨.inl rfl, .inr rfl⟩
  induction t using title_induction generalizing style with
  | text x hx =>
    have hstrip := length_stripMircFormatting_le x
    have hvisible := visibleLength_text hesc hx []
    have hdrawn := outside_text hesc hx style []
    rw [List.append_nil, visibleLength_nil] at hvisible
    rw [List.append_nil, colorizeLoop_nil, outsideEscapes_nil] at hdrawn
    rw [titlePieces_text hx, hvisible, hdrawn]
    simp only [List.map_cons, List.map_nil, List.sum_cons, List.sum_nil, TitlePiece.undrawn,
      TitlePiece.uncounted]
    omega
  | group x body rest hx hbody ih =>
    simp only [List.mem_append, List.mem_cons, not_or] at hesc
    obtain ⟨hescx, -, hescbody, -, hescrest⟩ := hesc
    obtain ⟨style₁, hstyle₁⟩ := ircLoop_append hopen.endsColor hopen.not_control x style
    obtain ⟨style₂, hstyle₂⟩ := ircLoop_append hclose.endsColor hclose.not_control body style₁
    have hstrip := length_stripMircFormatting_le x
    have hgroup := outside_group hescbody hbody style₁ (ircLoop style₂ rest)
    have hrest := ih hescrest style₂
    rw [titlePieces_group hx hbody, visibleLength_text hescx hx, visibleLength_group hbody,
      hstyle₁, hstyle₂, outside_text hescx hx]
    simp only [List.map_cons, List.sum_cons]
    simp only [TitlePiece.undrawn, TitlePiece.uncounted] at hgroup ⊢
    omega
  | unclosed x s hx hs =>
    simp only [List.mem_append, List.mem_cons, not_or] at hesc
    obtain ⟨hescx, -, hescs⟩ := hesc
    obtain ⟨style', hstyle⟩ := ircLoop_append hopen.endsColor hopen.not_control x style
    have hstrip := length_stripMircFormatting_le x
    rw [titlePieces_unclosed hx hs, visibleLength_text hescx hx, visibleLength_unclosed hs, hstyle,
      outside_text hescx hx, outside_unclosed hescs hs]
    simp only [List.map_cons, List.map_nil, List.sum_cons, List.sum_nil, TitlePiece.undrawn,
      TitlePiece.uncounted]
    omega

theorem ircLoop_plain {x : CStr} (hx : ∀ c ∈ x, isIrcControl c = false) (style : IrcStyle) :
    ircLoop style x = x := by
  induction x with
  | nil => exact ircLoop_nil style
  | cons c x ih =>
    rw [ircLoop_byte style x (hx c List.mem_cons_self),
      ih fun c hc ↦ hx c (List.mem_cons_of_mem _ hc)]

/-- Whether a text has been converted makes no difference if there is no escape in it. -/
theorem colorizeLoop_converted {t : CStr} (hesc : esc ∉ t) :
    colorizeLoop false true t = colorizeLoop true true t := by
  obtain ⟨n, hn⟩ : ∃ n, t.length = n := ⟨_, rfl⟩
  induction n using Nat.strong_induction_on generalizing t with
  | _ n ih =>
    rcases t with _ | ⟨c, s⟩
    · rw [colorizeLoop_nil, colorizeLoop_nil]
    · rw [List.length_cons] at hn
      have hs : esc ∉ s := fun h ↦ hesc (List.mem_cons_of_mem _ h)
      by_cases hopen : c = lbrace
      · subst hopen
        by_cases hclose : rbrace ∈ s
        · obtain ⟨key, rest, rfl, hkey⟩ := List.eq_append_cons_of_mem hclose
          have hlength : (key ++ rbrace :: rest).length = key.length + (rest.length + 1) :=
            List.length_append
          rw [colorizeLoop_group hkey, colorizeLoop_group hkey, ih _ (by omega) hs rfl,
            ih rest.length (by omega) (fun h ↦ hs (List.mem_append_right _
              (List.mem_cons_of_mem _ h))) rfl]
        · rw [colorizeLoop_unclosed hclose, colorizeLoop_unclosed hclose,
            ih s.length (by omega) hs rfl]
      · have hc : c ≠ esc := fun h ↦ hesc (h ▸ List.mem_cons_self)
        rw [colorizeLoop_byte hc hopen, colorizeLoop_byte hc hopen, ih s.length (by omega) hs rfl]

/-- Without escapes, a text is converted, or there is nothing in it to convert. -/
theorem tuiColorizeString_eq {t : CStr} (hesc : esc ∉ t) :
    tuiColorizeString true t = colorizeLoop true true (ircToTuiColors t) := by
  rw [tuiColorizeString]
  cases hconverted : t.any isIrcControl with
  | true => rfl
  | false =>
    have hplain : ∀ c ∈ t, isIrcControl c = false := by
      simpa [List.any_eq_false] using hconverted
    rw [ircToTuiColors, ircLoop_plain hplain]
    exact colorizeLoop_converted hesc

/-- **A title takes as many columns as it is given if and only if it is balanced.** -/
theorem visibleLength_eq_iff {title : CStr} (hesc : esc ∉ title) :
    visibleLength title = outsideEscapes (tuiColorizeString true title) ↔ Balanced title := by
  have hcounts := title_counts hesc ⟨false, false, false, false, false⟩
  rw [tuiColorizeString_eq hesc, ircToTuiColors, Balanced]
  omega

theorem balanced_onAir : Balanced (lit "\x7bbold\x7don air\x7b\x7d") := by
  have htag : lit "\x7bbold\x7don air\x7b\x7d"
      = [] ++ lbrace :: (lit "bold" ++ rbrace :: lit "on air\x7b\x7d") := by decide
  have hempty : lit "on air\x7b\x7d" = lit "on air" ++ lbrace :: ([] ++ rbrace :: []) := by decide
  rw [Balanced, htag, titlePieces_group (by decide) (by decide), hempty,
    titlePieces_group (by decide) (by decide), titlePieces_text (by decide)]
  decide +kernel

/-- The closing brace of the tag is counted, and one of the empty braces is not. -/
theorem visibleLength_eq_iff_onAir : visibleLength (lit "\x7bbold\x7don air\x7b\x7d") =
    outsideEscapes (tuiColorizeString true (lit "\x7bbold\x7don air\x7b\x7d")) :=
  (visibleLength_eq_iff (by decide +kernel)).mpr balanced_onAir

/-- The closing brace of a known tag is counted. -/
theorem visibleLength_ne_bold : ¬visibleLength (lit "\x7bbold\x7dx") =
    outsideEscapes (tuiColorizeString true (lit "\x7bbold\x7dx")) := by
  decide +kernel

end Rustyaxe
