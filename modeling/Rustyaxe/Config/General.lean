import Rustyaxe.Config.Load
import Rustyaxe.Dict.AddOnly

/-!
# Loading `[general]`

What a file that starts with the header `[general]` becomes.  A line `key=text` stores
`settingText text` under its key (`loadLine_setting`), and a line of a single character stores
nothing under a key that is not empty (`loadLine_single`).

The allocations of the load succeed (`LoadEnv.AllocOk`).
-/

set_option autoImplicit false

namespace Rustyaxe

/-! ## Keys and texts -/

/-- Letters, digits, `'.'`, `'-'` and `'_'`. -/
def isKeyChar (c : UInt8) : Bool :=
  (0x61 ≤ c && c ≤ 0x7a) || (0x41 ≤ c && c ≤ 0x5a) || isdigit c || c == dot || c == minus ||
    c == 0x5f

/-- `isprint` -/
def isprint (c : UInt8) : Bool := 0x20 ≤ c && c ≤ 0x7e

/-- A key of `[general]`.  A line `.include=…` is a directive, so `.include` is no key. -/
structure IsGeneralKey (key : CStr) : Prop where
  ne_nil : key ≠ []
  chars : ∀ c ∈ key, isKeyChar c
  not_include : key.map tolower ≠ lit ".include"

/-- What is stored for the text after the first `'='` of a line. -/
def settingText (text : CStr) : CStr :=
  ((stripComments false none text).1.rdropWhile isspace).dropWhile isBlank

theorem isKeyChar.ne {c x : UInt8} (h : isKeyChar c) (hx : isKeyChar x = false) : c ≠ x := by
  rintro rfl
  simp [h] at hx

theorem isKeyChar.isspace {c : UInt8} (h : isKeyChar c) : isspace c = false := by
  revert h
  refine forall_byte ?_ c
  decide +kernel

theorem isKeyChar.isBlank {c : UInt8} (h : isKeyChar c) : isBlank c = false := by
  revert h
  refine forall_byte ?_ c
  decide +kernel

theorem printable_spec {c : UInt8} (h : isprint c) :
    isspace c = (c == space) ∧ isBlank c = (c == space) ∧ isEol c = false ∧ c ≠ 0 ∧
      c ≠ newline := by
  revert h
  refine forall_byte ?_ c
  decide +kernel

/-- The first character of a line `key=text`, where the key may be empty. -/
def startsLine (c : UInt8) : Bool := isKeyChar c || c == equals

theorem startsLine.ne {c x : UInt8} (h : startsLine c) (hx : startsLine x = false) : c ≠ x := by
  rintro rfl
  simp [h] at hx

theorem startsLine.isspace {c : UInt8} (h : startsLine c) : isspace c = false := by
  revert h
  refine forall_byte ?_ c
  decide +kernel

/-- What stands before the first `'='` of a line: a key, or what is left of one without the name of
its section.  A line `.include=…` is a directive. -/
structure IsLineKey (key : CStr) : Prop where
  chars : ∀ c ∈ key, isKeyChar c
  not_include : key.map tolower ≠ lit ".include"

namespace IsLineKey

variable {key : CStr} (hk : IsLineKey key)
include hk

theorem exists_cons (text : CStr) :
    ∃ c rest, key ++ equals :: text = c :: rest ∧ startsLine c := by
  cases key with
  | nil => exact ⟨equals, text, rfl, rfl⟩
  | cons c rest => exact ⟨c, rest ++ equals :: text, rfl, by simp [startsLine, hk.chars c (by simp)]⟩

/-- The line of a key is not an include directive. -/
theorem includeKind_eq (text : CStr) : includeKind (key ++ equals :: text) = none := by
  cases key with
  | nil =>
    rw [List.nil_append, includeKind, List.head?_cons,
      if_neg (c := some equals = some 0x21) (by decide),
      if_neg (c := some equals = some dot) (by decide), ite_self]
  | cons c rest =>
    have hc : isKeyChar c := hk.chars c (by simp)
    rw [includeKind]
    rcases Nat.lt_trichotomy rest.length 7 with hlen | hlen | hlen
    · -- the name of the directive would contain the `=`
      rw [if_neg]
      rw [Bool.and_eq_true, startsWithCase, strcaseeq, beq_iff_eq]
      rintro ⟨h, -⟩
      obtain ⟨m, hm⟩ : ∃ m, (lit "include").length - rest.length = m + 1 :=
        ⟨6 - rest.length, by have : (lit "include").length = 7 := rfl; omega⟩
      have hmem : equals ∈ ((c :: rest ++ equals :: text).tail.take (lit "include").length).map
          tolower := by
        rw [List.cons_append, List.tail_cons, List.take_append, hm, List.take_succ_cons]
        simp only [List.map_append, List.map_cons, List.mem_append, List.mem_cons]
        exact .inr (.inl rfl)
      rw [h] at hmem
      revert hmem
      decide
    · -- the name is the key but for its first character
      split
      · next h =>
        rw [Bool.and_eq_true, startsWithCase, strcaseeq, beq_iff_eq, List.cons_append,
          List.tail_cons, List.take_left' (by rw [hlen]; rfl)] at h
        have h21 : c ≠ 0x21 := isKeyChar.ne hc (by decide)
        rw [List.cons_append, List.head?_cons, if_neg (by simpa using h21), if_neg]
        intro hdot
        obtain rfl : c = dot := by simpa using hdot
        refine hk.not_include ?_
        rw [List.map_cons, h.1]
        rfl
      · rfl
    · -- the name would be followed by a key character
      obtain ⟨d, rest', hrest⟩ : ∃ d rest', rest.drop 7 = d :: rest' :=
        List.exists_cons_of_ne_nil (by simpa using hlen)
      have hd : isKeyChar d := hk.chars d (by
        have : d ∈ rest.drop 7 := by rw [hrest]; simp
        simp [List.mem_of_mem_drop this])
      have hdrop : (c :: rest ++ equals :: text).drop 8 = d :: (rest' ++ equals :: text) := by
        rw [List.cons_append, List.drop_succ_cons, List.drop_append_of_le_length hlen.le, hrest]
        rfl
      have heq : d ≠ equals := isKeyChar.ne hd (by decide)
      rw [hdrop, if_neg]
      simp [isKeyChar.isBlank hd, heq]

theorem splitSetting_eq (text : CStr) :
    splitSetting (key ++ equals :: text) = some (key, text.dropWhile isBlank) := by
  have hkey : ∀ c ∈ key, decide (c ≠ equals) = true := fun c hc ↦
    decide_eq_true (isKeyChar.ne (hk.chars c hc) (by decide))
  rw [splitSetting, if_pos (by simp), takeWhile_append_cons hkey (by simp),
    List.dropWhile_append_of_pos hkey, List.dropWhile_cons_of_neg (by simp), List.tail_cons]

theorem rdropWhile_eq : key.rdropWhile isBlank = key :=
  rdropWhile_eq_self fun c hc ↦ isKeyChar.isBlank (hk.chars c (List.mem_of_getLast? hc))

theorem isLineComment_eq (text : CStr) : isLineComment (key ++ equals :: text) = false := by
  obtain ⟨c, rest, h, hc⟩ := hk.exists_cons text
  rw [h]
  cases rest <;>
    simp [isLineComment, startsLine.ne hc (x := slash) (by decide),
      startsLine.ne hc (x := hashmark) (by decide), startsLine.ne hc (x := semicolon) (by decide)]

/-- The comments of a line `key=text` are those of the text. -/
theorem bareLine_eq (text : CStr) (line : ℕ) :
    bareLine false ⟨key ++ equals :: text, 0, line⟩
      = (some ⟨[], key ++ equals :: (stripComments false none text).1.rdropWhile isspace, false⟩,
          (stripComments false none text).2) := by
  obtain ⟨c, rest, h, hc⟩ := hk.exists_cons text
  have hesc : isEscapedComment (c :: rest) = false := by
    cases rest with
    | nil => rfl
    | cons d rest => simp [isEscapedComment, startsLine.ne hc (x := backslash) (by decide)]
  have hcomment := hk.isLineComment_eq text
  have hstrip := stripComments_append (s := key ++ [equals]) (fun x hx ↦ by
    rcases List.mem_append.mp hx with hx | hx
    · have hx := hk.chars x hx
      exact ⟨isKeyChar.ne hx (by decide), isKeyChar.ne hx (by decide), isKeyChar.ne hx (by decide)⟩
    · rw [List.mem_singleton.mp hx]
      decide) text
  rw [List.append_assoc, List.singleton_append, List.append_assoc, List.singleton_append, h]
    at hstrip
  rw [h] at hcomment ⊢
  rw [bareLine]
  simp only [List.drop_zero, hesc, Bool.false_eq_true, if_false]
  rw [List.dropWhile_cons_of_neg (by simp [startsLine.isspace hc]),
    List.takeWhile_cons_of_neg (by simp [startsLine.isspace hc]), hcomment, hstrip,
    if_neg (by simp), rdropWhile_append_cons (by decide)]

end IsLineKey

theorem IsGeneralKey.isLineKey {key : CStr} (hk : IsGeneralKey key) : IsLineKey key :=
  ⟨hk.chars, hk.not_include⟩

theorem cfgExpandFormatEscapes_eq_self {val : CStr} (h : backslash ∉ val) :
    cfgExpandFormatEscapes val = val := by
  induction val with
  | nil => rfl
  | cons b src ih =>
    have hb : b ≠ backslash := fun hb ↦ h (by simp [hb])
    have hsrc := ih fun hsrc ↦ h (by simp [hsrc])
    cases src with
    | nil => rfl
    | cons c src => rw [cfgExpandFormatEscapes, if_neg hb, hsrc]

/-! ## One line -/

/-- Every allocation of a load succeeds. -/
structure LoadEnv.AllocOk (env : LoadEnv) : Prop where
  calloc : ∀ n, env.calloc n = true
  mem : ∀ n, env.mem n = .ok

/-- A world without files and callbacks, in which allocations succeed. -/
def bareEnv : LoadEnv where
  fileExists _ := false
  fopen _ := none
  fnmatch _ _ := false
  cfgCallbacks := []
  cfgIgnoreUnknownSections := false
  calloc _ := true
  mem _ := .ok

theorem allocOk_bareEnv : bareEnv.AllocOk := ⟨fun _ ↦ rfl, fun _ ↦ rfl⟩

variable {dictHash : CStr → UInt32} {env : LoadEnv}

/-- The loader is in `[general]`. -/
structure InGeneral (dictHash : CStr → UInt32) (s : LoadState) : Prop where
  built : Built dictHash s.newcfg
  thisSection : s.thisSection = lit "general"

theorem LoadState.dictAdd_spec (henv : env.AllocOk) {s : LoadState} (hs : Built dictHash s.newcfg)
    (key val : CStr) : ∃ d, s.dictAdd dictHash env key val
      = some (true, { s with newcfg := d, calls := s.calls + 1 }) ∧ Built dictHash d ∧
        d.toMap = Function.update s.newcfg.toMap key (some (.str (some val))) := by
  obtain ⟨rc, d, hstore, hd, hmap, hrc⟩ :=
    hs.dictStore_spec (env.mem s.calls) key (.str (some val))
  obtain rfl := hrc (henv.mem _)
  refine ⟨d, ?_, hd, by rw [hmap, if_pos rfl]⟩
  rw [LoadState.dictAdd, Rustyaxe.dictAdd, hstore]
  rfl

/-- What a line of a section does that is neither a directive nor a header. -/
theorem loadLine_section {loader : Option Loader} {path : CStr} {b : BareLine} {s : LoadState}
    (hs : s.thisSection ≠ []) (hne : b.skip ≠ [])
    (hcomment : (!b.escapedComment && isLineComment b.skip) = false)
    (hinclude : includeKind b.skip = none)
    (hheader : ¬ (b.skip.head? = some lbracket ∧ b.skip.getLast? = some rbracket)) :
    loadLine dictHash env loader path b s = sectionLine dictHash env path b s := by
  rw [loadLine, if_neg hne, if_neg fun h ↦ hs h.1, hcomment, if_neg (by simp), hinclude]
  dsimp only
  rw [if_neg hheader, if_neg hs]

theorem IsLineKey.loadLine_eq {key : CStr} (hk : IsLineKey key) (u : CStr)
    (loader : Option Loader) (path : CStr) {s : LoadState} (hs : s.thisSection ≠ []) :
    loadLine dictHash env loader path ⟨[], key ++ equals :: u, false⟩ s
      = sectionLine dictHash env path ⟨[], key ++ equals :: u, false⟩ s := by
  refine loadLine_section hs (by simp) (by simp [hk.isLineComment_eq]) (hk.includeKind_eq u) ?_
  obtain ⟨c, rest, h, hc⟩ := hk.exists_cons u
  rw [h]
  simp [startsLine.ne hc (x := lbracket) (by decide)]

theorem sectionLine_general {path : CStr} {b : BareLine} {s : LoadState}
    (hs : s.thisSection = lit "general") :
    sectionLine dictHash env path b s = generalLine dictHash env b.skip s := by
  rw [sectionLine, hs, if_pos (by decide)]

/-- The value that is stored for the text of a line. -/
def storedText (key text : CStr) : CStr :=
  if cfgFormattingKey key then cfgExpandFormatEscapes text else text

/-- A line `key=text` stores the text, expanded if the key is one of formatting. -/
theorem loadLine_storedText (henv : env.AllocOk) {key : CStr} (hk : IsGeneralKey key) (u : CStr)
    (loader : Option Loader) (path : CStr) {s : LoadState} (hs : InGeneral dictHash s) :
    ∃ s', loadLine dictHash env loader path ⟨[], key ++ equals :: u, false⟩ s = some s' ∧
      InGeneral dictHash s' ∧ s'.inComment = s.inComment ∧ s'.newcfg.toMap = Function.update
        s.newcfg.toMap key (some (.str (some (storedText key (u.dropWhile isBlank))))) := by
  have hsec : s.thisSection ≠ [] := by
    rw [hs.thisSection]
    decide
  rw [hk.isLineKey.loadLine_eq u loader path hsec, sectionLine_general hs.thisSection, generalLine,
    hk.isLineKey.splitSetting_eq]
  obtain ⟨d, hadd, hd, hmap⟩ :=
    s.dictAdd_spec henv hs.built key (storedText key (u.dropWhile isBlank))
  refine ⟨{ s with newcfg := d, calls := s.calls + 1 }, ?_, ⟨hd, hs.thisSection⟩, rfl, hmap⟩
  rw [storedText] at hadd
  simp only [hk.isLineKey.rdropWhile_eq, hadd]
  rfl

/-- **A line `key=text` stores the text under the key.** -/
theorem loadLine_setting (henv : env.AllocOk) {key u : CStr} (hk : IsGeneralKey key)
    (hu : backslash ∉ u) (loader : Option Loader) (path : CStr) {s : LoadState}
    (hs : InGeneral dictHash s) :
    ∃ s', loadLine dictHash env loader path ⟨[], key ++ equals :: u, false⟩ s = some s' ∧
      InGeneral dictHash s' ∧ s'.inComment = s.inComment ∧
      s'.newcfg.toMap
        = Function.update s.newcfg.toMap key (some (.str (some (u.dropWhile isBlank)))) := by
  have hval : storedText key (u.dropWhile isBlank) = u.dropWhile isBlank := by
    have hmem : backslash ∉ u.dropWhile isBlank := fun h ↦ hu ((List.dropWhile_sublist _).mem h)
    rw [storedText, cfgExpandFormatEscapes_eq_self hmem, ite_self]
  rw [← hval]
  exact loadLine_storedText henv hk u loader path hs

/-- **A line of at most one character stores nothing** under a key that is not empty. -/
theorem loadLine_single (henv : env.AllocOk) {b : BareLine} (hb : b.skip.length ≤ 1)
    (loader : Option Loader) (path : CStr) {s : LoadState} (hs : InGeneral dictHash s) :
    ∃ s', loadLine dictHash env loader path b s = some s' ∧ InGeneral dictHash s' ∧
      s'.inComment = s.inComment ∧
      ∀ key, key ≠ [] → s'.newcfg.toMap key = s.newcfg.toMap key := by
  by_cases hnil : b.skip = []
  · exact ⟨s, by rw [loadLine, hnil]; rfl, hs, rfl, fun _ _ ↦ rfl⟩
  obtain ⟨x, hx⟩ : ∃ x, b.skip = [x] := by
    rw [← List.length_eq_one_iff]
    have := List.length_pos_iff.mpr hnil
    omega
  have hsec : s.thisSection ≠ [] := by
    rw [hs.thisSection]
    decide
  cases hcomment : !b.escapedComment && isLineComment b.skip with
  | true =>
    refine ⟨s, ?_, hs, rfl, fun _ _ ↦ rfl⟩
    rw [loadLine, if_neg hnil, if_neg fun h ↦ hsec h.1, hcomment, if_pos rfl]
  | false =>
    have hinclude : includeKind b.skip = none := by rw [hx]; rfl
    have hheader : ¬ (b.skip.head? = some lbracket ∧ b.skip.getLast? = some rbracket) := by
      rw [hx]
      rintro ⟨h1, h2⟩
      obtain rfl : x = lbracket := by simpa using h1
      revert h2
      decide
    rw [loadLine_section hsec hnil hcomment hinclude hheader, sectionLine_general hs.thisSection, hx,
      generalLine]
    by_cases hx' : x = equals
    · obtain ⟨d, hadd, hd, hmap⟩ := s.dictAdd_spec henv hs.built [] []
      refine ⟨{ s with newcfg := d, calls := s.calls + 1 }, ?_, ⟨hd, hs.thisSection⟩, rfl,
        fun key hkey ↦ ?_⟩
      · have hsplit : splitSetting [x] = some ([], []) := by rw [hx']; rfl
        have hval : cfgExpandFormatEscapes [] = [] := rfl
        rw [hsplit]
        simp only [List.rdropWhile_nil, hval, ite_self, hadd]
        rfl
      · show d.toMap key = _
        rw [hmap, Function.update_of_ne hkey]
    · refine ⟨s, ?_, hs, rfl, fun _ _ ↦ rfl⟩
      rw [splitSetting, if_neg (by simpa using Ne.symm hx')]

/-! ## One file -/

/-- The same world, with a file of this content. -/
def LoadEnv.withFile (env : LoadEnv) (path : CStr) (content : List UInt8) : LoadEnv :=
  { env with
    fileExists := fun p ↦ p == path || env.fileExists p
    fopen := fun p ↦ if p = path then some content else env.fopen p }

/-- What a load of a file with this content stores under the key, if it returns a dictionary. -/
def loadedValue (dictHash : CStr → UInt32) (env : LoadEnv) (path content key : CStr) :
    Option DictValue :=
  match cfgLoad dictHash (env.withFile path content) path with
  | some (some d) => d.toMap key
  | _ => none

/-- The text of the header. -/
def generalHeader : CStr := lit "[general]\n"

theorem readLogical_generalHeader (body : List UInt8) :
    readLogical false 0 (generalHeader ++ body) = some (some ⟨lit "[general]", 0, 1⟩, 1, body) := by
  have hf : fgets (cfgBufSize - 1) (generalHeader ++ body) = some (lit "[general]\n", body) := by
    have htext : IsLineText (lit "[general]") := by
      rw [IsLineText]
      decide +kernel
    exact fgets_line htext (by decide) body
  have hcons : lit "[general]\n" = lbracket :: lit "general]\n" := rfl
  rw [hcons] at hf
  rw [readLogical_eq [] hf (by simp) (by decide), List.nil_append]
  have hend : EndsLine (lit "[general]") := by
    intro c hc
    obtain rfl : c = rbracket := by
      have : (lit "[general]").getLast? = some rbracket := rfl
      simpa [this] using hc.symm
    decide
  have htrim : (lbracket :: lit "general]\n").rdropWhile (fun c ↦ isEol c || isBlank c)
      = lit "[general]" := by decide
  rw [htrim, joinContinuations_done hend]
  rfl

/-- The state after the header. -/
theorem loadLines_generalHeader (loader : Option Loader) (path : CStr) (fuel : ℕ)
    (body : List UInt8) (calls : ℕ) :
    loadLines dictHash env loader path (fuel + 1) (generalHeader ++ body)
        ⟨dictNew, [], false, 0, 0, calls⟩
      = loadLines dictHash env loader path fuel body
        ⟨dictNew, lit "general", false, 1, 0, calls⟩ := by
  have hbare : bareLine false ⟨lit "[general]", 0, 1⟩
      = (some ⟨[], lit "[general]", false⟩, false) := by decide
  rw [loadLines, readLogical_generalHeader]
  dsimp only
  rw [hbare]
  rfl

/-- What is left of a file stores nothing under the key, if it is read outside a comment. -/
def Quiet (dictHash : CStr → UInt32) (env : LoadEnv) (key : CStr) (file : List UInt8) : Prop :=
  ∀ (loader : Option Loader) (path : CStr) (fuel : ℕ) (s : LoadState), InGeneral dictHash s →
    s.inComment = false →
    ∃ s', loadLines dictHash env loader path fuel file s = some s' ∧
      s'.newcfg.toMap key = s.newcfg.toMap key

theorem loadLines_nil (loader : Option Loader) (path : CStr) (fuel : ℕ) (s : LoadState) :
    loadLines dictHash env loader path fuel [] s = some s := by
  cases fuel <;> rfl

theorem quiet_nil (key : CStr) : Quiet dictHash env key [] :=
  fun loader path fuel s _ _ ↦ ⟨s, loadLines_nil loader path fuel s, rfl⟩

/-- A blank line. -/
theorem quiet_blank {key : CStr} {file file' : List UInt8} (hrest : Quiet dictHash env key file')
    (hread : ∀ line, readLogical false line file = some (none, line + 1, file')) :
    Quiet dictHash env key file := by
  intro loader path fuel s hs hcom
  cases fuel with
  | zero => exact ⟨s, rfl, rfl⟩
  | succ fuel =>
    rw [loadLines, hcom, hread]
    exact hrest loader path fuel { s with inComment := false, line := s.line + 1 }
      ⟨hs.built, hs.thisSection⟩ rfl

/-- A line of at most one character. -/
theorem quiet_single (henv : env.AllocOk) {key : CStr} (hkey : key ≠ []) {file file' : List UInt8}
    (skip : ℕ) (buf indent text : CStr) (htext : text.length ≤ 1)
    (hrest : Quiet dictHash env key file')
    (hread : ∀ line, ∃ line', readLogical false line file
      = some (some ⟨buf, skip, line'⟩, line', file'))
    (hbare : ∀ line, bareLine false ⟨buf, skip, line⟩ = (none, false) ∨
      bareLine false ⟨buf, skip, line⟩ = (some ⟨indent, text, false⟩, false)) :
    Quiet dictHash env key file := by
  intro loader path fuel s hs hcom
  cases fuel with
  | zero => exact ⟨s, rfl, rfl⟩
  | succ fuel =>
    obtain ⟨line', hread⟩ := hread s.line
    rw [loadLines, hcom, hread]
    rcases hbare line' with hbare | hbare
    · simp only [hbare]
      exact hrest loader path fuel { s with inComment := false, line := line' }
        ⟨hs.built, hs.thisSection⟩ rfl
    · obtain ⟨s', hline, hs', hcom', hmap⟩ := loadLine_single henv (b := ⟨indent, text, false⟩)
        htext loader path (s := { s with inComment := false, line := line' })
        ⟨hs.built, hs.thisSection⟩
      obtain ⟨s'', hlines, hmap'⟩ := hrest loader path fuel s' hs' hcom'
      refine ⟨s'', ?_, by rw [hmap', hmap key hkey]⟩
      simp only [hbare, hline]
      exact hlines

/-- **A file whose first line after the header is `key=text`**, and whose other lines store
nothing under the key. -/
theorem loadedValue_setting (henv : env.AllocOk) {key text : CStr} (hk : IsGeneralKey key)
    (htext : backslash ∉ text) (path : CStr) {body rest : List UInt8} {line : ℕ}
    (hread : readLogical false 1 body
      = some (some ⟨key ++ equals :: text, 0, line⟩, line, rest))
    (hrest : rest = [] ∨ (stripComments false none text).2 = false ∧
      ∀ env' : LoadEnv, env'.AllocOk → Quiet dictHash env' key rest) :
    loadedValue dictHash env path (generalHeader ++ body) key
      = some (.str (some (settingText text))) := by
  have henv' : (env.withFile path (generalHeader ++ body)).AllocOk := ⟨henv.calloc, henv.mem⟩
  generalize henv'' : env.withFile path (generalHeader ++ body) = env' at henv'
  have hexists : env'.fileExists path = true := by simp [← henv'', LoadEnv.withFile]
  have hopen : env'.fopen path = some (generalHeader ++ body) := by
    simp [← henv'', LoadEnv.withFile]
  have hu : backslash ∉ (stripComments false none text).1.rdropWhile isspace := fun h ↦
    htext ((stripComments_sublist _ _ _).mem ((List.rdropWhile_prefix _ _).mem h))
  obtain ⟨s', hline, hs', hcom, hmap⟩ := loadLine_setting henv' hk hu
    (some (cfgLoadDepth dictHash env' 3)) path
    (s := ⟨dictNew, lit "general", (stripComments false none text).2, line, 0, 1⟩)
    (⟨built_dictNew, rfl⟩ : InGeneral dictHash _)
  have hfuel : (generalHeader ++ body).length + 1 = (9 + body.length) + 1 + 1 := by
    rw [List.length_append]
    have : generalHeader.length = 10 := rfl
    omega
  obtain ⟨s'', hlines, hmap'⟩ : ∃ s'', loadLines dictHash env' (some (cfgLoadDepth dictHash env' 3))
      path (9 + body.length) rest s' = some s'' ∧ s''.newcfg.toMap key = s'.newcfg.toMap key := by
    rcases hrest with rfl | ⟨hclosed, hquiet⟩
    · exact ⟨s', loadLines_nil _ _ _ _, rfl⟩
    · exact hquiet env' henv' _ _ _ s' hs' (hcom.trans hclosed)
  have hload : cfgLoad dictHash env' path = some (some s''.newcfg) := by
    rw [cfgLoad, cfgLoadDepth, loadFile, hexists, henv'.calloc, dictNewCall, hopen]
    simp only [Bool.not_true, Bool.false_eq_true, if_false, if_true, hfuel]
    rw [loadLines_generalHeader, loadLines, hread]
    simp only [hk.isLineKey.bareLine_eq, hline]
    simp [hlines]
  rw [loadedValue, henv'', hload]
  dsimp only
  rw [hmap', hmap, Function.update_self, settingText]

end Rustyaxe
