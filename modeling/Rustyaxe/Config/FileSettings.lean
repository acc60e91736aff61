import Rustyaxe.Config.Load
import Rustyaxe.Config.Write

/-!
# The settings of a file

What a saved configuration has, by its bytes alone: the lines are joined where one ends in a
backslash, comments are left out, and a setting belongs to the section whose header stands last
before it (`fileSettings`).  This is how `cfg_load_depth` takes a file apart, but for what it does
to a value afterwards: nothing is trimmed here and nothing is cut, and of a continuation line only
the indentation that `cfg_write_wrapped` has put there is removed.

A setting that is written where a line begins is read again (`settingsAfter_setting`).
-/

set_option autoImplicit false

namespace Rustyaxe

/-! ## Lines -/

/-- The test of `cfg_load_depth` for a continuation line. -/
def isContinued (line : CStr) : Bool := (trimForContinuation line).getLast? == some backslash

/-- The lines, each with those that continue it. -/
def groupLines : List CStr → List (List CStr)
  | [] => []
  | line :: rest =>
    if isContinued line then
      match groupLines rest with
      | [] => [[line]]
      | group :: groups => (line :: group) :: groups
    else [line] :: groupLines rest

/-- A continuation line without its indentation. -/
def dropIndent (indent : ℕ) (line : CStr) : CStr :=
  (line.take indent).dropWhile (· == space) ++ line.drop indent

/-- The lines without the backslashes that join them. -/
def joinLines : List CStr → CStr
  | [] => []
  | [line] => line
  | line :: rest => (trimForContinuation line).dropLast ++ joinLines rest

/-- The text of a line and the lines that continue it, which are indented to its value. -/
def logicalText : List CStr → CStr
  | [] => []
  | line :: rest => joinLines (line :: rest.map (dropIndent (line.idxOf equals + 1)))

/-- What a line is. -/
inductive FileLine where
  | nothing
  | header (sectionName : CStr)
  | setting (localKey text : CStr)
  deriving DecidableEq, Repr

/-- What a line is, and whether a comment is open at its end. -/
def fileLine (inComment : Bool) (text : CStr) : FileLine × Bool :=
  if !inComment && isLineComment (text.dropWhile isspace) then (.nothing, inComment)
  else
    let (line, inComment) := stripComments inComment none text
    let skip := (line.dropWhile isspace).rdropWhile isspace
    if isLineComment skip || (includeKind skip).isSome then (.nothing, inComment)
    else if skip.head? = some lbracket ∧ skip.getLast? = some rbracket then
      (.header (skip.tail.take (skip.length - 2)), inComment)
    else
      match strchr equals line with
      | none => (.nothing, inComment)
      | some n => (.setting (line.take n) (line.drop (n + 1)), inComment)

/-! ## Settings -/

/-- A setting of a file. -/
structure FileSetting where
  sectionName : CStr
  localKey : CStr
  text : CStr
  deriving DecidableEq, Repr

/-- What the keys of a section start with. -/
def keysOfSection (sectionName : CStr) : CStr :=
  if strcaseeq sectionName (lit "general") then []
  else if startsWithCase (lit "theme:") sectionName then
    lit "theme:" ++ (sectionName.drop 6 ++ [dot])
  else if startsWithCase (lit "server:") sectionName then
    lit "server:" ++ (sectionName.drop 7 ++ [dot])
  else if strcaseeq sectionName (lit "callsign-lookup") then lit "callsign-lookup:"
  else if strcaseeq sectionName (lit "site") then lit "site:"
  else if sectionName = lit "pipelines" then lit "pipeline:"
  else sectionName ++ [colon]

/-- The key of a setting in the dictionary. -/
def FileSetting.key (s : FileSetting) : CStr := keysOfSection s.sectionName ++ s.localKey

/-- The settings below the header of a section.  There are none outside of one. -/
def settingsBelow (sectionName : CStr) (inComment : Bool) : List (List CStr) → List FileSetting
  | [] => []
  | group :: groups =>
    match fileLine inComment (logicalText group) with
    | (.nothing, inComment) => settingsBelow sectionName inComment groups
    | (.header sectionName, inComment) => settingsBelow sectionName inComment groups
    | (.setting localKey text, inComment) =>
      if sectionName = [] then settingsBelow sectionName inComment groups
      else ⟨sectionName, localKey, text⟩ :: settingsBelow sectionName inComment groups

/-- The settings of the bytes that follow the header of a section. -/
def settingsAfter (sectionName : CStr) (bytes : List UInt8) : List FileSetting :=
  settingsBelow sectionName false (groupLines (bytes.splitOn newline))

/-- The settings of a file. -/
def fileSettings (bytes : List UInt8) : List FileSetting := settingsAfter [] bytes

-- the value of `k` is joined with the line of `m`
example : fileSettings (lit "[general]\nk=a\\\nm=b\nn=c\n[fwdsp]\npath=x\n")
    = [⟨lit "general", lit "k", lit "am=b"⟩, ⟨lit "general", lit "n", lit "c"⟩,
      ⟨lit "fwdsp", lit "path", lit "x"⟩] := by
  decide +kernel

/-! ## Lines that are continued -/

theorem trimForContinuation_concat (s : CStr) :
    trimForContinuation (s ++ [backslash]) = s ++ [backslash] := by
  refine trimForContinuation_eq_self fun c hc ↦ ?_
  obtain rfl : backslash = c := by simpa using hc
  decide

theorem isContinued_concat (s : CStr) : isContinued (s ++ [backslash]) = true := by
  rw [isContinued, trimForContinuation_concat]
  simp

/-- Blanks and then line ends may follow the backslash. -/
theorem isContinued_iff (line : CStr) : isContinued line = true ↔
    ∃ u v w, line = u ++ backslash :: (v ++ w) ∧ (∀ c ∈ v, isBlank c) ∧ ∀ c ∈ w, isEol c := by
  rw [isContinued, beq_iff_eq, trimForContinuation, List.getLast?_eq_some_iff]
  constructor
  · rintro ⟨u, hu⟩
    refine ⟨u, (line.rdropWhile isEol).rtakeWhile isBlank, line.rtakeWhile isEol, ?_,
      fun c hc ↦ List.mem_rtakeWhile_imp hc, fun c hc ↦ List.mem_rtakeWhile_imp hc⟩
    calc line = line.rdropWhile isEol ++ line.rtakeWhile isEol :=
          (List.rdropWhile_append_rtakeWhile).symm
      _ = (line.rdropWhile isEol).rdropWhile isBlank ++
            (line.rdropWhile isEol).rtakeWhile isBlank ++ line.rtakeWhile isEol := by
          rw [List.rdropWhile_append_rtakeWhile (p := isBlank)]
      _ = _ := by rw [hu]; simp
  · rintro ⟨u, v, w, rfl, hv, hw⟩
    refine ⟨u, ?_⟩
    have hpre : (v ++ w).rdropWhile isEol <+: v := by
      rw [List.rdropWhile, List.reverse_append, List.dropWhile_append_of_pos fun c hc ↦
        hw c (List.mem_reverse.mp hc)]
      exact List.rdropWhile_prefix _ _
    rw [rdropWhile_append_cons (by decide), rdropWhile_append_cons (by decide)]
    have hnil : ((v ++ w).rdropWhile isEol).rdropWhile isBlank = [] :=
      List.rdropWhile_eq_nil_iff.mpr fun c hc ↦ hv c (hpre.subset hc)
    rw [hnil]

theorem isContinued_append (s : CStr) {line : CStr} (h : isContinued line = true) :
    isContinued (s ++ line) = true := by
  obtain ⟨u, v, w, rfl, hv, hw⟩ := (isContinued_iff line).mp h
  exact (isContinued_iff _).mpr ⟨s ++ u, v, w, by simp, hv, hw⟩

theorem isContinued_of_spaces {n : ℕ} {line : CStr}
    (h : isContinued (List.replicate n space ++ line) = true) : isContinued line = true := by
  obtain ⟨u, v, w, heq, hv, hw⟩ := (isContinued_iff _).mp h
  rcases List.append_eq_append_iff.mp heq with ⟨u', rfl, hline⟩ | ⟨t, hspaces, hline⟩
  · exact (isContinued_iff line).mpr ⟨u', v, w, hline, hv, hw⟩
  · cases t with
    | nil => exact (isContinued_iff line).mpr ⟨[], v, w, hline.symm, hv, hw⟩
    | cons c t =>
      obtain ⟨rfl, -⟩ := List.cons.inj hline
      have hmem : backslash ∈ List.replicate n space := by simp [hspaces]
      exact absurd (List.eq_of_mem_replicate hmem) (by decide)

/-! ## Groups -/

theorem groupLines_cons {line : CStr} (h : isContinued line = false) (rest : List CStr) :
    groupLines (line :: rest) = [line] :: groupLines rest := by
  rw [groupLines, if_neg (by simp [h])]

theorem groupLines_continued {line : CStr} (h : isContinued line = true) {rest group : List CStr}
    {groups : List (List CStr)} (hrest : groupLines rest = group :: groups) :
    groupLines (line :: rest) = (line :: group) :: groups := by
  rw [groupLines, if_pos h, hrest]

theorem dropIndent_replicate (n : ℕ) (s : CStr) :
    dropIndent n (List.replicate n space ++ s) = s := by
  have hlen : (List.replicate n space).length = n := List.length_replicate
  rw [dropIndent, List.take_left' hlen, List.drop_left' hlen, List.dropWhile_eq_nil_iff.mpr]
  · rfl
  · exact fun c hc ↦ by simp [List.eq_of_mem_replicate hc]

theorem joinLines_cons (s : CStr) {rest : List CStr} (h : rest ≠ []) :
    joinLines ((s ++ [backslash]) :: rest) = s ++ joinLines rest := by
  obtain ⟨line, rest, rfl⟩ := List.exists_cons_of_ne_nil h
  rw [joinLines, trimForContinuation_concat, List.dropLast_concat]
  simp

/-! ## What is written -/

/-- The bytes are lines that continue a value by this text. -/
structure WrapsTo (key text : CStr) (bytes : List UInt8) (lines : List CStr) : Prop where
  ne_nil : lines ≠ []
  split : ∀ rest, (bytes ++ rest).splitOn newline = lines ++ rest.splitOn newline
  group : ∀ rest, groupLines (lines ++ rest) = lines :: groupLines rest
  join : joinLines (lines.map (dropIndent (wrapIndent key))) = text

/-- The lines after the first, by induction on how many there are. -/
theorem exists_wrapsTo (key : CStr) : ∀ (fuel : ℕ) (text : CStr), text.length < fuel →
    newline ∉ text → isContinued text = false →
      ∃ lines, WrapsTo key text (wrapLoop key fuel false text) lines
  | 0, _, hfuel, _, _ => absurd hfuel (Nat.not_lt_zero _)
  | fuel + 1, text, hfuel, hone, hends => by
    have hspaces : newline ∉ List.replicate (wrapIndent key) space := fun h ↦
      absurd (List.eq_of_mem_replicate h) (by decide)
    have hlead : wrapLead key false = List.replicate (wrapIndent key) space := rfl
    rcases Nat.lt_or_ge (wrapCapacity key) text.length with hmore | hlast
    · have hpos := wrapChunk_pos key
      obtain ⟨lines, h⟩ := exists_wrapsTo key fuel (text.drop (wrapChunk key))
        (by rw [List.length_drop]; omega) (fun hmem ↦ hone (List.mem_of_mem_drop hmem)) (by
          refine Bool.eq_false_iff.mpr fun hdrop ↦ ?_
          have happ := isContinued_append (text.take (wrapChunk key)) hdrop
          rw [List.take_append_drop, hends] at happ
          cases happ)
      rw [wrapLoop_more hmore, hlead]
      generalize htake : text.take (wrapChunk key) = chunk
      have hchunk : newline ∉ chunk := fun hmem ↦ hone (List.mem_of_mem_take (htake ▸ hmem))
      refine ⟨(List.replicate (wrapIndent key) space ++ chunk ++ [backslash]) :: lines,
        List.cons_ne_nil _ _, fun rest ↦ ?_, fun rest ↦ ?_, ?_⟩
      · rw [List.append_assoc _ _ rest, List.cons_append,
          List.splitOn_append_cons_self_of_not_mem, h.split, List.cons_append]
        simp only [List.mem_append, List.mem_singleton, not_or]
        exact ⟨⟨hspaces, hchunk⟩, by decide⟩
      · exact groupLines_continued (isContinued_concat _) (h.group rest)
      · rw [List.map_cons, List.append_assoc, dropIndent_replicate,
          joinLines_cons _ (by simpa using h.ne_nil), h.join, ← htake, List.take_append_drop]
    · rw [wrapLoop_last hlast, hlead]
      refine ⟨[List.replicate (wrapIndent key) space ++ text], List.cons_ne_nil _ _,
        fun rest ↦ ?_, fun rest ↦ ?_, ?_⟩
      · rw [List.append_assoc _ _ rest, List.singleton_append,
          List.splitOn_append_cons_self_of_not_mem, List.singleton_append]
        simp only [List.mem_append, not_or]
        exact ⟨hspaces, hone⟩
      · refine groupLines_cons ?_ rest
        refine Bool.eq_false_iff.mpr fun h ↦ ?_
        rw [isContinued_of_spaces h] at hends
        cases hends
      · rw [List.map_singleton, dropIndent_replicate]
        rfl

/-- The line `localKey=text`, taken by itself, is this setting. -/
structure SettingReads (localKey text : CStr) : Prop where
  no_newline : newline ∉ localKey ++ equals :: text
  ends : isContinued (localKey ++ equals :: text) = false
  no_equals : equals ∉ localKey
  reads : fileLine false (localKey ++ equals :: text) = (.setting localKey text, false)

/-- The line `[sectionName]`, taken by itself, is this header. -/
structure HeaderReads (sectionName : CStr) : Prop where
  ne_nil : sectionName ≠ []
  no_newline : newline ∉ sectionName
  reads : fileLine false (lbracket :: sectionName ++ [rbracket]) = (.header sectionName, false)

variable {sectionName localKey : CStr}

theorem settingsAfter_newline (sectionName : CStr) (rest : List UInt8) :
    settingsAfter sectionName (newline :: rest) = settingsAfter sectionName rest := by
  have hline : fileLine false (logicalText [[]]) = (.nothing, false) := by decide
  have hsplit : (newline :: rest).splitOn newline = [] :: rest.splitOn newline :=
    List.splitOn_append_cons_self_of_not_mem List.not_mem_nil rest
  rw [settingsAfter, hsplit, groupLines_cons (by decide), settingsBelow, hline]
  rfl

/-- **A header** that is written where a line begins. -/
theorem settingsAfter_header (before : CStr) (h : HeaderReads sectionName) (rest : List UInt8) :
    settingsAfter before (lbracket :: sectionName ++ [rbracket, newline] ++ rest)
      = settingsAfter sectionName rest := by
  generalize hline : lbracket :: sectionName ++ [rbracket] = line
  have hone : newline ∉ line := by
    rw [← hline]
    simp only [List.mem_append, List.mem_cons, List.not_mem_nil, or_false, not_or]
    exact ⟨⟨by decide, h.no_newline⟩, by decide⟩
  have hlast : line.getLast? = some rbracket := by
    rw [← hline]
    exact List.getLast?_concat ..
  have hends : isContinued line = false := by
    rw [isContinued, trimForContinuation_eq_self fun c hc ↦ ?_, hlast]
    · decide
    · obtain rfl := Option.some.inj (hlast.symm.trans hc)
      decide
  have hbytes : lbracket :: sectionName ++ [rbracket, newline] ++ rest
      = line ++ newline :: rest := by simp [← hline]
  rw [hbytes, settingsAfter, List.splitOn_append_cons_self_of_not_mem hone,
    groupLines_cons hends, settingsBelow]
  have hreads : fileLine false (logicalText [line]) = (.header sectionName, false) :=
    hline ▸ h.reads
  rw [hreads]
  rfl

/-- The first line and those that continue it are one group. -/
theorem exists_group {text : CStr} (h : SettingReads localKey text) : ∃ group : List CStr,
    (∀ rest, (wrapLoop localKey (text.length + 1) true text ++ rest).splitOn newline
      = group ++ rest.splitOn newline) ∧
    (∀ rest, groupLines (group ++ rest) = group :: groupLines rest) ∧
      logicalText group = localKey ++ equals :: text := by
  have hlead : wrapLead localKey true = localKey ++ [equals] := rfl
  have hone := h.no_newline
  simp only [List.mem_append, List.mem_cons, not_or] at hone
  obtain ⟨hkey, -, htext⟩ := hone
  have hequals : newline ≠ equals := by decide
  rcases Nat.lt_or_ge (wrapCapacity localKey) text.length with hmore | hlast
  · have hpos := wrapChunk_pos localKey
    obtain ⟨lines, hlines⟩ := exists_wrapsTo localKey text.length
      (text.drop (wrapChunk localKey)) (by rw [List.length_drop]; omega)
      (fun hmem ↦ htext (List.mem_of_mem_drop hmem)) (by
        refine Bool.eq_false_iff.mpr fun hdrop ↦ ?_
        have happ := isContinued_append (localKey ++ equals :: text.take (wrapChunk localKey)) hdrop
        rw [List.append_assoc, List.cons_append, List.take_append_drop, h.ends] at happ
        cases happ)
    rw [wrapLoop_more hmore, hlead]
    generalize htake : text.take (wrapChunk localKey) = chunk
    have hchunk : newline ∉ chunk := fun hmem ↦ htext (List.mem_of_mem_take (htake ▸ hmem))
    refine ⟨(localKey ++ [equals] ++ chunk ++ [backslash]) :: lines, fun rest ↦ ?_, fun rest ↦ ?_,
      ?_⟩
    · rw [List.append_assoc _ _ rest, List.cons_append,
        List.splitOn_append_cons_self_of_not_mem, hlines.split, List.cons_append]
      simp only [List.mem_append, List.mem_singleton, not_or]
      exact ⟨⟨⟨hkey, hequals⟩, hchunk⟩, by decide⟩
    · exact groupLines_continued (isContinued_concat _) (hlines.group rest)
    · have hindent : (localKey ++ [equals] ++ chunk ++ [backslash]).idxOf equals + 1
          = wrapIndent localKey := by
        rw [List.append_assoc, List.append_assoc, List.idxOf_append_of_notMem h.no_equals]
        simp [wrapIndent]
      rw [logicalText, hindent, joinLines_cons _ (by simpa using hlines.ne_nil), hlines.join,
        ← htake, List.append_assoc, List.take_append_drop]
      simp
  · rw [wrapLoop_last hlast, hlead]
    refine ⟨[localKey ++ [equals] ++ text], fun rest ↦ ?_, fun rest ↦ ?_, ?_⟩
    · rw [List.append_assoc _ _ rest, List.singleton_append,
        List.splitOn_append_cons_self_of_not_mem, List.singleton_append]
      simp only [List.mem_append, List.mem_singleton, not_or]
      exact ⟨⟨hkey, hequals⟩, htext⟩
    · refine groupLines_cons ?_ rest
      have hends := h.ends
      rwa [← List.singleton_append, ← List.append_assoc] at hends
    · simp [logicalText, joinLines]

/-- **A setting** that is written where a line begins. -/
theorem settingsAfter_setting (hsection : sectionName ≠ []) {value : Option CStr}
    (h : SettingReads localKey (value.getD [])) (rest : List UInt8) :
    settingsAfter sectionName (cfgWriteWrapped localKey value ++ rest)
      = ⟨sectionName, localKey, value.getD []⟩ :: settingsAfter sectionName rest := by
  rw [cfgWriteWrapped]
  generalize value.getD [] = text at h ⊢
  obtain ⟨group, hsplit, hgroup, htext⟩ := exists_group h
  rw [settingsAfter, hsplit, hgroup, settingsBelow, htext, h.reads]
  dsimp only
  rw [if_neg hsection]
  rfl

end Rustyaxe
