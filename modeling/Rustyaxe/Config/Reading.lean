import Rustyaxe.Config.Includes
import Rustyaxe.Config.Save
import Rustyaxe.Config.Wrapping

/-!
# Reading a saved configuration

What `cfg_load` makes of the pieces of a saved file.  A file is `Faithful` if the loader assigns,
for each line, the value of the line to the key it was written for: the line stands in a section
that the loader knows, fits into its buffer, and the name of the section and the rest of the key
make the key.  Such a file is loaded as the assignments of its lines (`cfgLoad_faithful`).
-/

set_option autoImplicit false

namespace Rustyaxe

open Assignments

variable {dictHash : CStr → UInt32} {env : LoadEnv} {key v : CStr}

/-! ## Values without blanks -/

/-- A printable token that the loader does not take for anything else. -/
structure IsTokenValue (v : CStr) : Prop where
  ne_nil : v ≠ []
  printable : ∀ c ∈ v, isprint c ∧ c ≠ space
  no_backslash : backslash ∉ v
  no_comment : ¬ [slash, star] <:+: v

namespace IsTokenValue

variable (hv : IsTokenValue v)
include hv

theorem no_space : space ∉ v := fun h ↦ (hv.printable _ h).2 rfl

theorem isPlainValue : IsPlainValue v where
  printable c hc := (hv.printable c hc).1
  no_backslash := hv.no_backslash
  no_comment := hv.no_comment
  head h := hv.no_space (List.mem_of_mem_head? h)
  last h := hv.no_space (List.mem_of_getLast? h)

/-- No cut loses a blank. -/
theorem cutsOk (key : CStr) : CutsOk key v := fun i _ ↦
  ⟨fun h ↦ hv.no_space (List.mem_of_mem_drop (List.mem_of_mem_head? h)),
    fun h ↦ hv.no_space (List.mem_of_mem_take (h.mem (by simp)))⟩

theorem rdropWhile_eq : v.rdropWhile isBlank = v := rdropWhile_eq_self fun c hc ↦ by
  obtain ⟨hprint, hne⟩ := hv.printable c (List.mem_of_getLast? hc)
  rw [(printable_spec hprint).2.1, beq_eq_false_iff_ne]
  exact hne

theorem dropWhile_eq : v.dropWhile isBlank = v := by
  obtain ⟨c, w, rfl⟩ := List.exists_cons_of_ne_nil hv.ne_nil
  obtain ⟨hprint, hne⟩ := hv.printable c (by simp)
  refine List.dropWhile_cons_of_neg ?_
  rw [(printable_spec hprint).2.1]
  simpa using hne

end IsTokenValue

/-! ## Lines -/

/-- **The lines of a setting are read as `key=value`.** -/
theorem readLogical_cfgWriteWrapped (hk : IsLineKey key) (hv : IsTokenValue v)
    (hfit : wrapIndent key + 4 < cfgBufSize) (hlen : key.length + 1 + v.length < cfgBufSize)
    (file : List UInt8) (line : ℕ) :
    ∃ line', readLogical false line (cfgWriteWrapped key (some v) ++ file)
      = some (some ⟨key ++ equals :: v, 0, line'⟩, line', file) := by
  have hplain := hv.isPlainValue
  by_cases hmore : wrapCapacity key < v.length
  · rcases wrappedValue_cases hplain hmore with ⟨-, heq⟩ | ⟨hbad, -⟩
    · rw [← heq]
      conv in (cfgWriteWrapped _ _) => rw [heq]
      exact hk.readLogical_wrapped hplain hfit hlen hmore file line
    · exact absurd (hv.cutsOk key) hbad
  · have hcap : wrapIndent key + wrapCapacity key ≤ max maxColumns (wrapIndent key + 1) := by
      rw [wrapCapacity]
      split <;> omega
    have hbuf : cfgBufSize = 32768 := rfl
    have hindent : wrapIndent key = key.length + 1 := rfl
    rw [maxColumns] at hcap
    have hf := fgets_line (n := cfgBufSize - 1) (hk.isLineText_setting hplain.valueText)
      (by rw [List.length_append, List.length_cons]; omega) file
    rw [List.append_assoc _ _ [newline], List.cons_append] at hf
    have hread := hk.readLogical_setting [newline] hf (.inr rfl) hplain.valueText line
    rw [hv.rdropWhile_eq] at hread
    refine ⟨line + 1, ?_⟩
    rw [cfgWriteWrapped_short (by omega), plainLineText]
    simpa using hread

/-- The name of a section, as the writer spells it. -/
structure IsSectionName (name : CStr) : Prop where
  ne_nil : name ≠ []
  chars : ∀ c ∈ name, isKeyChar c ∨ c = colon
  /-- `section` has room for it. -/
  length_le : name.length ≤ 127

/-- The characters of a header between its brackets are of no importance to the loader. -/
theorem sectionChar_spec {c : UInt8} (h : isKeyChar c ∨ c = colon) :
    (c ≠ newline ∧ c ≠ 0) ∧ c ≠ quote ∧ c ≠ apostrophe ∧ c ≠ slash := by
  rcases h with h | rfl
  · exact ⟨⟨isKeyChar.ne h (by decide), isKeyChar.ne h (by decide)⟩,
      isKeyChar.ne h (by decide), isKeyChar.ne h (by decide), isKeyChar.ne h (by decide)⟩
  · decide

section Header

variable {name : CStr} (hname : IsSectionName name)
include hname

theorem readLogical_header (file : List UInt8) (line : ℕ) :
    readLogical false line (lbracket :: name ++ [rbracket] ++ newline :: file)
      = some (some ⟨lbracket :: name ++ [rbracket], 0, line + 1⟩, line + 1, file) := by
  have htext : IsLineText (lbracket :: name ++ [rbracket]) := fun c hc ↦ by
    rw [List.cons_append, List.mem_cons, List.mem_append, List.mem_singleton] at hc
    rcases hc with rfl | hc | rfl
    · decide
    · exact (sectionChar_spec (hname.chars c hc)).1
    · decide
  have hlen := hname.length_le
  have hf := fgets_line (n := cfgBufSize - 1) htext (by simp [cfgBufSize]; omega) file
  have htrim : (lbracket :: name ++ [rbracket] ++ [newline]).rdropWhile
      (fun c ↦ isEol c || isBlank c) = lbracket :: name ++ [rbracket] := by
    rw [List.rdropWhile_concat_pos _ _ _ (by decide),
      List.rdropWhile_concat_neg _ _ _ (by decide)]
  have hend : EndsLine (lbracket :: name ++ [rbracket]) := fun c hc ↦ by
    rw [List.getLast?_concat] at hc
    obtain rfl := Option.some.inj hc
    decide
  have hread := readLogical_eq (s := name ++ [rbracket] ++ [newline]) [] hf (by simp) (by decide)
    false line
  have hline : lbracket :: (name ++ [rbracket] ++ [newline])
      = lbracket :: name ++ [rbracket] ++ [newline] := rfl
  dsimp only at hread
  rw [List.nil_append, hline, htrim, joinContinuations_done hend] at hread
  exact hread

theorem bareLine_header (line : ℕ) : bareLine false ⟨lbracket :: name ++ [rbracket], 0, line⟩
    = (some ⟨[], lbracket :: name ++ [rbracket], false⟩, false) := by
  have hstrip := stripComments_append (s := lbracket :: name ++ [rbracket]) (fun x hx ↦ by
    rw [List.cons_append, List.mem_cons, List.mem_append, List.mem_singleton] at hx
    rcases hx with rfl | hx | rfl
    · decide
    · exact (sectionChar_spec (hname.chars x hx)).2
    · decide) []
  have htrim : (lbracket :: name ++ [rbracket]).rdropWhile isspace = lbracket :: name ++ [rbracket] :=
    List.rdropWhile_concat_neg _ _ _ (by decide)
  have hesc : isEscapedComment (lbracket :: name ++ [rbracket]) = false := by
    cases name <;> rfl
  have hcomment : isLineComment (lbracket :: name ++ [rbracket]) = false := by
    cases name <;> rfl
  rw [List.append_nil] at hstrip
  have hnil : (stripComments false none []).1 = [] := rfl
  rw [hnil, List.append_nil] at hstrip
  rw [bareLine]
  simp only [List.drop_zero, hesc, Bool.false_eq_true, if_false]
  have hdrop : (lbracket :: name ++ [rbracket]).dropWhile isspace = lbracket :: name ++ [rbracket] :=
    List.dropWhile_cons_of_neg (by decide)
  have htake : (lbracket :: name ++ [rbracket]).takeWhile isspace = [] :=
    List.takeWhile_cons_of_neg (by decide)
  rw [hdrop, htake, hcomment, hstrip, if_neg (by simp), htrim]
  rfl

/-- **A header** starts its section. -/
theorem loadLine_header (loader : Option Loader) (path : CStr) (s : LoadState) :
    loadLine dictHash env loader path ⟨[], lbracket :: name ++ [rbracket], false⟩ s
      = some { s with thisSection := name } := by
  have hcomment : isLineComment (lbracket :: name ++ [rbracket]) = false := by
    cases name <;> rfl
  have hinclude : includeKind (lbracket :: name ++ [rbracket]) = none := by
    rw [includeKind, List.cons_append, List.head?_cons,
      if_neg (c := some lbracket = some 0x21) (by decide),
      if_neg (c := some lbracket = some dot) (by decide), ite_self]
  have hheader : sectionHeader (lbracket :: name ++ [rbracket]) = name := by
    rw [sectionHeader, List.cons_append, List.tail_cons, List.take_left' (by simp),
      List.take_of_length_le hname.length_le]
  have hstar : (lbracket :: name ++ [rbracket]).head? ≠ some star := by
    rw [List.cons_append, List.head?_cons]
    decide
  rw [loadLine]
  dsimp only
  rw [if_neg (by simp), if_neg fun h ↦ hstar h.2.1, hcomment, if_neg (by simp), hinclude]
  dsimp only
  rw [if_pos ⟨rfl, List.getLast?_concat⟩, hheader]

end Header

/-! ## Files -/

/-- The assignment that a piece stands for. -/
def SavePiece.assigned : SavePiece → Option (CStr × CStr)
  | .setting _ key _ (some v) => some (key, v)
  | _ => none

/-- The line `localKey=v` of this section assigns the value to the key. -/
structure LineAssigns (sectionName key localKey v : CStr) : Prop where
  builtin : isBuiltinSection sectionName = true
  lineKey : IsLineKey localKey
  value : IsTokenValue v
  /-- The first line fits into the buffer, however the value is wrapped. -/
  indent_lt : wrapIndent localKey + 4 < cfgBufSize
  /-- So do all of them, joined. -/
  length_lt : localKey.length + 1 + v.length < cfgBufSize
  assignment_eq : assignment sectionName localKey v = some (key, v)

/-- Below a header with this name, the loader assigns to the keys of the lines what they stand
for. -/
inductive Faithful : (sectionName : CStr) → List SavePiece → Prop where
  | nil {sectionName : CStr} : Faithful sectionName []
  | blank {sectionName : CStr} {rest : List SavePiece} (hrest : Faithful sectionName rest) :
      Faithful sectionName (.blank :: rest)
  | header {sectionName keyPrefix name : CStr} {rest : List SavePiece}
      (hname : IsSectionName name) (hrest : Faithful name rest) :
      Faithful sectionName (.header keyPrefix name :: rest)
  | setting {sectionName keyPrefix key localKey v : CStr} {rest : List SavePiece}
      (hline : LineAssigns sectionName key localKey v) (hrest : Faithful sectionName rest) :
      Faithful sectionName (.setting keyPrefix key localKey (some v) :: rest)

/-- **A line of a setting** assigns its value. -/
theorem loadLine_assigns (henv : env.AllocOk) {localKey : CStr} (loader : Option Loader)
    (path : CStr) {s : LoadState} (hs : Built dictHash s.newcfg)
    (hline : LineAssigns s.thisSection key localKey v) :
    ∃ s', loadLine dictHash env loader path ⟨[], localKey ++ equals :: v, false⟩ s = some s' ∧
      Carries dictHash s s' s.thisSection [(key, v)] := by
  have hne : s.thisSection ≠ [] := fun h ↦ by
    have hbuiltin := hline.builtin
    rw [h] at hbuiltin
    revert hbuiltin
    decide
  have hitems : sectionItems s.thisSection (localKey ++ equals :: v) = [.assign key v] := by
    rw [sectionItems, if_pos hline.builtin, hline.lineKey.splitSetting_eq, hline.value.dropWhile_eq]
    dsimp only
    rw [hline.assignment_eq]
    rfl
  obtain ⟨s', hload, hcarries⟩ : ∃ s', sectionLine dictHash env path
      ⟨[], localKey ++ equals :: v, false⟩ s = some s' ∧ Carries dictHash s s' s.thisSection
        ((sectionItems s.thisSection (localKey ++ equals :: v)).flatMap
          (itemAssignments none path)) := sectionLine_carries henv hs hline.builtin none
  rw [hitems] at hcarries
  exact ⟨s', by rw [hline.lineKey.loadLine_eq v loader path hne, hload], hcarries⟩

/-- **The lines of a faithful file** carry out its assignments, in order. -/
theorem loadLines_faithful (henv : env.AllocOk) (loader : Option Loader) (path : CStr)
    {sectionName : CStr} {pieces : List SavePiece} (h : Faithful sectionName pieces) :
    ∀ (fuel : ℕ) (s : LoadState), (fileBytes pieces).length < fuel → Built dictHash s.newcfg →
      s.thisSection = sectionName → s.inComment = false →
      ∃ s', loadLines dictHash env loader path fuel (fileBytes pieces) s = some s' ∧
        Built dictHash s'.newcfg ∧ s'.newcfg.toMap
          = overlay s.newcfg.toMap ((pieces.filterMap SavePiece.assigned).map storedAs) := by
  induction h with
  | nil => exact fun fuel s _ hs _ _ ↦ ⟨s, loadLines_nil loader path fuel s, hs, rfl⟩
  | @blank sectionName rest hrest ih =>
    intro fuel s hfuel hs hsec hcom
    obtain ⟨fuel, rfl⟩ : ∃ m, fuel = m + 1 := ⟨fuel - 1, by omega⟩
    rw [fileBytes_cons, List.length_append] at hfuel
    rw [fileBytes_cons, SavePiece.text, List.singleton_append, loadLines, hcom,
      readLogical_newline]
    exact ih fuel { s with inComment := false, line := s.line + 1 }
      (by simp [SavePiece.text] at hfuel; omega) hs hsec rfl
  | @header sectionName keyPrefix name rest hname hrest ih =>
    intro fuel s hfuel hs hsec hcom
    obtain ⟨fuel, rfl⟩ : ∃ m, fuel = m + 1 := ⟨fuel - 1, by omega⟩
    rw [fileBytes_cons, List.length_append] at hfuel
    have htext : (SavePiece.header keyPrefix name).text ++ fileBytes rest
        = lbracket :: name ++ [rbracket] ++ newline :: fileBytes rest := by
      simp [SavePiece.text]
    rw [fileBytes_cons, loadLines, hcom, htext, readLogical_header hname]
    simp only [bareLine_header hname, loadLine_header hname]
    exact ih fuel { s with inComment := false, line := s.line + 1, thisSection := name }
      (by simp [SavePiece.text] at hfuel; omega) hs rfl rfl
  | @setting sectionName keyPrefix key localKey v rest hline hrest ih =>
    intro fuel s hfuel hs hsec hcom
    obtain ⟨fuel, rfl⟩ : ∃ m, fuel = m + 1 := ⟨fuel - 1, by omega⟩
    subst hsec
    rw [fileBytes_cons, List.length_append] at hfuel
    obtain ⟨line', hread⟩ := readLogical_cfgWriteWrapped hline.lineKey hline.value hline.indent_lt
      hline.length_lt (fileBytes rest) s.line
    have hbare := hline.lineKey.bareLine_eq v line'
    have htrim : v.rdropWhile isspace = v := rdropWhile_eq_self fun c hc ↦ by
      obtain ⟨hprint, hspace⟩ := hline.value.printable c (List.mem_of_getLast? hc)
      rw [(printable_spec hprint).1, beq_eq_false_iff_ne]
      exact hspace
    rw [stripComments_eq_self hline.value.no_comment, htrim] at hbare
    obtain ⟨s₁, hload, hcarries⟩ := loadLine_assigns henv loader path
      (s := { s with inComment := false, line := line' }) hs hline
    obtain ⟨s₂, hlines, hs₂, hmap⟩ := ih fuel s₁
      (by simp [SavePiece.text, cfgWriteWrapped, wrapLoop] at hfuel; omega)
      hcarries.built hcarries.thisSection hcarries.inComment
    refine ⟨s₂, ?_, hs₂, ?_⟩
    · rw [fileBytes_cons, loadLines, hcom, SavePiece.text, hread]
      simp only [hbare, hload]
      exact hlines
    · rw [hmap, hcarries.toMap, ← overlay_append]
      rfl

/-- **A faithful file is loaded as its assignments.** -/
theorem cfgLoad_faithful (henv : env.AllocOk) (path : CStr) {pieces : List SavePiece}
    (h : Faithful [] pieces) :
    ∃ d, cfgLoad dictHash (env.withFile path (fileBytes pieces)) path = some (some d) ∧
      d.toMap = lastValue ((pieces.filterMap SavePiece.assigned).map storedAs) := by
  have henv' : (env.withFile path (fileBytes pieces)).AllocOk := ⟨henv.calloc, henv.mem⟩
  generalize henv'' : env.withFile path (fileBytes pieces) = env' at henv'
  have hexists : env'.fileExists path = true := by simp [← henv'', LoadEnv.withFile]
  have hopen : env'.fopen path = some (fileBytes pieces) := by simp [← henv'', LoadEnv.withFile]
  obtain ⟨s', hlines, -, hmap⟩ := loadLines_faithful henv' (some (cfgLoadDepth dictHash env' 3)) path h
    ((fileBytes pieces).length + 1) ⟨dictNew, [], false, 0, 0, 1⟩ (Nat.lt_succ_self _)
    (show Built dictHash dictNew from built_dictNew) rfl rfl
  refine ⟨s'.newcfg, ?_, ?_⟩
  · rw [cfgLoad, cfgLoadDepth, loadFile, hexists, henv'.calloc, dictNewCall, hopen]
    simp [hlines]
  · rw [hmap]
    exact overlay_none _

end Rustyaxe
