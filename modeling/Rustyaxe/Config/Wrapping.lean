import Rustyaxe.Config.Rejoin

/-!
# When wrapping is transparent

A value is written by `cfg_write_wrapped` and loaded again, or it is loaded from a single line
`key=value`.  The two loads store the same (`WrapTransparent`) exactly if no cut loses a blank
(`CutsOk`), as long as the joined line and the longest key leave room in the buffers of the loader.
-/

set_option autoImplicit false

namespace Rustyaxe

variable {dictHash : CStr → UInt32} {env : LoadEnv} {key v : CStr}

/-- A setting on a single line. -/
def plainLineText (key v : CStr) : List UInt8 := key ++ equals :: v ++ [newline]

/-- Both files store the same value under the key. -/
def WrapTransparent (dictHash : CStr → UInt32) (env : LoadEnv) (path key v : CStr) : Prop :=
  loadedValue dictHash env path (generalHeader ++ cfgWriteWrapped key (some v)) key
    = loadedValue dictHash env path (generalHeader ++ plainLineText key v) key

/-! ## Values -/

theorem IsPlainValue.valueText (hv : IsPlainValue v) : IsValueText v := fun c hc ↦
  ⟨hv.printable c hc, fun h ↦ hv.no_backslash (h ▸ hc)⟩

/-- A beginning of a value is a value, unless it ends in a blank. -/
theorem IsPlainValue.of_isPrefix {u : CStr} (hv : IsPlainValue v) (h : u <+: v)
    (hlast : u.getLast? ≠ some space) : IsPlainValue u where
  printable c hc := hv.printable c (h.mem hc)
  no_backslash hc := hv.no_backslash (h.mem hc)
  no_comment hc := hv.no_comment (hc.trans h.isInfix)
  head := by
    cases u with
    | nil => simp
    | cons c u =>
      obtain ⟨t, rfl⟩ := h
      exact hv.head
  last := hlast

/-- Such a value is stored as it stands. -/
theorem settingText_eq_self (hv : IsPlainValue v) : settingText v = v := by
  have hspace {c : UInt8} (hc : c ∈ v) (hne : c ≠ space) :
      isspace c = false ∧ isBlank c = false := by
    obtain ⟨h1, h2, -⟩ := printable_spec (hv.printable c hc)
    rw [h1, h2, beq_eq_false_iff_ne]
    exact ⟨hne, hne⟩
  rw [settingText, stripComments_eq_self hv.no_comment, rdropWhile_eq_self]
  · cases v with
    | nil => rfl
    | cons c v =>
      refine List.dropWhile_cons_of_neg ?_
      rw [(hspace (by simp) (by simpa using hv.head)).2]
      simp
  · intro c hc
    refine (hspace (List.mem_of_getLast? hc) ?_).1
    rintro rfl
    exact hv.last hc

theorem length_settingText_le (t : CStr) : (settingText t).length ≤ t.length :=
  ((List.dropWhile_sublist _).trans
    ((List.rdropWhile_prefix _ _).sublist.trans (stripComments_sublist _ _ _))).length_le

theorem rdropWhile_isBlank_last (t : CStr) :
    (t.rdropWhile isBlank).getLast? ≠ some space := by
  intro h
  have hne : t.rdropWhile isBlank ≠ [] := by
    intro hnil
    rw [hnil] at h
    simp at h
  have hlast := List.rdropWhile_last_not isBlank t hne
  rw [List.getLast?_eq_some_getLast hne] at h
  rw [Option.some.inj h] at hlast
  exact hlast (by decide)

theorem IsLineKey.isLineText (hk : IsLineKey key) : IsLineText key := fun c hc ↦
  ⟨isKeyChar.ne (hk.chars c hc) (by decide), isKeyChar.ne (hk.chars c hc) (by decide)⟩

theorem IsLineKey.isLineText_setting (hk : IsLineKey key) {t : CStr} (ht : IsValueText t) :
    IsLineText (key ++ equals :: t) := by
  refine hk.isLineText.append fun c hc ↦ ?_
  rcases List.mem_cons.mp hc with rfl | hc
  · decide
  · exact ht.isLineText c hc

/-! ## Reading a line that is not continued -/

/-- A line that is not continued, with or without its line break. -/
theorem IsLineKey.readLogical_setting (hk : IsLineKey key) {t : CStr} (tail : CStr)
    {file rest : List UInt8}
    (hf : fgets (cfgBufSize - 1) file = some (key ++ equals :: (t ++ tail), rest))
    (htail : tail = [] ∨ tail = [newline]) (ht : IsValueText t) (line : ℕ) :
    readLogical false line file
      = some (some ⟨key ++ equals :: t.rdropWhile isBlank, 0, line + 1⟩, line + 1, rest) := by
  obtain ⟨c, krest, hcons, hc⟩ := hk.exists_cons (t ++ tail)
  have htrim : (t ++ tail).rdropWhile (fun c ↦ isEol c || isBlank c) = t.rdropWhile isBlank := by
    have hsame : t.rdropWhile (fun c ↦ isEol c || isBlank c) = t.rdropWhile isBlank :=
      rdropWhile_congr fun x hx ↦ by rw [(printable_spec (ht x hx).1).2.2.1, Bool.false_or]
    rcases htail with rfl | rfl
    · rw [List.append_nil, hsame]
    · rw [List.rdropWhile_concat_pos _ _ _ (by decide), hsame]
  have hend : EndsLine (key ++ equals :: t.rdropWhile isBlank) := by
    intro x hx
    rcases List.eq_nil_or_concat (t.rdropWhile isBlank) with h | ⟨pre, y, h⟩
    · rw [h, List.getLast?_concat] at hx
      obtain rfl : equals = x := by simpa using hx
      decide
    · rw [List.concat_eq_append] at h
      have hy : y ∈ t := (List.rdropWhile_prefix isBlank t).mem (by rw [h]; simp)
      have hlast := rdropWhile_isBlank_last t
      rw [h, List.getLast?_concat, Ne, Option.some.injEq] at hlast
      rw [h, ← List.cons_append, ← List.append_assoc, List.getLast?_concat] at hx
      obtain rfl : y = x := by simpa using hx
      obtain ⟨-, hblank, heol, -⟩ := printable_spec (ht y hy).1
      exact ⟨(ht y hy).2, heol, by rw [hblank, beq_eq_false_iff_ne]; exact hlast⟩
  rw [hcons] at hf
  rw [readLogical_eq [] hf (by simp) (startsLine.isspace hc), List.nil_append, ← hcons,
    rdropWhile_append_cons (by decide), htrim, joinContinuations_done hend]
  rfl

/-! ## The single line -/

theorem quiet_newline (key : CStr) : Quiet dictHash env key [newline] :=
  quiet_blank (quiet_nil key) fun line ↦ readLogical_newline line []

/-- What a line of a single character is when it is read. -/
theorem bareLine_single {x : UInt8} (lead : CStr) (hlead : ∀ c ∈ lead, isspace c)
    (hx : isspace x = false) (line : ℕ) :
    bareLine false ⟨lead ++ [x], lead.length, line⟩ = (none, false) ∨
      bareLine false ⟨lead ++ [x], lead.length, line⟩ = (some ⟨lead, [x], false⟩, false) := by
  have hdrop : (lead ++ [x]).dropWhile isspace = [x] := by
    rw [List.dropWhile_append_of_pos hlead, List.dropWhile_cons_of_neg (by simp [hx])]
  have htake : (lead ++ [x]).takeWhile isspace = lead := takeWhile_append_cons hlead hx []
  rw [bareLine]
  simp only [List.drop_left, isEscapedComment, Bool.false_eq_true, if_false, hdrop, htake]
  split
  · exact .inl rfl
  · refine .inr ?_
    have htrim : [x].rdropWhile isspace = [x] := by
      rw [List.rdropWhile_singleton, if_neg (by simp [hx])]
    simp [stripComments, htrim]

theorem endsLine_concat {x : UInt8} (hx : isprint x ∧ x ≠ backslash) (hspace : x ≠ space)
    (s : CStr) : EndsLine (s ++ [x]) := fun c hc ↦ by
  obtain rfl : x = c := by simpa using hc
  obtain ⟨-, hblank, heol, -⟩ := printable_spec hx.1
  exact ⟨hx.2, heol, by rw [hblank, beq_eq_false_iff_ne]; exact hspace⟩

/-- A line of a single character, with blanks before it. -/
theorem quiet_indented (henv : env.AllocOk) (hkey : key ≠ []) {x : UInt8}
    (hx : isprint x ∧ x ≠ backslash) (hspace : x ≠ space) {n : ℕ} (hn : n + 4 ≤ cfgBufSize)
    {file : List UInt8} (hfile : Quiet dictHash env key file) :
    Quiet dictHash env key (List.replicate n space ++ [x] ++ newline :: file) := by
  obtain ⟨hisspace, -, -, h4, h5⟩ := printable_spec hx.1
  have hisspace : isspace x = false := by rw [hisspace, beq_eq_false_iff_ne]; exact hspace
  have hspaces : ∀ c ∈ List.replicate n space, isspace c := fun c hc ↦ by
    rw [(List.mem_replicate.mp hc).2]
    decide
  have hline : IsLineText (List.replicate n space ++ [x]) :=
    (isLineText_replicate n).append fun c hc ↦ by
      rw [List.mem_singleton.mp hc]
      exact ⟨h5, h4⟩
  have hf := fgets_line (n := cfgBufSize - 1) hline (by simp; omega) file
  have hend := endsLine_concat hx hspace (List.replicate n space)
  have htrim : (List.replicate n space ++ [x] ++ [newline]).rdropWhile
      (fun c ↦ isEol c || isBlank c) = List.replicate n space ++ [x] := by
    obtain ⟨-, heol, hblank⟩ := hend x (by simp)
    rw [List.rdropWhile_concat_pos _ _ _ (by decide),
      List.rdropWhile_concat_neg _ _ _ (by simp [heol, hblank])]
  refine quiet_single henv hkey (List.replicate n space).length (List.replicate n space ++ [x])
    (List.replicate n space) [x] le_rfl hfile (fun line ↦ ⟨line + 1, ?_⟩)
    fun line ↦ bareLine_single _ hspaces hisspace line
  have hcons : List.replicate n space ++ [x] ++ [newline]
      = List.replicate n space ++ x :: [newline] := by simp
  rw [readLogical_eq _ (hcons ▸ hf) hspaces hisspace, ← hcons, htrim, joinContinuations_done hend]

/-- **What the single line stores.**  Its line break has to fit into the buffer as well. -/
theorem loadedValue_plain (henv : env.AllocOk) (hk : IsGeneralKey key) (hv : IsPlainValue v)
    (hne : v ≠ []) (hlen : key.length + 1 + v.length < cfgBufSize) (path : CStr) :
    loadedValue dictHash env path (generalHeader ++ plainLineText key v) key
      = some (.str (some (if key.length + 2 + v.length < cfgBufSize then v
          else v.dropLast.rdropWhile isBlank))) := by
  have hvt := hv.valueText
  have hvblank : v.rdropWhile isBlank = v := rdropWhile_eq_self fun c hc ↦ by
    rw [(printable_spec (hv.printable c (List.mem_of_getLast? hc))).2.1, beq_eq_false_iff_ne]
    rintro rfl
    exact hv.last hc
  have htext := hk.isLineKey.isLineText_setting hvt
  have hsize : (key ++ equals :: v).length = key.length + 1 + v.length := by
    rw [List.length_append, List.length_cons]
    omega
  have hbuf : cfgBufSize = 32768 := rfl
  have hclosed : (stripComments false none v).2 = false := by
    rw [stripComments_eq_self hv.no_comment]
  rcases Nat.lt_trichotomy (key.length + 1 + v.length) (cfgBufSize - 2) with hlt | heq | hgt
  · have hf := fgets_line (n := cfgBufSize - 1) htext (by omega) []
    rw [List.append_assoc, List.cons_append] at hf
    have hread := hk.isLineKey.readLogical_setting [newline] hf (.inr rfl) hvt 1
    rw [hvblank] at hread
    rw [if_pos (by omega), loadedValue_setting henv hk hv.no_backslash path
      (by simpa [plainLineText] using hread) (.inl rfl), settingText_eq_self hv]
  · have hf := fgets_full (n := cfgBufSize - 1) htext (by omega) (by decide) [newline]
    rw [List.take_of_length_le (by omega), List.drop_of_length_le (by omega), List.nil_append] at hf
    have hread := hk.isLineKey.readLogical_setting [] (by rwa [← List.append_nil v] at hf)
      (.inl rfl) hvt 1
    rw [hvblank] at hread
    rw [if_pos (by omega), loadedValue_setting henv hk hv.no_backslash path
      (by simpa [plainLineText] using hread) (.inr ⟨hclosed, fun _ _ ↦ quiet_newline key⟩),
      settingText_eq_self hv]
  · obtain ⟨t, x, rfl⟩ := List.eq_nil_or_concat v |>.resolve_left hne
    rw [List.concat_eq_append] at *
    have hxlast : x ≠ space := by simpa using hv.last
    have htv : IsValueText t := fun c hc ↦ hvt c (by simp [hc])
    have htake : (key ++ equals :: (t ++ [x])).length = (key ++ equals :: t).length + 1 := by
      simp only [List.length_append, List.length_cons, List.length_nil]
      omega
    have hcons : key ++ equals :: (t ++ [x]) = key ++ equals :: t ++ [x] := by simp
    have hf := fgets_full (n := cfgBufSize - 1) htext (by omega) (by decide) [newline]
    rw [hcons, List.take_left' (by omega), List.drop_left' (by omega)] at hf
    have hread := hk.isLineKey.readLogical_setting [] (by rw [List.append_nil]; exact hf)
      (.inl rfl) htv 1
    have hu : IsPlainValue (t.rdropWhile isBlank) :=
      hv.of_isPrefix ((List.rdropWhile_prefix _ _).trans (List.prefix_append _ _))
        (rdropWhile_isBlank_last t)
    rw [if_neg (by omega), List.dropLast_concat, loadedValue_setting henv hk hu.no_backslash path
      (by simpa [plainLineText] using hread) (.inr ⟨by rw [stripComments_eq_self hu.no_comment],
        fun _ henv' ↦ quiet_indented (n := 0) henv' hk.ne_nil (hvt x (by simp)) hxlast (by decide)
          (quiet_nil key)⟩),
      settingText_eq_self hu]

/-! ## The wrapped lines -/

/-- What the loader makes of the lines of the writer. -/
def wrappedValue (key v : CStr) : CStr :=
  rejoin key v.length (v.take (wrapChunk key)) (v.drop (wrapChunk key))

theorem isCut_first (hmore : wrapCapacity key < v.length) : IsCut key v (wrapChunk key) :=
  ⟨wrapChunk_pos key, dvd_rfl, by omega⟩

/-- **Fine cuts are all it takes.** -/
theorem wrappedValue_cases (hv : IsPlainValue v) (hmore : wrapCapacity key < v.length) :
    (CutsOk key v ∧ wrappedValue key v = v) ∨
      (¬ CutsOk key v ∧ (wrappedValue key v).length < v.length) := by
  have hpos := wrapChunk_pos key
  rcases rejoin_cases hv.valueText v.length (wrapChunk key) (by omega) (isCut_first hmore) with
    ⟨hall, heq⟩ | ⟨⟨i, hcut, hbad⟩, hlt⟩
  · refine .inl ⟨fun i hi ↦ hall i ?_ hi, heq⟩
    exact Nat.le_of_dvd hi.1 hi.2.1
  · exact .inr ⟨fun h ↦ hbad (h i hcut), hlt⟩

theorem settingText_wrappedValue_eq_iff (hv : IsPlainValue v)
    (hmore : wrapCapacity key < v.length) :
    settingText (wrappedValue key v) = v ↔ CutsOk key v := by
  rcases wrappedValue_cases hv hmore with ⟨hok, heq⟩ | ⟨hbad, hlt⟩
  · rw [heq]
    exact ⟨fun _ ↦ hok, fun _ ↦ settingText_eq_self hv⟩
  · refine ⟨fun h ↦ ?_, fun h ↦ absurd h hbad⟩
    have hle := length_settingText_le (wrappedValue key v)
    rw [h] at hle
    omega

theorem IsPlainValue.hasText_take (hv : IsPlainValue v) (hne : v ≠ []) {n : ℕ} (hn : 0 < n) :
    HasText (v.take n) := by
  obtain ⟨c, rest, rfl⟩ := List.exists_cons_of_ne_nil hne
  obtain ⟨n, rfl⟩ : ∃ m, n = m + 1 := ⟨n - 1, by omega⟩
  refine ⟨c, by simp, ?_⟩
  rw [(printable_spec (hv.printable c (by simp))).2.1, beq_eq_false_iff_ne]
  simpa using hv.head

theorem cfgWriteWrapped_short (h : v.length ≤ wrapCapacity key) :
    cfgWriteWrapped key (some v) = plainLineText key v := by
  rw [cfgWriteWrapped, plainLineText]
  dsimp only [Option.getD_some]
  rw [wrapLoop_last h, wrapLead, if_pos rfl]
  simp

theorem cfgWriteWrapped_more (hmore : wrapCapacity key < v.length) :
    cfgWriteWrapped key (some v)
      = key ++ equals :: v.take (wrapChunk key) ++ [backslash] ++ newline ::
        wrapLoop key v.length false (v.drop (wrapChunk key)) := by
  rw [cfgWriteWrapped]
  dsimp only [Option.getD_some]
  rw [wrapLoop_more hmore, wrapLead, if_pos rfl]
  simp

/-- **The wrapped lines are read as one.** -/
theorem IsLineKey.readLogical_wrapped (hk : IsLineKey key) (hv : IsPlainValue v)
    (hfit : wrapIndent key + 4 < cfgBufSize) (hlen : key.length + 1 + v.length < cfgBufSize)
    (hmore : wrapCapacity key < v.length) (file : List UInt8) (line : ℕ) :
    ∃ line', readLogical false line (cfgWriteWrapped key (some v) ++ file)
      = some (some ⟨key ++ equals :: wrappedValue key v, 0, line'⟩, line', file) := by
  have hvt := hv.valueText
  have hpos := wrapChunk_pos key
  have hchunk := wrapChunk_le key
  have hbuf : cfgBufSize = 32768 := rfl
  have hne : v ≠ [] := List.ne_nil_of_length_pos (by omega)
  have hindent : wrapIndent key = key.length + 1 := rfl
  have hline : IsLineText (key ++ equals :: v.take (wrapChunk key) ++ [backslash]) :=
    (hk.isLineText_setting (hvt.take _)).append isLineText_backslash
  have hfirst : (key ++ equals :: v.take (wrapChunk key) ++ [backslash]).length + 2
      ≤ cfgBufSize - 1 := by
    have hcap : wrapIndent key + wrapCapacity key ≤ max maxColumns (wrapIndent key + 1) := by
      rw [wrapCapacity]
      split <;> omega
    rw [maxColumns] at hcap
    simp only [List.length_append, List.length_cons, List.length_take, List.length_nil]
    omega
  have hf := fgets_line (n := cfgBufSize - 1) hline hfirst
    (wrapLoop key v.length false (v.drop (wrapChunk key)) ++ file)
  have htext : HasText (key ++ equals :: v.take (wrapChunk key)) :=
    ⟨equals, by simp, by decide⟩
  have hrest := length_le_wrapLoop key v.length (v.drop (wrapChunk key)) false
    (by rw [List.length_drop]; omega)
  obtain ⟨line', hjoin⟩ := joinContinuations_wrapLoop
    (show wrapIndent key + 4 ≤ cfgBufSize by omega) v.length
    ((wrapLoop key v.length false (v.drop (wrapChunk key)) ++ file).length + 1)
    (key ++ equals :: v.take (wrapChunk key)) (v.drop (wrapChunk key)) file (line + 1)
    (by rw [List.length_drop]; omega) (by rw [List.length_append]; omega)
    (by rw [← List.length_pos_iff, List.length_drop]; omega) (hvt.drop _)
    (by rw [List.getLast?_drop, if_neg (by omega)]; exact hv.last) htext
    (by simp only [List.length_append, List.length_cons, List.length_take, List.length_drop]; omega)
  have hassoc : key ++ equals :: v.take (wrapChunk key)
      = (key ++ [equals]) ++ v.take (wrapChunk key) := by simp
  have hleft := rejoin_append_left key (key ++ [equals]) v.length
    (v.drop (wrapChunk key)) (hv.hasText_take hne hpos)
  rw [← hassoc] at hleft
  rw [hleft] at hjoin
  have htrim : (key ++ equals :: v.take (wrapChunk key) ++ [backslash] ++ [newline]).rdropWhile
      (fun c ↦ isEol c || isBlank c) = key ++ equals :: v.take (wrapChunk key) ++ [backslash] := by
    rw [List.rdropWhile_concat_pos _ _ _ (by decide),
      List.rdropWhile_concat_neg _ _ _ (by decide)]
  obtain ⟨c, krest, hcons, hc⟩ := hk.exists_cons (v.take (wrapChunk key))
  rw [hcons] at hf htrim hjoin
  have hread := readLogical_eq (s := krest ++ [backslash] ++ [newline]) [] hf (by simp)
    (startsLine.isspace hc) false line
  dsimp only at hread
  have hline' : c :: (krest ++ [backslash] ++ [newline])
      = c :: krest ++ [backslash] ++ [newline] := rfl
  rw [List.nil_append, hline', htrim, hjoin] at hread
  refine ⟨line', ?_⟩
  rw [cfgWriteWrapped_more hmore, hcons, List.append_assoc]
  exact hread.trans (by simp [wrappedValue])

/-- **What the wrapped lines store**, if the first of them fits into the buffer. -/
theorem loadedValue_wrapped (henv : env.AllocOk) (hk : IsGeneralKey key) (hv : IsPlainValue v)
    (hfit : wrapIndent key + 4 < cfgBufSize) (hlen : key.length + 1 + v.length < cfgBufSize)
    (hmore : wrapCapacity key < v.length) (path : CStr) :
    loadedValue dictHash env path (generalHeader ++ cfgWriteWrapped key (some v)) key
      = some (.str (some (settingText (wrappedValue key v)))) := by
  obtain ⟨line', hread⟩ := hk.isLineKey.readLogical_wrapped hv hfit hlen hmore [] 1
  rw [List.append_nil] at hread
  have hback : backslash ∉ wrappedValue key v := by
    intro h
    rcases mem_rejoin h with h | h | h
    · exact hv.no_backslash (List.mem_of_mem_take h)
    · exact hv.no_backslash (List.mem_of_mem_drop h)
    · exact absurd h (by decide)
  exact loadedValue_setting henv hk hback path hread (.inl rfl)

/-! ## The last character of the buffer -/

/-- The characters that are not blanks. -/
def textCount (s : CStr) : ℕ := s.countP fun c ↦ !isspace c

theorem textCount_settingText (t : CStr) :
    textCount (settingText t) = textCount (stripComments false none t).1 := by
  rw [settingText, textCount, textCount, countP_dropWhile nonblank_of_isBlank,
    countP_rdropWhile (by simp)]

theorem textCount_wrappedValue (key : CStr) (hpos : 0 < v.length) :
    textCount (wrappedValue key v) = textCount v := by
  have hchunk := wrapChunk_pos key
  rw [textCount, wrappedValue, countP_rejoin key (by rw [List.length_drop]; omega),
    ← List.countP_append, List.take_append_drop, textCount]

/-- **The wrapped lines never store the value without its last character**: they keep all the
characters that are not blanks, or lose two of them to a comment. -/
theorem settingText_wrappedValue_ne (hv : IsPlainValue v) (hne : v ≠ []) :
    settingText (wrappedValue key v) ≠ v.dropLast.rdropWhile isBlank := by
  intro h
  have hwrapped := textCount_wrappedValue key (List.length_pos_iff.mpr hne)
  have hstored := textCount_settingText (wrappedValue key v)
  have hcut : KeptOrCut (fun c ↦ !isspace c) (wrappedValue key v)
      (stripComments false none (wrappedValue key v)) :=
    (stripComments_keptOrCut (by decide) (by decide) false none _).2 rfl
  have hlast : textCount (v.dropLast.rdropWhile isBlank) + 1 = textCount v := by
    obtain ⟨t, x, rfl⟩ := List.eq_nil_or_concat v |>.resolve_left hne
    rw [List.concat_eq_append] at *
    have hx : isspace x = false := by
      rw [(printable_spec (hv.printable x (by simp))).1, beq_eq_false_iff_ne]
      simpa using hv.last
    rw [List.dropLast_concat, textCount, textCount, countP_rdropWhile nonblank_of_isBlank,
      List.countP_append, List.countP_singleton, hx]
    rfl
  rw [h] at hstored
  rcases hcut with hkept | hcut
  · rw [hkept] at hstored
    dsimp only at hstored
    omega
  · simp only [textCount] at *
    omega

/-! ## Keys that fill the buffer -/

/-- A line that the buffer cuts off after its backslash goes on with the empty rest of the line. -/
theorem joinContinuations_cut {acc : CStr} (hend : EndsLine acc) (hacc : acc ≠ [])
    (hlen : acc.length < cfgBufSize) (fuel line : ℕ) (file : List UInt8) :
    joinContinuations (fuel + 2) (acc ++ [backslash]) (newline :: file) line
      = (acc, file, line + 1) := by
  have hf : fgets cfgBufSize (newline :: file) = some ([newline], file) :=
    fgets_line (s := []) (by simp [IsLineText]) (by simp [cfgBufSize]) file
  have hself : acc.rdropWhile isBlank = acc := rdropWhile_eq_self fun c hc ↦ (hend c hc).2.2
  have hcont : ([newline].dropWhile isspace).rdropWhile isspace = [] := by decide
  have hglue : glue acc [] = acc := by
    rw [glue, hself, if_neg, List.append_nil, List.append_nil]
    exact fun h ↦ absurd (hend _ h).2.2 (by decide)
  rw [joinContinuations_step (by rwa [hself]) hf (by rwa [hcont, hglue]), hcont, hglue,
    joinContinuations_done hend]

theorem wrapCapacity_of_le (h : maxColumns ≤ wrapIndent key) : wrapCapacity key = 1 := by
  rw [wrapCapacity, if_neg (by omega)]

theorem wrapChunk_of_le (h : maxColumns ≤ wrapIndent key) : wrapChunk key = 1 := by
  rw [wrapChunk, wrapCapacity_of_le h, if_neg (lt_irrefl _)]

/-- The rest of a line whose first character is all that fits, and the lines after it. -/
theorem quiet_cut (henv : env.AllocOk) (hkey : key ≠ []) {x : UInt8}
    (hx : isprint x ∧ x ≠ backslash) {n : ℕ} (hn : n + 4 = cfgBufSize)
    {file : List UInt8} (hfile : Quiet dictHash env key file) :
    Quiet dictHash env key
      (List.replicate n space ++ [x] ++ [backslash] ++ newline :: file) := by
  have hspaces (m : ℕ) : ∀ c ∈ List.replicate m space, isspace c := fun c hc ↦ by
    rw [(List.mem_replicate.mp hc).2]
    decide
  obtain ⟨hisspace, -, -, h4, h5⟩ := printable_spec hx.1
  have hline : IsLineText (List.replicate n space ++ [x] ++ [backslash]) :=
    ((isLineText_replicate n).append fun c hc ↦ by
      rw [List.mem_singleton.mp hc]
      exact ⟨h5, h4⟩).append isLineText_backslash
  have hsize : (List.replicate n space ++ [x] ++ [backslash]).length = cfgBufSize - 2 := by
    simp
    omega
  have hf := fgets_full (n := cfgBufSize - 1) hline (by omega) (by decide) (newline :: file)
  rw [List.take_of_length_le (by omega), List.drop_of_length_le (by omega), List.nil_append] at hf
  have htrim : (List.replicate n space ++ [x] ++ [backslash]).rdropWhile
      (fun c ↦ isEol c || isBlank c) = List.replicate n space ++ [x] ++ [backslash] :=
    List.rdropWhile_concat_neg _ _ _ (by decide)
  by_cases hspace : x = space
  · -- the line is blank up to its backslash
    have hcons : List.replicate n space ++ [x] ++ [backslash]
        = List.replicate (n + 1) space ++ backslash :: [] := by
      rw [hspace, List.replicate_succ']
    have hblank : (List.replicate (n + 1) space).rdropWhile isBlank = [] := by
      rw [List.rdropWhile_eq_nil_iff]
      intro c hc
      rw [(List.mem_replicate.mp hc).2]
      decide
    have hfn : fgets cfgBufSize (newline :: file) = some ([newline], file) :=
      fgets_line (s := []) (by simp [IsLineText]) (by simp [cfgBufSize]) file
    have hcont : ([newline].dropWhile isspace).rdropWhile isspace = [] := by decide
    refine quiet_single henv hkey (List.replicate (n + 1) space).length [] [] [] (by simp) hfile
      (fun line ↦ ⟨line + 2, ?_⟩) fun line ↦ .inr ?_
    · rw [hcons] at hf htrim ⊢
      rw [readLogical_eq _ hf (hspaces _) (by decide), htrim, List.length_cons,
        joinContinuations_blank hblank hfn (by rw [hcont]; decide), hcont,
        joinContinuations_done (fun c hc ↦ by simp at hc)]
    · simp [bareLine, isEscapedComment, isLineComment, stripComments]
  · have hisspace : isspace x = false := by rw [hisspace, beq_eq_false_iff_ne]; exact hspace
    have hend := endsLine_concat hx hspace (List.replicate n space)
    have hcons : List.replicate n space ++ [x] ++ [backslash]
        = List.replicate n space ++ x :: [backslash] := by simp
    refine quiet_single henv hkey (List.replicate n space).length (List.replicate n space ++ [x])
      (List.replicate n space) [x] le_rfl hfile (fun line ↦ ⟨line + 2, ?_⟩)
      fun line ↦ bareLine_single _ (hspaces _) hisspace line
    have htrim' := htrim
    rw [hcons] at hf htrim' ⊢
    rw [readLogical_eq _ hf (hspaces _) hisspace, htrim', ← hcons, List.length_cons,
      joinContinuations_cut hend (by simp) (by simp; omega)]

theorem IsPlainValue.take_one (hv : IsPlainValue v) : IsPlainValue (v.take 1) := by
  refine hv.of_isPrefix (List.take_prefix 1 v) ?_
  cases v with
  | nil => simp
  | cons c v => simpa using hv.head

theorem IsPlainValue.rdropWhile_head {c : UInt8} {w : CStr} (hv : IsPlainValue (c :: w)) :
    [c].rdropWhile isBlank = [c] := by
  have hc : isBlank c = false := by
    rw [(printable_spec (hv.printable c (by simp))).2.1, beq_eq_false_iff_ne]
    simpa using hv.head
  rw [List.rdropWhile_singleton, if_neg (by simp [hc])]

/-- **With the longest key but one, the buffer ends after the first backslash**, and only the first
character is stored. -/
theorem loadedValue_wrapped_cut (henv : env.AllocOk) (hk : IsGeneralKey key) (hv : IsPlainValue v)
    (hfit : wrapIndent key + 4 = cfgBufSize) (hlen : key.length + 1 + v.length < cfgBufSize)
    (hmore : 1 < v.length) (path : CStr) :
    loadedValue dictHash env path (generalHeader ++ cfgWriteWrapped key (some v)) key
      = some (.str (some (v.take 1))) := by
  have hbuf : cfgBufSize = 32768 := rfl
  have hindent : wrapIndent key = key.length + 1 := rfl
  have hwide : maxColumns ≤ wrapIndent key := by rw [maxColumns]; omega
  have hvt := hv.valueText
  have hfile := cfgWriteWrapped_more
    (show wrapCapacity key < v.length by rw [wrapCapacity_of_le hwide]; omega)
  rw [wrapChunk_of_le hwide] at hfile
  have hquiet (env' : LoadEnv) (henv' : env'.AllocOk) :
      Quiet dictHash env' key (wrapLoop key v.length false (v.drop 1)) := by
    have hlast {x : UInt8} (hx : isprint x ∧ x ≠ backslash) (hspace : x ≠ space) (fuel : ℕ) :
        Quiet dictHash env' key (wrapLoop key (fuel + 1) false [x]) := by
      have h := quiet_indented henv' hk.ne_nil hx hspace (n := wrapIndent key) (by omega)
        (show Quiet dictHash env' key [] from quiet_nil key)
      rwa [wrapLoop_last (by rw [wrapCapacity_of_le hwide]; simp), wrapLead, if_neg (by simp)]
    rcases (show v.length = 2 ∨ v.length = 3 by omega) with htwo | hthree
    · obtain ⟨c, x, rfl⟩ := List.length_eq_two.mp htwo
      exact hlast (hvt x (by simp)) (by simpa using hv.last) 1
    · obtain ⟨c, x, y, rfl⟩ := List.length_eq_three.mp hthree
      have h := quiet_cut henv' hk.ne_nil (hvt x (by simp)) hfit
        (hlast (hvt y (by simp)) (by simpa using hv.last) 1)
      have hmore' : wrapCapacity key < [x, y].length := by rw [wrapCapacity_of_le hwide]; simp
      show Quiet dictHash env' key (wrapLoop key 3 false [x, y])
      rw [wrapLoop_more hmore', wrapLead, if_neg (by simp), wrapChunk_of_le hwide]
      exact h
  obtain ⟨c, w, rfl⟩ := List.exists_cons_of_length_pos (show 0 < v.length by omega)
  have hc : c ≠ space := by simpa using hv.head
  have htake : (c :: w).take 1 = [c] := rfl
  rw [htake] at hfile ⊢
  have hsize : (key ++ equals :: [c] ++ [backslash]).length = cfgBufSize - 2 := by
    simp
    omega
  have hline : IsLineText (key ++ equals :: [c] ++ [backslash]) :=
    (hk.isLineKey.isLineText_setting (htake ▸ hvt.take 1)).append isLineText_backslash
  have hf := fgets_full (n := cfgBufSize - 1) hline (by omega) (by decide)
    (newline :: wrapLoop key (c :: w).length false ((c :: w).drop 1))
  have hdrop : (key ++ equals :: [c] ++ [backslash]).drop (cfgBufSize - 1 - 1) = [] :=
    List.drop_of_length_le (by omega)
  rw [List.take_of_length_le (by omega), hdrop, List.nil_append, ← hfile] at hf
  have hend : EndsLine (key ++ equals :: [c]) := by
    have h := endsLine_concat (hvt c (by simp)) hc (key ++ [equals])
    simpa using h
  have hread : readLogical false 1 (cfgWriteWrapped key (some (c :: w)))
      = some (some ⟨key ++ equals :: [c], 0, 3⟩, 3,
          wrapLoop key (c :: w).length false ((c :: w).drop 1)) := by
    have htrim : (key ++ equals :: [c] ++ [backslash]).rdropWhile
        (fun c ↦ isEol c || isBlank c) = key ++ equals :: [c] ++ [backslash] :=
      List.rdropWhile_concat_neg _ _ _ (by decide)
    have hcut := joinContinuations_cut hend (by simp) (by simp at hlen ⊢; omega)
      (wrapLoop key (c :: w).length false ((c :: w).drop 1)).length 2
      (wrapLoop key (c :: w).length false ((c :: w).drop 1))
    obtain ⟨k, krest, hcons, hkc⟩ := hk.isLineKey.exists_cons [c]
    rw [hcons] at hf htrim hcut
    rw [readLogical_eq (s := krest ++ [backslash]) [] hf (by simp) (startsLine.isspace hkc)]
    dsimp only
    rw [List.nil_append, ← List.cons_append, htrim, List.length_cons, hcut, hcons]
    rfl
  have hvc : IsPlainValue [c] := hv.take_one
  rw [loadedValue_setting henv hk hvc.no_backslash path hread
    (.inr ⟨by rw [stripComments_eq_self hvc.no_comment], hquiet⟩), settingText_eq_self hvc]

/-- **With the longest key that can be wrapped, the buffer ends before the first backslash**, and
again only the first character is stored. -/
theorem loadedValue_wrapped_last (henv : env.AllocOk) (hk : IsGeneralKey key) (hv : IsPlainValue v)
    (hfit : wrapIndent key + 3 = cfgBufSize) (hlen : key.length + 1 + v.length < cfgBufSize)
    (hmore : 1 < v.length) (path : CStr) :
    loadedValue dictHash env path (generalHeader ++ cfgWriteWrapped key (some v)) key
      = some (.str (some (v.take 1))) := by
  have hbuf : cfgBufSize = 32768 := rfl
  have hindent : wrapIndent key = key.length + 1 := rfl
  have hwide : maxColumns ≤ wrapIndent key := by rw [maxColumns]; omega
  have hvt := hv.valueText
  have hfile := cfgWriteWrapped_more
    (show wrapCapacity key < v.length by rw [wrapCapacity_of_le hwide]; omega)
  rw [wrapChunk_of_le hwide] at hfile
  obtain ⟨c, x, rfl⟩ : ∃ c x, v = [c, x] := List.length_eq_two.mp (by omega)
  have hx : x ≠ space := by simpa using hv.last
  have hxt := hvt x (by simp)
  have hcap : [x].length ≤ wrapCapacity key := by rw [wrapCapacity_of_le hwide]; simp
  have hrest : wrapLoop key [c, x].length false ([c, x].drop 1)
      = List.replicate (wrapIndent key) space ++ [x] ++ newline :: [] := by
    show wrapLoop key 2 false [x] = _
    rw [wrapLoop_last hcap, wrapLead, if_neg (by simp)]
  have hquiet (env' : LoadEnv) (henv' : env'.AllocOk) : Quiet dictHash env' key
      ([backslash] ++ newline :: wrapLoop key [c, x].length false ([c, x].drop 1)) := by
    have hf : fgets (cfgBufSize - 1)
        ([backslash] ++ newline :: wrapLoop key [c, x].length false ([c, x].drop 1))
          = some ([] ++ backslash :: [newline], wrapLoop key [c, x].length false ([c, x].drop 1)) :=
      fgets_line isLineText_backslash (by simp [cfgBufSize]) _
    have htrim : ([] ++ backslash :: [newline]).rdropWhile (fun c ↦ isEol c || isBlank c)
        = [] ++ [backslash] := by decide
    have hlinex : IsLineText (List.replicate (wrapIndent key) space ++ [x]) :=
      (isLineText_replicate _).append (IsValueText.isLineText fun c hc ↦ by
        rw [List.mem_singleton.mp hc]
        exact hxt)
    have hfx := fgets_line (n := cfgBufSize) hlinex (by simp; omega) []
    have hspace : isspace x = false := by
      rw [(printable_spec hxt.1).1, beq_eq_false_iff_ne]
      exact hx
    have hcont := trim_contbuf [x] (wrapIndent key) ⟨x, rfl, hspace⟩
    rw [List.dropWhile_cons_of_neg (by simp [hspace])] at hcont
    refine quiet_single henv' hk.ne_nil 0 [x] [] [x] le_rfl (quiet_nil key)
      (fun line ↦ ⟨line + 2, ?_⟩) fun line ↦ bareLine_single [] (by simp) hspace line
    rw [readLogical_eq [] hf (by simp) (by decide), htrim, hrest]
    have hlen' : (List.replicate (wrapIndent key) space ++ [x] ++ [newline]).length
        = wrapIndent key + 1 + 1 := by simp
    have hend : EndsLine [x] := endsLine_concat hxt hx []
    rw [hlen', joinContinuations_blank (List.rdropWhile_nil _) hfx
      (by rw [hcont]; simp [cfgBufSize]), hcont, joinContinuations_done hend]
    rfl
  have hct : IsValueText [c] := fun d hd ↦ by
    rw [List.mem_singleton.mp hd]
    exact hvt c (by simp)
  have hsize : (key ++ equals :: [c]).length = cfgBufSize - 2 := by
    simp
    omega
  have hline : IsLineText (key ++ equals :: [c] ++ [backslash]) :=
    (hk.isLineKey.isLineText_setting hct).append isLineText_backslash
  have hf := fgets_full (n := cfgBufSize - 1) hline
    (by rw [List.length_append, hsize]; simp; omega) (by decide)
    (newline :: wrapLoop key [c, x].length false ([c, x].drop 1))
  rw [List.take_left' (by omega), List.drop_left' (by omega)] at hf
  have hvc : IsPlainValue [c] := hv.take_one
  have hread := hk.isLineKey.readLogical_setting [] hf (.inl rfl) hct 1
  rw [hv.rdropWhile_head] at hread
  have hfile' : cfgWriteWrapped key (some [c, x])
      = key ++ equals :: [c] ++ [backslash] ++ newline ::
        wrapLoop key [c, x].length false ([c, x].drop 1) := hfile
  rw [← hfile'] at hread
  rw [loadedValue_setting henv hk hvc.no_backslash path hread
    (.inr ⟨by rw [stripComments_eq_self hvc.no_comment], hquiet⟩), settingText_eq_self hvc]
  rfl

/-! ## The result -/

/-- When the two loads agree: the value fits on one line; or no cut loses a blank, and the joined
line and the key leave room for what follows them in the buffer; or the buffer cuts the value off
at the same place in both files. -/
def Survives (key v : CStr) : Prop :=
  v.length ≤ wrapCapacity key ∨
    (wrapIndent key + 4 < cfgBufSize ∧ key.length + 2 + v.length < cfgBufSize ∧ CutsOk key v) ∨
    (wrapIndent key + 4 = cfgBufSize ∧ v.length = 3 ∧ v[1]? = some space) ∨
    wrapIndent key + 3 = cfgBufSize

theorem IsPlainValue.rdropWhile_take_one {c x y : UInt8} (hv : IsPlainValue [c, x, y]) :
    [c, x].rdropWhile isBlank = [c] ↔ x = space := by
  rw [show [c, x] = [c] ++ [x] from rfl, List.rdropWhile_concat, hv.rdropWhile_head,
    (printable_spec (hv.printable x (by simp))).2.1]
  by_cases h : x = space <;> simp [h]

theorem some_str_inj {a b : CStr} : some (DictValue.str (some a)) = some (.str (some b)) ↔ a = b := by
  simp

/-- The case of a wrapped value with room in the buffers. -/
theorem wrapTransparent_iff_cutsOk (henv : env.AllocOk) (path : CStr) (hk : IsGeneralKey key)
    (hv : IsPlainValue v) (hfit : wrapIndent key + 4 < cfgBufSize)
    (hroom : key.length + 2 + v.length < cfgBufSize) (hmore : wrapCapacity key < v.length) :
    WrapTransparent dictHash env path key v ↔ CutsOk key v := by
  have hne : v ≠ [] := List.ne_nil_of_length_pos (by omega)
  rw [WrapTransparent, loadedValue_wrapped henv hk hv hfit (by omega) hmore path,
    loadedValue_plain henv hk hv hne (by omega) path, if_pos hroom, some_str_inj,
    settingText_wrappedValue_eq_iff hv hmore]

/-- A value that is cut before a blank. -/
def blankAtCut : CStr := List.replicate 77 0x61 ++ [space, 0x62]

theorem isPlainValue_blankAtCut : IsPlainValue blankAtCut :=
  ⟨by decide +kernel, by decide, by decide +kernel, by decide +kernel, by decide +kernel⟩

theorem isGeneralKey_k : IsGeneralKey (lit "k") := ⟨by decide, by decide +kernel, by decide⟩

theorem not_wrapTransparent_blankAtCut :
    ¬ WrapTransparent dictHashMurmur bareEnv (lit "/etc/rig.cfg") (lit "k") blankAtCut := by
  rw [wrapTransparent_iff_cutsOk allocOk_bareEnv _ isGeneralKey_k isPlainValue_blankAtCut
    (by decide) (by decide) (by decide)]
  intro h
  exact (h 77 ⟨by decide, by decide, by decide⟩).1 (by decide)

/-- **Wrapping is transparent exactly if no blank is lost at a cut**, up to the lines that fill
the buffer of the loader. -/
theorem wrapTransparent_iff (henv : env.AllocOk) (path : CStr) (hk : IsGeneralKey key)
    (hv : IsPlainValue v) (hlen : (key ++ equals :: v).length < cfgBufSize) :
    WrapTransparent dictHash env path key v ↔ Survives key v := by
  have hbuf : cfgBufSize = 32768 := rfl
  have hindent : wrapIndent key = key.length + 1 := rfl
  replace hlen : key.length + 1 + v.length < cfgBufSize := by
    rw [List.length_append, List.length_cons] at hlen
    omega
  by_cases hshort : v.length ≤ wrapCapacity key
  · exact iff_of_true (by rw [WrapTransparent, cfgWriteWrapped_short hshort]) (.inl hshort)
  have hcap := wrapCapacity_pos key
  have hne : v ≠ [] := List.ne_nil_of_length_pos (by omega)
  have hplain : loadedValue dictHash env path (generalHeader ++ plainLineText key v) key = _ :=
    loadedValue_plain henv hk hv hne hlen path
  rw [Survives]
  rcases Nat.lt_trichotomy (wrapIndent key + 4) cfgBufSize with hfit | hfit | hfit
  · by_cases hroom : key.length + 2 + v.length < cfgBufSize
    · rw [wrapTransparent_iff_cutsOk henv path hk hv hfit hroom (by omega)]
      refine ⟨fun h ↦ .inr (.inl ⟨hfit, hroom, h⟩), ?_⟩
      rintro (h | ⟨-, -, h⟩ | ⟨h, -⟩ | h)
      · exact absurd h hshort
      · exact h
      · omega
      · omega
    · rw [WrapTransparent, loadedValue_wrapped henv hk hv hfit hlen (by omega) path, hplain,
        some_str_inj, if_neg hroom]
      refine iff_of_false (settingText_wrappedValue_ne hv hne) ?_
      rintro (h | ⟨-, h, -⟩ | ⟨h, -⟩ | h)
      · exact hshort h
      · exact hroom h
      · omega
      · omega
  · -- the buffer ends after the first backslash
    rw [WrapTransparent, loadedValue_wrapped_cut henv hk hv hfit hlen (by omega) path, hplain,
      some_str_inj]
    have hor : (v.length ≤ wrapCapacity key ∨
        (wrapIndent key + 4 < cfgBufSize ∧ key.length + 2 + v.length < cfgBufSize ∧ CutsOk key v) ∨
        (wrapIndent key + 4 = cfgBufSize ∧ v.length = 3 ∧ v[1]? = some space) ∨
        wrapIndent key + 3 = cfgBufSize) ↔ v.length = 3 ∧ v[1]? = some space := by
      refine ⟨?_, fun h ↦ .inr (.inr (.inl ⟨hfit, h⟩))⟩
      rintro (h | ⟨h, -⟩ | ⟨-, h⟩ | h)
      · exact absurd h hshort
      · omega
      · exact h
      · omega
    rw [hor]
    rcases (show v.length = 2 ∨ v.length = 3 by omega) with htwo | hthree
    · obtain ⟨c, x, rfl⟩ := List.length_eq_two.mp htwo
      rw [if_pos (by simp; omega)]
      simp
    · obtain ⟨c, x, y, rfl⟩ := List.length_eq_three.mp hthree
      rw [if_neg (by simp; omega)]
      have h := hv.rdropWhile_take_one
      simpa [eq_comm] using h
  · -- the buffer ends before the first backslash
    have hfit' : wrapIndent key + 3 = cfgBufSize := by omega
    refine iff_of_true ?_ (.inr (.inr (.inr hfit')))
    rw [WrapTransparent, loadedValue_wrapped_last henv hk hv hfit' hlen (by omega) path, hplain,
      some_str_inj, if_neg (by omega)]
    obtain ⟨c, x, rfl⟩ := List.length_eq_two.mp (show v.length = 2 by omega)
    exact hv.rdropWhile_head.symm

theorem wrapTransparent_iff_long :
    WrapTransparent dictHashMurmur bareEnv (lit "/etc/rig.cfg") (lit "k") (List.replicate 100 0x61) ↔
      Survives (lit "k") (List.replicate 100 0x61) :=
  wrapTransparent_iff allocOk_bareEnv _ isGeneralKey_k
    ⟨by decide +kernel, by decide, by decide +kernel, by decide +kernel, by decide +kernel⟩ (by decide)

end Rustyaxe
