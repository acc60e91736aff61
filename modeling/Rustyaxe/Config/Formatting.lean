import Rustyaxe.Config.SaveLoad

/-!
# Values with formatting codes

The loader expands the backslash escapes in the values of the formatting keys, and the writer puts
the expanded text back into the file as it is.  The next load expands it again.  So a value is
stable exactly if its expansion expands to itself, and whether it does is decided by its runs of
backslashes (`escapesSettle`): a literal backslash, written as two, must not end up in front of a
character that would make it an escape again.
-/

set_option autoImplicit false

namespace Rustyaxe

variable {dictHash : CStr → UInt32}

/-- A value without blanks and without comments, which is not continued. -/
structure IsFormatText (v : CStr) : Prop where
  chars : ∀ c ∈ v, c ≠ 0 ∧ isspace c = false
  no_comment : ¬ [slash, star] <:+: v
  last : v.getLast? ≠ some backslash

/-- Loading `key=v` stores a value, which is still there when what has been loaded is saved and
loaded again. -/
def FormatStable (dictHash : CStr → UInt32) (env : SaveEnv) (lenv : LoadEnv) (fs : FileSystem)
    (path key v : CStr) : Prop :=
  ∃ d w, cfgLoad dictHash (lenv.withFile path (generalHeader ++ plainLineText key v)) path
      = some (some d) ∧ d.toMap key = some (.str (some w)) ∧
    ∃ fs' file d', cfgSaveOverrides dictHash env fs d path = some (true, fs') ∧
      fs' path = some file ∧
      cfgLoad dictHash (lenv.withFile path (fileBytes file)) path = some (some d') ∧
      d'.toMap key = some (.str (some w))

/-! ## Runs of backslashes -/

/-- A run of backslashes in front of this character expands to something that no longer expands. -/
def settledRun (run : ℕ) (c : UInt8) : Bool :=
  run ≤ 1 || run == 2 && (formatControl c).isNone || run == 3 && (formatControl c).isSome

/-- All the runs of the text do; `run` backslashes stand in front of it. -/
def escapesSettle : (run : ℕ) → CStr → Bool
  | _, [] => true
  | run, c :: v =>
    if c = backslash then escapesSettle (run + 1) v else settledRun run c && escapesSettle 0 v

theorem escapesSettle_replicate {c : UInt8} (hc : c ≠ backslash) (v : CStr) :
    ∀ n run : ℕ, escapesSettle run (List.replicate n backslash ++ c :: v)
      = (settledRun (run + n) c && escapesSettle 0 v)
  | 0, run => by rw [List.replicate_zero, List.nil_append, escapesSettle, if_neg hc, Nat.add_zero]
  | n + 1, run => by
    rw [List.replicate_succ, List.cons_append, escapesSettle, if_pos rfl,
      escapesSettle_replicate hc v n (run + 1), Nat.add_right_comm, Nat.add_assoc]

/-- A text that does not end in a backslash begins with a run of backslashes and a character. -/
theorem exists_run {v : CStr} (hne : v ≠ []) (hlast : v.getLast? ≠ some backslash) :
    ∃ n c rest, v = List.replicate n backslash ++ c :: rest ∧ c ≠ backslash ∧
      rest.getLast? ≠ some backslash := by
  induction v with
  | nil => exact absurd rfl hne
  | cons b v ih =>
    by_cases hb : b = backslash
    · subst hb
      have hv : v ≠ [] := by
        rintro rfl
        exact hlast rfl
      obtain ⟨n, c, rest, rfl, hc, hrest⟩ := ih hv
        (by rwa [List.getLast?_cons_of_ne_nil hv] at hlast)
      exact ⟨n + 1, c, rest, rfl, hc, hrest⟩
    · refine ⟨0, b, v, rfl, hb, fun h ↦ hlast ?_⟩
      cases v with
      | nil => cases h
      | cons c v => rwa [List.getLast?_cons_cons]

/-! ## The expansion -/

/-- A control code is none of the characters that matter here. -/
theorem formatControl_spec {c control : UInt8} (h : formatControl c = some control) :
    control ≠ backslash ∧ control ≠ star ∧ control ≠ slash ∧ control ≠ 0 ∧
      isspace control = false ∧ formatControl control = none := by
  have hall : (formatControl c).all fun control ↦ control ≠ backslash ∧ control ≠ star ∧
      control ≠ slash ∧ control ≠ 0 ∧ isspace control = false ∧ formatControl control = none := by
    refine forall_byte ?_ c
    decide +kernel
  rw [h, Option.all_some] at hall
  exact of_decide_eq_true hall

theorem cfgExpandFormatEscapes_cons {c : UInt8} (hc : c ≠ backslash) (v : CStr) :
    cfgExpandFormatEscapes (c :: v) = c :: cfgExpandFormatEscapes v := by
  cases v with
  | nil => rfl
  | cons d v => rw [cfgExpandFormatEscapes, if_neg hc]

theorem cfgExpandFormatEscapes_pair (v : CStr) :
    cfgExpandFormatEscapes (backslash :: backslash :: v)
      = backslash :: cfgExpandFormatEscapes v := by
  rw [cfgExpandFormatEscapes, if_pos rfl, if_pos rfl]

theorem cfgExpandFormatEscapes_escape {c : UInt8} (hc : c ≠ backslash) (v : CStr) :
    cfgExpandFormatEscapes (backslash :: c :: v)
      = (match formatControl c with
        | some control => [control]
        | none => [backslash, c]) ++ cfgExpandFormatEscapes v := by
  rw [cfgExpandFormatEscapes, if_pos rfl, if_neg hc]
  cases formatControl c with
  | some control => rfl
  | none =>
    dsimp only
    rw [cfgExpandFormatEscapes_cons hc]
    rfl

/-- What a run of backslashes and the character after it become. -/
def expandRun (n : ℕ) (c : UInt8) : CStr :=
  List.replicate (n / 2) backslash ++
    if n % 2 = 0 then [c]
    else
      match formatControl c with
      | some control => [control]
      | none => [backslash, c]

theorem cfgExpandFormatEscapes_run {c : UInt8} (hc : c ≠ backslash) (v : CStr) :
    ∀ n : ℕ, cfgExpandFormatEscapes (List.replicate n backslash ++ c :: v)
      = expandRun n c ++ cfgExpandFormatEscapes v
  | 0 => cfgExpandFormatEscapes_cons hc v
  | 1 => cfgExpandFormatEscapes_escape hc v
  | n + 2 => by
    rw [List.replicate_succ, List.replicate_succ, List.cons_append, List.cons_append,
      cfgExpandFormatEscapes_pair, cfgExpandFormatEscapes_run hc v n, expandRun, expandRun,
      Nat.add_div_right n (by decide), Nat.add_mod_right, List.replicate_succ]
    rfl

/-- A run becomes a shorter run, in front of the same character or of a control code.  The runs
that settle are those that become none, or a single backslash that escapes nothing. -/
theorem expandRun_eq (n : ℕ) {c : UInt8} (hc : c ≠ backslash) :
    ∃ m c', expandRun n c = List.replicate m backslash ++ [c'] ∧ c' ≠ backslash ∧
      (c' = c ∨ formatControl c = some c') ∧
      (settledRun n c = true ↔ m = 0 ∨ m = 1 ∧ formatControl c' = none) := by
  rw [expandRun, settledRun]
  rcases Nat.mod_two_eq_zero_or_one n with hn | hn
  · refine ⟨n / 2, c, by rw [if_pos hn], hc, .inl rfl, ?_⟩
    cases formatControl c <;> simp <;> omega
  · rw [if_neg (by omega)]
    cases hcontrol : formatControl c with
    | some control =>
      obtain ⟨hne, -, -, -, -, hnone⟩ := formatControl_spec hcontrol
      refine ⟨n / 2, control, rfl, hne, .inr rfl, ?_⟩
      simp [hnone]
      omega
    | none =>
      refine ⟨n / 2 + 1, c, ?_, hc, .inl rfl, ?_⟩
      · rw [List.replicate_succ', List.append_assoc]
        rfl
      · simp [hcontrol]
        omega

/-- A run that expands to itself is none, or a single backslash that escapes nothing. -/
theorem expandRun_eq_self_iff {n : ℕ} {c : UInt8} :
    expandRun n c = List.replicate n backslash ++ [c] ↔ n = 0 ∨ n = 1 ∧ formatControl c = none := by
  constructor
  · intro h
    have hlen := congrArg List.length h
    rw [expandRun, List.length_append, List.length_append, List.length_replicate,
      List.length_replicate, List.length_singleton] at hlen
    cases hcontrol : formatControl c with
    | some control =>
      have hzero : n = 0 := by
        rw [hcontrol] at hlen
        split at hlen <;> simp at hlen <;> omega
      exact .inl hzero
    | none =>
      have hone : n ≤ 1 := by
        rw [hcontrol] at hlen
        split at hlen <;> simp at hlen <;> omega
      exact (Nat.le_one_iff_eq_zero_or_eq_one.mp hone).imp_right fun h ↦ ⟨h, rfl⟩
  · rintro (rfl | ⟨rfl, hnone⟩)
    · rfl
    · simp [expandRun, hnone]

/-- A text that begins with a run expands to itself if the run and the rest do. -/
theorem expand_run_eq_self_iff {n : ℕ} {c : UInt8} (hc : c ≠ backslash) (v : CStr) :
    cfgExpandFormatEscapes (List.replicate n backslash ++ c :: v)
        = List.replicate n backslash ++ c :: v
      ↔ (n = 0 ∨ n = 1 ∧ formatControl c = none) ∧ cfgExpandFormatEscapes v = v := by
  rw [← expandRun_eq_self_iff, cfgExpandFormatEscapes_run hc]
  have hsplit : List.replicate n backslash ++ c :: v = (List.replicate n backslash ++ [c]) ++ v := by
    simp
  rw [hsplit]
  constructor
  · intro h
    -- neither part can be longer than what it came from
    have hrun := cfgExpandFormatEscapes_length_le (List.replicate n backslash ++ [c])
    have hrest := cfgExpandFormatEscapes_length_le v
    have hnil : cfgExpandFormatEscapes [] = [] := rfl
    rw [cfgExpandFormatEscapes_run hc, hnil, List.append_nil] at hrun
    have hlen := congrArg List.length h
    rw [List.length_append, @List.length_append _ _ v] at hlen
    exact List.append_inj h (by omega)
  · rintro ⟨h1, h2⟩
    rw [h1, h2]

/-- **The expansion expands to itself** exactly if all the runs settle. -/
theorem expand_expand_iff : ∀ {v : CStr}, v.getLast? ≠ some backslash →
    (cfgExpandFormatEscapes (cfgExpandFormatEscapes v) = cfgExpandFormatEscapes v
      ↔ escapesSettle 0 v = true) := by
  intro v
  induction hlen : v.length using Nat.strong_induction_on generalizing v with
  | _ len ih =>
    intro hlast
    by_cases hne : v = []
    · subst hne
      exact iff_of_true rfl rfl
    · obtain ⟨n, c, rest, rfl, hc, hrest⟩ := exists_run hne hlast
      obtain ⟨m, c', hrun, hc', -, hsettled⟩ := expandRun_eq n hc
      have hih := ih rest.length (by rw [← hlen]; simp; omega) rfl hrest
      have happend : ∀ t : CStr, List.replicate m backslash ++ [c'] ++ t
          = List.replicate m backslash ++ c' :: t := by simp
      rw [cfgExpandFormatEscapes_run hc, hrun, happend, expand_run_eq_self_iff hc', hih,
        escapesSettle_replicate hc, Nat.zero_add, Bool.and_eq_true, hsettled]

/-! ## What the expansion keeps -/

theorem mem_cfgExpandFormatEscapes : ∀ {v : CStr} {x : UInt8}, x ∈ cfgExpandFormatEscapes v →
    x ∈ v ∨ ∃ c, formatControl c = some x
  | [], _, h => .inl h
  | [_], _, h => .inl h
  | b :: c :: v, x, h => by
    by_cases hb : b = backslash
    · subst hb
      by_cases hc : c = backslash
      · subst hc
        rw [cfgExpandFormatEscapes_pair, List.mem_cons] at h
        rcases h with rfl | h
        · exact .inl (by simp)
        · exact (mem_cfgExpandFormatEscapes h).imp (fun h ↦ by simp [h]) id
      · rw [cfgExpandFormatEscapes_escape hc, List.mem_append] at h
        rcases h with h | h
        · cases hcontrol : formatControl c with
          | some control =>
            rw [hcontrol, List.mem_singleton] at h
            exact .inr ⟨c, by rw [hcontrol, h]⟩
          | none =>
            rw [hcontrol] at h
            exact .inl (List.mem_append_left v h)
        · exact (mem_cfgExpandFormatEscapes h).imp (fun h ↦ by simp [h]) id
    · rw [cfgExpandFormatEscapes_cons hb, List.mem_cons] at h
      rcases h with rfl | h
      · exact .inl (by simp)
      · exact (mem_cfgExpandFormatEscapes h).imp (fun h ↦ List.mem_cons_of_mem _ h) id

theorem head_cfgExpandFormatEscapes {v : CStr} (h : (cfgExpandFormatEscapes v).head? = some star) :
    v.head? = some star := by
  rcases v with _ | ⟨b, _ | ⟨c, v⟩⟩
  · exact h
  · exact h
  · by_cases hb : b = backslash
    · subst hb
      by_cases hc : c = backslash
      · rw [hc, cfgExpandFormatEscapes_pair] at h
        exact h
      · rw [cfgExpandFormatEscapes_escape hc] at h
        cases hcontrol : formatControl c with
        | some control =>
          rw [hcontrol] at h
          exact absurd (Option.some.inj h) (formatControl_spec hcontrol).2.1
        | none =>
          rw [hcontrol] at h
          exact absurd (Option.some.inj h) (by decide)
    · rw [cfgExpandFormatEscapes_cons hb] at h
      exact h

/-- The expansion does not put the delimiter of a comment together. -/
theorem infix_of_cfgExpandFormatEscapes : ∀ {v : CStr},
    [slash, star] <:+: cfgExpandFormatEscapes v → [slash, star] <:+: v
  | [], h => h
  | [_], h => h
  | b :: c :: v, h => by
    by_cases hb : b = backslash
    · subst hb
      by_cases hc : c = backslash
      · subst hc
        rw [cfgExpandFormatEscapes_pair, List.infix_cons_iff] at h
        rcases h with h | h
        · exact absurd (List.cons_prefix_cons.mp h).1 (by decide)
        · exact List.infix_cons (List.infix_cons (infix_of_cfgExpandFormatEscapes h))
      · have hrest : cfgExpandFormatEscapes (backslash :: c :: v)
            = backslash :: cfgExpandFormatEscapes (c :: v) ∨ ∃ control,
              formatControl c = some control ∧ cfgExpandFormatEscapes (backslash :: c :: v)
                = control :: cfgExpandFormatEscapes v := by
          rw [cfgExpandFormatEscapes_escape hc, cfgExpandFormatEscapes_cons hc]
          cases hcontrol : formatControl c with
          | some control => exact .inr ⟨control, rfl, rfl⟩
          | none => exact .inl rfl
        rcases hrest with heq | ⟨control, hcontrol, heq⟩
        · rw [heq, List.infix_cons_iff] at h
          rcases h with h | h
          · exact absurd (List.cons_prefix_cons.mp h).1 (by decide)
          · exact List.infix_cons (infix_of_cfgExpandFormatEscapes h)
        · rw [heq, List.infix_cons_iff] at h
          rcases h with h | h
          · exact absurd (List.cons_prefix_cons.mp h).1.symm (formatControl_spec hcontrol).2.2.1
          · exact List.infix_cons (List.infix_cons (infix_of_cfgExpandFormatEscapes h))
    · rw [cfgExpandFormatEscapes_cons hb, List.infix_cons_iff] at h
      rcases h with h | h
      · obtain ⟨rfl, t, ht⟩ := List.cons_prefix_cons.mp h
        have hhead : (c :: v).head? = some star := head_cfgExpandFormatEscapes (by rw [← ht]; rfl)
        obtain rfl : c = star := Option.some.inj hhead
        exact ⟨[], v, rfl⟩
      · exact List.infix_cons (infix_of_cfgExpandFormatEscapes h)

theorem getLast_cfgExpandFormatEscapes {v : CStr} (hlast : v.getLast? ≠ some backslash) :
    (cfgExpandFormatEscapes v).getLast? ≠ some backslash := by
  induction hlen : v.length using Nat.strong_induction_on generalizing v with
  | _ len ih =>
    by_cases hne : v = []
    · subst hne
      exact hlast
    · obtain ⟨n, c, rest, rfl, hc, hrest⟩ := exists_run hne hlast
      obtain ⟨m, c', hrun, hc', -⟩ := expandRun_eq n hc
      have hih := ih rest.length (by rw [← hlen]; simp; omega) hrest rfl
      rw [cfgExpandFormatEscapes_run hc, hrun, List.getLast?_append]
      cases hexp : (cfgExpandFormatEscapes rest).getLast? with
      | none => simpa using hc'
      | some x =>
        rw [hexp] at hih
        exact hih

/-- **The expansion is a value of the same kind.** -/
theorem IsFormatText.expand {v : CStr} (hv : IsFormatText v) :
    IsFormatText (cfgExpandFormatEscapes v) where
  chars c hc := by
    rcases mem_cfgExpandFormatEscapes hc with hc | ⟨x, hx⟩
    · exact hv.chars c hc
    · obtain ⟨-, -, -, h0, hspace, -⟩ := formatControl_spec hx
      exact ⟨h0, hspace⟩
  no_comment h := hv.no_comment (infix_of_cfgExpandFormatEscapes h)
  last := getLast_cfgExpandFormatEscapes hv.last

/-! ## Loading -/

namespace IsFormatText

variable {v : CStr} (hv : IsFormatText v)
include hv

theorem not_blank {c : UInt8} (hc : c ∈ v) : isEol c = false ∧ isBlank c = false := by
  have hspace := (hv.chars c hc).2
  revert hspace
  refine forall_byte ?_ c
  decide +kernel

/-- The line of a value is read as it stands. -/
theorem readLogical_eq {key : CStr} (hk : IsLineKey key)
    (hlen : key.length + v.length + 3 < cfgBufSize) (line : ℕ) :
    readLogical false line (plainLineText key v)
      = some (some ⟨key ++ equals :: v, 0, line + 1⟩, line + 1, []) := by
  have htext : IsLineText (key ++ equals :: v) := hk.isLineText.append fun c hc ↦ by
    rcases List.mem_cons.mp hc with rfl | hc
    · decide
    · refine ⟨?_, (hv.chars c hc).1⟩
      rintro rfl
      exact absurd (hv.not_blank hc).1 (by decide)
  have hf := fgets_line (n := cfgBufSize - 1) htext
    (by rw [List.length_append, List.length_cons]; omega) []
  have hend : EndsLine (key ++ equals :: v) := by
    intro c hc
    rw [List.getLast?_append, List.getLast?_cons] at hc
    rcases List.eq_nil_or_concat v with rfl | ⟨w, x, rfl⟩
    · obtain rfl : equals = c := by simpa using hc
      decide
    · rw [List.concat_eq_append] at hc hv
      obtain rfl : x = c := by simpa using hc
      have hlast := hv.last
      rw [List.getLast?_concat] at hlast
      obtain ⟨h1, h2⟩ := hv.not_blank (c := x) (by simp)
      exact ⟨fun h ↦ hlast (by rw [h]), h1, h2⟩
  have htrim : (key ++ equals :: v ++ [newline]).rdropWhile (fun c ↦ isEol c || isBlank c)
      = key ++ equals :: v := by
    rw [List.rdropWhile_concat_pos _ _ _ (by decide)]
    exact rdropWhile_eq_self fun c hc ↦ by simp [(hend c hc).2]
  obtain ⟨c, rest, hcons, hc⟩ := hk.exists_cons v
  rw [hcons] at hf htrim hend
  rw [plainLineText, hcons, Rustyaxe.readLogical_eq [] (by simpa using hf) (by simp)
    (startsLine.isspace hc), List.nil_append]
  rw [List.cons_append] at htrim
  rw [htrim, joinContinuations_done hend]
  rfl

theorem dropWhile_eq : v.dropWhile isBlank = v := by
  cases v with
  | nil => rfl
  | cons c v =>
    refine List.dropWhile_cons_of_neg ?_
    rw [(hv.not_blank List.mem_cons_self).2]
    simp

/-- **What a file of one setting becomes.** -/
theorem cfgLoad_eq (dictHash : CStr → UInt32) {env : LoadEnv} (henv : env.AllocOk) {key : CStr}
    (hk : IsGeneralKey key) (hlen : key.length + v.length + 3 < cfgBufSize) (path : CStr) :
    ∃ d, cfgLoad dictHash (env.withFile path (generalHeader ++ plainLineText key v)) path
        = some (some d) ∧ Coherent dictHash d ∧
      ∀ k, d.toMap k = if k = key then some (.str (some (storedText key v))) else none := by
  have henv' : (env.withFile path (generalHeader ++ plainLineText key v)).AllocOk :=
    ⟨henv.calloc, henv.mem⟩
  generalize henv'' : env.withFile path (generalHeader ++ plainLineText key v) = env' at henv'
  have hexists : env'.fileExists path = true := by simp [← henv'', LoadEnv.withFile]
  have hopen : env'.fopen path = some (generalHeader ++ plainLineText key v) := by
    simp [← henv'', LoadEnv.withFile]
  obtain ⟨s', hline, hs', -, hmap⟩ := loadLine_storedText henv' hk v
    (some (cfgLoadDepth dictHash env' 3)) path
    (s := ⟨dictNew, lit "general", false, 2, 0, 1⟩)
    (⟨built_dictNew, rfl⟩ : InGeneral dictHash _)
  have hfuel : (generalHeader ++ plainLineText key v).length + 1
      = (9 + (plainLineText key v).length) + 1 + 1 := by
    rw [List.length_append]
    have : generalHeader.length = 10 := rfl
    omega
  have hbare := hk.isLineKey.bareLine_eq v 2
  have htrim : v.rdropWhile isspace = v :=
    rdropWhile_eq_self fun c hc ↦ (hv.chars c (List.mem_of_getLast? hc)).2
  rw [stripComments_eq_self hv.no_comment, htrim] at hbare
  refine ⟨s'.newcfg, ?_, hs'.built.toCoherent, fun k ↦ ?_⟩
  · rw [cfgLoad, cfgLoadDepth, loadFile, hexists, henv'.calloc, dictNewCall, hopen]
    simp only [Bool.not_true, Bool.false_eq_true, if_false, if_true, hfuel]
    rw [loadLines_generalHeader, loadLines, hv.readLogical_eq hk.isLineKey hlen]
    simp only [hbare, hline]
    simp [loadLines_nil]
  · rw [hmap, hv.dropWhile_eq, Function.update_apply]
    rfl

end IsFormatText

/-! ## Saving -/

/-- **What a configuration of one setting is saved as.** -/
theorem fileBytes_oneSetting {env : SaveEnv} {fs : FileSystem} {path key w : CStr} {d : Dict}
    (hd : Coherent dictHash d) (henv : env.Succeeds fs path)
    (hskip : cfgSaveEntryIsSkipped env key = false) (hk : IsGeneralKey key)
    (hshort : w.length ≤ wrapCapacity key)
    (hmap : ∀ k, d.toMap k = if k = key then some (.str (some w)) else none) :
    ∃ fs' file, cfgSaveOverrides dictHash env fs d path = some (true, fs') ∧
      fs' path = some file ∧ fileBytes file = generalHeader ++ plainLineText key w := by
  have honly : ∀ {k v}, d.toMap k = some v → k = key ∧ v = .str (some w) := by
    intro k v hv
    rw [hmap] at hv
    split at hv
    · next hk => exact ⟨hk, (Option.some.inj hv).symm⟩
    · cases hv
  have hserver : startsWith (lit "server:") key = false := by
    rw [cfgSaveEntryIsSkipped] at hskip
    simp only [Bool.or_eq_false_iff] at hskip
    exact hskip.1.1.1
  obtain ⟨fs', entries, names, hsave, hfile, hnodup, hentryOf, hentries, hguessed, -⟩ :=
    cfgSaveOverrides_eq hd henv (fun k v hv ↦ ⟨w, (honly hv).2⟩) (fun k hk hskipped ↦ by
      obtain ⟨v, hv⟩ := Option.isSome_iff_exists.mp hk
      rw [(honly hv).1, hskip] at hskipped
      cases hskipped)
  have hmem : ⟨key, some w⟩ ∈ entries := hentries key w (by rw [hmap, if_pos rfl]) hserver
  have hsame : ∀ x ∈ entries, x = ⟨key, some w⟩ := by
    intro x hx
    obtain ⟨hkey, hvalue⟩ := honly (hentryOf x hx).value
    rw [DictValue.str.injEq] at hvalue
    cases x
    rw [SaveEntry.mk.injEq]
    exact ⟨hkey, hvalue⟩
  have hentry : entries = [⟨key, some w⟩] := by
    rcases entries with _ | ⟨x, _ | ⟨y, rest⟩⟩
    · cases hmem
    · rw [hsame x List.mem_cons_self]
    · rw [hsame x (by simp), hsame y (by simp)] at hnodup
      simp at hnodup
  have hnames : names = [] := by
    refine List.eq_nil_iff_forall_not_mem.mpr fun name hname ↦ ?_
    obtain ⟨k, hk, hguess⟩ := hguessed name hname
    obtain ⟨v, hv⟩ := Option.isSome_iff_exists.mp hk
    rw [GuessedName, (honly hv).1, hserver] at hguess
    cases hguess.1
  have hcolon : strchr colon key = none :=
    if_neg fun h ↦ isKeyChar.ne (hk.chars _ h) (by decide) rfl
  have hpieces : printEntries (sortEntries [⟨key, some w⟩])
      = [.header [] (lit "general"), .setting [] key key (some w)] := by
    simp [printEntries, sortEntries, printGeneral, printSections, hcolon]
  refine ⟨fs', _, hsave, hfile, ?_⟩
  rw [hentry, hnames, hpieces, List.flatMap_nil, List.append_nil, fileBytes_cons, fileBytes_cons,
    SavePiece.text, SavePiece.text, cfgWriteWrapped_short hshort]
  simp only [fileBytes, List.flatMap_nil, List.append_nil]
  rfl

section Stable

variable {env : SaveEnv} {lenv : LoadEnv} {fs : FileSystem} {path key v : CStr}
  (henv : env.Succeeds fs path) (hlenv : lenv.AllocOk)
  (hskip : cfgSaveEntryIsSkipped env key = false) (hk : IsGeneralKey key)
  (hkey : cfgFormattingKey key = true) (hv : IsFormatText v)
  (hshort : (cfgExpandFormatEscapes v).length ≤ wrapCapacity key)
  (hlen : key.length + v.length + 3 < cfgBufSize)
include henv hlenv hskip hk hkey hv hshort hlen

/-- The second load expands what the first one has stored. -/
theorem formatStable_iff_expand : FormatStable dictHash env lenv fs path key v
    ↔ cfgExpandFormatEscapes (cfgExpandFormatEscapes v) = cfgExpandFormatEscapes v := by
  have hle := cfgExpandFormatEscapes_length_le v
  have hstored : ∀ t, storedText key t = cfgExpandFormatEscapes t := fun t ↦ by
    rw [storedText, if_pos hkey]
  obtain ⟨d, hload, hd, hmap⟩ := hv.cfgLoad_eq dictHash hlenv hk hlen path
  obtain ⟨d', hload', -, hmap'⟩ := hv.expand.cfgLoad_eq dictHash hlenv hk (by omega) path
  rw [hstored] at hmap hmap'
  obtain ⟨fs', file, hsave, hfile, hbytes⟩ :=
    fileBytes_oneSetting hd henv hskip hk hshort hmap
  constructor
  · rintro ⟨d₁, w, hload₁, hw, fs₁, file₁, d₁', hsave₁, hfile₁, hload₁', hw'⟩
    obtain rfl : d = d₁ := by simpa [hload] using hload₁
    obtain rfl : fs' = fs₁ := by simpa [hsave] using hsave₁
    obtain rfl : file = file₁ := by simpa [hfile] using hfile₁
    rw [hbytes, hload'] at hload₁'
    obtain rfl : d' = d₁' := by simpa using hload₁'
    rw [hmap, if_pos rfl] at hw
    rw [hmap', if_pos rfl] at hw'
    have hw : cfgExpandFormatEscapes v = w := by simpa using hw
    have hw' : cfgExpandFormatEscapes (cfgExpandFormatEscapes v) = w := by simpa using hw'
    rw [hw', hw]
  · intro hstable
    refine ⟨d, cfgExpandFormatEscapes v, hload, by rw [hmap, if_pos rfl], fs', file, d', hsave,
      hfile, by rw [hbytes, hload'], ?_⟩
    rw [hmap', if_pos rfl, hstable]

/-- **When a formatting value is stable**: exactly if its runs of backslashes settle. -/
theorem formatStable_iff :
    FormatStable dictHash env lenv fs path key v ↔ escapesSettle 0 v = true :=
  (formatStable_iff_expand henv hlenv hskip hk hkey hv hshort hlen).trans
    (expand_expand_iff hv.last)

end Stable

/-- Two backslashes in front of the code of a colour. -/
theorem isFormatText_literal : IsFormatText (lit "\\\\C04") :=
  ⟨by decide +kernel, by decide, by decide⟩

theorem isGeneralKey_theme : IsGeneralKey (lit "theme.a") :=
  ⟨by decide, by decide +kernel, by decide⟩

theorem formatStable_iff_literal :
    FormatStable dictHashMurmur writableEnv bareEnv (fun _ ↦ none) (lit "rig.cfg") (lit "theme.a")
      (lit "\\\\C04") ↔ escapesSettle 0 (lit "\\\\C04") = true :=
  formatStable_iff (writableEnv_succeeds _) allocOk_bareEnv (by decide) isGeneralKey_theme
    (by decide) isFormatText_literal (by decide) (by decide)

/-- `\\C04` is loaded as the text `\C04`, and that, when it has been saved, as a colour. -/
theorem not_formatStable_literal : ¬ FormatStable dictHashMurmur writableEnv bareEnv
    (fun _ ↦ none) (lit "rig.cfg") (lit "theme.a") (lit "\\\\C04") := by
  rw [formatStable_iff_expand (writableEnv_succeeds _) allocOk_bareEnv (by decide)
    isGeneralKey_theme (by decide) isFormatText_literal (by decide) (by decide)]
  decide

end Rustyaxe
