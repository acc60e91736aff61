import Rustyaxe.Config.General

/-!
# The length of what is loaded

`cfg_load_depth` reads a line into a buffer of `cfgBufSize` bytes and joins its continuation lines
in there, so a longer line is cut.  Nothing that it does to the line afterwards makes it longer, so
every value in the dictionary that it returns is shorter than the buffer (`length_of_cfgLoad`).

There are no callbacks here, which may store what they want.
-/

set_option autoImplicit false

namespace Rustyaxe

variable {dictHash : CStr → UInt32}

/-! ## Lines -/

theorem length_strncatBuf_lt (buf t : CStr) : (strncatBuf buf t).length < cfgBufSize := by
  rw [strncatBuf, List.length_take]
  have : cfgBufSize = 32768 := rfl
  omega

theorem length_trimForContinuation_le (buf : CStr) :
    (trimForContinuation buf).length ≤ buf.length :=
  (List.rdropWhile_prefix _ _).length_le.trans (List.rdropWhile_prefix _ _).length_le

/-- However many lines are joined, they stay in the buffer. -/
theorem length_joinContinuations_lt : ∀ (fuel : ℕ) {buf : CStr} (file : List UInt8) (line : ℕ),
    buf.length < cfgBufSize → (joinContinuations fuel buf file line).1.length < cfgBufSize
  | 0, _, _, _, h => h
  | fuel + 1, buf, file, line, h => by
    have htrim := length_trimForContinuation_le buf
    rw [joinContinuations]
    dsimp only
    split
    · exact lt_of_le_of_lt htrim h
    · split
      · have hdrop := (List.rdropWhile_prefix isBlank (trimForContinuation buf).dropLast).length_le
        rw [List.length_dropLast] at hdrop
        dsimp only
        omega
      · exact length_joinContinuations_lt fuel _ _ (length_strncatBuf_lt _ _)

theorem length_buf_readLogical {inComment : Bool} {line line' : ℕ} {file file' : List UInt8}
    {l : LogicalLine} (h : readLogical inComment line file = some (some l, line', file')) :
    l.buf.length < cfgBufSize := by
  rw [readLogical] at h
  cases hread : fgets (cfgBufSize - 1) file with
  | none => simp [hread] at h
  | some r =>
    have hlen : r.1.length < cfgBufSize := by
      rw [fgets] at hread
      split at hread
      · cases hread
      · obtain rfl := Option.some.inj hread
        have htake := (List.takeWhile_sublist (fun c : UInt8 ↦ decide (c ≠ 0))
          (l := file.take (min (cfgBufSize - 1 - 1)
            ((file.takeWhile (fun c ↦ decide (c ≠ newline))).length + 1)))).length_le
        rw [List.length_take] at htake
        have hbuf : cfgBufSize = 32768 := rfl
        refine lt_of_le_of_lt htake ?_
        omega
    rw [hread] at h
    dsimp only at h
    split at h
    · simp at h
    · obtain ⟨rfl, -, -⟩ : _ = l ∧ _ ∧ _ := by simpa using h
      exact length_joinContinuations_lt _ _ _
        (lt_of_le_of_lt (List.rdropWhile_prefix _ _).length_le hlen)

theorem unescapeComments_sublist (s : CStr) : (unescapeComments s).Sublist s := by
  fun_induction unescapeComments s with
  | case1 b c rest h ih => exact (ih.cons_cons c).cons b
  | case2 b c rest h ih => exact ih.cons_cons b
  | case3 s h => exact .refl s

theorem length_splitSetting_le {skip : CStr} {kv : CStr × CStr} (h : splitSetting skip = some kv) :
    kv.2.length ≤ skip.length := by
  rw [splitSetting] at h
  split at h
  · rw [← Option.some.inj h]
    exact ((List.dropWhile_sublist _).trans ((List.tail_sublist _).trans
      (List.dropWhile_sublist _))).length_le
  · cases h

theorem length_skip_bareLine {inComment : Bool} {l : LogicalLine} {b : BareLine}
    (h : (bareLine inComment l).1 = some b) : b.skip.length ≤ l.buf.length := by
  rw [bareLine] at h
  dsimp only at h
  generalize hbuf : (if isEscapedComment (l.buf.drop l.skip) = true then
    l.buf.take l.skip ++ unescapeComments (l.buf.drop l.skip).tail else l.buf) = buf at h
  have hle : buf.length ≤ l.buf.length := by
    rw [← hbuf]
    split
    · have hunescape := (unescapeComments_sublist (l.buf.drop l.skip).tail).length_le
      rw [List.length_tail, List.length_drop] at hunescape
      rw [List.length_append, List.length_take]
      omega
    · rfl
  split at h
  · cases h
  · obtain rfl := Option.some.inj h
    exact (List.rdropWhile_prefix _ _).length_le.trans
      (((stripComments_sublist _ _ _).trans (List.dropWhile_sublist _)).length_le.trans hle)

theorem cfgExpandFormatEscapes_length_le : ∀ val : CStr,
    (cfgExpandFormatEscapes val).length ≤ val.length
  | [] => le_rfl
  | [_] => le_rfl
  | b :: c :: src => by
    have h1 := cfgExpandFormatEscapes_length_le src
    have h2 := cfgExpandFormatEscapes_length_le (c :: src)
    rw [cfgExpandFormatEscapes]
    split
    · split
      · simp only [List.length_cons]
        omega
      · cases formatControl c with
        | some control =>
          simp only [List.length_cons]
          omega
        | none =>
          simp only [List.length_cons] at h2 ⊢
          omega
    · simp only [List.length_cons] at h2 ⊢
      omega

/-! ## Dictionaries -/

/-- All values are shorter than the buffer. -/
structure Bounded (dictHash : CStr → UInt32) (d : Dict) : Prop extends Built dictHash d where
  length_lt : ∀ key v, d.toMap key = some (.str (some v)) → v.length < cfgBufSize

variable {env : LoadEnv}

theorem bounded_dictNew : Bounded dictHash dictNew := ⟨built_dictNew, fun _ _ h ↦ by cases h⟩

theorem Bounded.dictAdd (henv : env.AllocOk) {s : LoadState} (hs : Bounded dictHash s.newcfg)
    (key : CStr) {val : CStr} (hval : val.length < cfgBufSize) :
    ∃ s', s.dictAdd dictHash env key val = some (true, s') ∧ Bounded dictHash s'.newcfg := by
  obtain ⟨d, hadd, hd, hmap⟩ := s.dictAdd_spec henv hs.toBuilt key val
  refine ⟨_, hadd, hd, fun k v hk ↦ ?_⟩
  rw [hmap] at hk
  by_cases hkey : k = key
  · subst hkey
    rw [Function.update_self] at hk
    cases hk
    exact hval
  · rw [Function.update_of_ne hkey] at hk
    exact hs.length_lt k v hk

section Loading

variable (henv : env.AllocOk)
include henv

/-- An include stores no more than what is included. -/
theorem Bounded.includeLine {loader : Option Loader} {path : CStr} {optional : Bool} {skip : CStr}
    {s s' : LoadState}
    (hloader : ∀ load ∈ loader, ∀ path calls d calls',
      load path calls = some (some d, calls') → Bounded dictHash d)
    (hs : Bounded dictHash s.newcfg)
    (h : includeLine dictHash env loader path optional skip s = some s') :
    Bounded dictHash s'.newcfg := by
  have hfail : ∀ {t : LoadState}, Bounded dictHash t.newcfg →
      failInclude optional t = some s' → Bounded dictHash s'.newcfg := by
    intro t ht h
    rw [failInclude] at h
    split at h
    · obtain rfl := Option.some.inj h
      exact ht
    · cases h
  unfold Rustyaxe.includeLine at h
  dsimp only at h
  split at h
  · exact hfail hs h
  · cases loader with
    | none => exact hfail hs h
    | some load =>
      dsimp only at h
      split at h
      · cases hload : load (resolveInclude path (includePath skip)) s.calls with
        | none => simp [hload] at h
        | some r =>
          obtain ⟨included, calls⟩ := r
          simp only [hload, Option.bind_eq_bind, Option.bind_some] at h
          cases included with
          | none => exact hfail (t := { s with calls := calls }) hs h
          | some d =>
            have hd := hloader load rfl _ _ _ _ hload
            obtain ⟨rc, d', hmerge, hbuilt, hmap, hok⟩ := hs.toBuilt.dictMerge_spec
              hd.toCoherent fun n ↦ env.mem (calls + n)
            obtain rfl := hok fun n ↦ henv.mem _
            dsimp only at h
            simp only [mergeInclude, hmerge, Option.bind_eq_bind, Option.bind_some, if_true] at h
            obtain rfl := Option.some.inj h
            refine ⟨hbuilt, fun key v hkey ↦ ?_⟩
            have hkey' : (d.toMap key).or (s.newcfg.toMap key) = some (.str (some v)) := by
              rw [← hmap rfl]
              exact hkey
            rcases Option.or_eq_some_iff.mp hkey' with hv | ⟨-, hv⟩
            · exact hd.length_lt key v hv
            · exact hs.length_lt key v hv
      · split at h
        · obtain rfl := Option.some.inj h
          exact hs
        · cases h

variable (hcallbacks : env.cfgCallbacks = [])
include hcallbacks

/-- A line stores no more than it has. -/
theorem Bounded.sectionLine {path : CStr} {b : BareLine} {s s' : LoadState}
    (hs : Bounded dictHash s.newcfg) (hb : b.skip.length < cfgBufSize)
    (h : sectionLine dictHash env path b s = some s') : Bounded dictHash s'.newcfg := by
  obtain (hsame | ⟨kv, key, val, rc, s₁, hsplit, hval, hadd, hcfg⟩) | ⟨-, hcallback⟩ :=
    sectionLine_cases h
  · rwa [hsame]
  · have hlen : kv.2.length < cfgBufSize := lt_of_le_of_lt (length_splitSetting_le hsplit) hb
    have hshort : val.length < cfgBufSize := by
      obtain rfl | rfl := hval
      · exact hlen
      · exact lt_of_le_of_lt (cfgExpandFormatEscapes_length_le _) hlen
    obtain ⟨s₂, hadd₂, hs₂⟩ := hs.dictAdd henv key hshort
    cases hadd.symm.trans hadd₂
    rwa [hcfg]
  · rw [callbackLine, hcallbacks] at hcallback
    obtain rfl := Option.some.inj hcallback
    exact hs

theorem Bounded.loadLine {loader : Option Loader} {path : CStr} {b : BareLine} {s s' : LoadState}
    (hloader : ∀ load ∈ loader, ∀ path calls d calls',
      load path calls = some (some d, calls') → Bounded dictHash d)
    (hs : Bounded dictHash s.newcfg) (hb : b.skip.length < cfgBufSize)
    (h : loadLine dictHash env loader path b s = some s') : Bounded dictHash s'.newcfg := by
  have hsame : ∀ {s₁ : LoadState}, s₁.newcfg = s.newcfg → some s₁ = some s' →
      Bounded dictHash s'.newcfg := fun {s₁} hcfg h ↦ by
    obtain rfl := Option.some.inj h
    rwa [hcfg]
  rw [Rustyaxe.loadLine] at h
  cases hkind : includeKind b.skip with
  | some optional =>
    simp only [hkind] at h
    split_ifs at h
    · exact hsame rfl h
    · exact hsame rfl h
    · exact hsame rfl h
    · exact hs.includeLine henv hloader h
  | none =>
    simp only [hkind] at h
    split_ifs at h
    · exact hsame rfl h
    · exact hsame rfl h
    · exact hsame rfl h
    · obtain rfl := Option.some.inj h
      exact hs
    · obtain rfl := Option.some.inj h
      exact hs
    · exact hs.sectionLine henv hcallbacks hb h

theorem Bounded.loadLines {loader : Option Loader} {path : CStr}
    (hloader : ∀ load ∈ loader, ∀ path calls d calls',
      load path calls = some (some d, calls') → Bounded dictHash d) :
    ∀ (fuel : ℕ) {file : List UInt8} {s s' : LoadState}, Bounded dictHash s.newcfg →
      loadLines dictHash env loader path fuel file s = some s' → Bounded dictHash s'.newcfg
  | 0, _, _, _, hs, h => Option.some.inj h ▸ hs
  | fuel + 1, file, s, s', hs, h => by
    rw [Rustyaxe.loadLines] at h
    cases hread : readLogical s.inComment s.line file with
    | none =>
      rw [hread] at h
      exact Option.some.inj h ▸ hs
    | some r =>
      obtain ⟨l, line, file'⟩ := r
      rw [hread] at h
      cases l with
      | none => exact Bounded.loadLines hloader fuel (s := { s with line := line }) hs h
      | some l =>
        dsimp only at h
        cases hbare : (bareLine s.inComment l).1 with
        | none =>
          rw [hbare] at h
          exact Bounded.loadLines hloader fuel
            (s := { s with inComment := (bareLine s.inComment l).2, line := line }) hs h
        | some b =>
          rw [hbare] at h
          dsimp only at h
          have hb := lt_of_le_of_lt (length_skip_bareLine hbare) (length_buf_readLogical hread)
          obtain ⟨s₁, hline, h⟩ := Option.bind_eq_some_iff.mp h
          refine Bounded.loadLines hloader fuel (Bounded.loadLine henv hcallbacks hloader
            (s := { s with inComment := (bareLine s.inComment l).2, line := line }) hs hb hline) h

theorem bounded_loadFile {loader : Option Loader}
    (hloader : ∀ load ∈ loader, ∀ path calls d calls',
      load path calls = some (some d, calls') → Bounded dictHash d)
    {path : CStr} {calls calls' : ℕ} {d : Dict}
    (h : loadFile dictHash env loader path calls = some (some d, calls')) :
    Bounded dictHash d := by
  rw [loadFile, henv.calloc, dictNewCall] at h
  split at h
  · simp at h
  · simp only [if_true] at h
    cases hopen : env.fopen path with
    | none => simp [hopen] at h
    | some file =>
      simp only [hopen, Option.bind_eq_bind, Option.bind_eq_some_iff] at h
      obtain ⟨s, hlines, h⟩ := h
      obtain ⟨rfl, -⟩ : s.newcfg = d ∧ _ := by simpa using h
      exact Bounded.loadLines henv hcallbacks hloader _ bounded_dictNew hlines

theorem bounded_cfgLoadDepth : ∀ (levels : ℕ) {path : CStr} {calls calls' : ℕ} {d : Dict},
    cfgLoadDepth dictHash env levels path calls = some (some d, calls') → Bounded dictHash d
  | 0, _, _, _, _, h => bounded_loadFile henv hcallbacks (fun _ hload ↦ by simp at hload) h
  | levels + 1, _, _, _, _, h => bounded_loadFile henv hcallbacks (fun load hload _ _ _ _ hd ↦ by
      obtain rfl := Option.some.inj hload
      exact bounded_cfgLoadDepth levels hd) h

/-- **No value that is loaded is longer than the buffer.** -/
theorem length_of_cfgLoad {path : CStr} {d : Dict}
    (h : cfgLoad dictHash env path = some (some d)) {key v : CStr}
    (hkey : d.toMap key = some (.str (some v))) : v.length < cfgBufSize := by
  rw [cfgLoad, Option.map_eq_some_iff] at h
  obtain ⟨⟨d', calls⟩, hload, rfl⟩ := h
  exact (bounded_cfgLoadDepth henv hcallbacks 4 hload).length_lt key v hkey

end Loading

end Rustyaxe
