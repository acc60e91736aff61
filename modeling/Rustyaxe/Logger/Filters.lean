import Rustyaxe.Lib.FirstMax
import Rustyaxe.Lib.Words
import Rustyaxe.LogRate
import Rustyaxe.Strtol

/-!
# Which messages are logged

The severity filters of `logger.c` and the setting `log.level`, a text like
`*:warn www.*:debug@10/5m,irc:crit`.

The filter of a subsystem is the one with the longest pattern that matches, and of those the one
that stands last in the setting (`logFilters_load`).  What a rate says is what `RateText` says
(`logRateParse_eq_some_iff`).

No filter is there before the setting is read, and there is memory for those it asks for.  `fnmatch`
is a parameter: it says whether a pattern matches a name.
-/

set_option autoImplicit false

namespace Rustyaxe.Logger

open FirstMax Words

/-! ## The code -/

/-- `log_priorities` -/
def logPriorities : List (LogPriority × CStr) :=
  [(.audit, lit "audit"), (.crit, lit "crit"), (.warn, lit "warn"), (.info, lit "info"),
    (.debug, lit "debug"), (.crazy, lit "crazy"), (.blitzkreig, lit "blitz"), (.none, lit " NONE")]

/-- `log_priority_from_str` -/
def logPriorityFromStr (priority : CStr) : LogPriority :=
  match logPriorities.find? fun p ↦ strcaseeq p.2 priority with
  | some p => p.1
  | none => .none

/-- `struct log_filter` -/
structure LogFilter where
  pattern : CStr
  level : LogPriority
  rateCount : ℕ
  rateSeconds : ℕ
  deriving DecidableEq

/-- The seconds of a unit, or `0`. -/
def rateFactor (unit : CStr) : ℕ :=
  if unit = lit "s" then 1 else if unit = lit "m" then 60 else if unit = lit "h" then 3600 else 0

/-- What `log_rate_parse` makes of what stands after the slash: a number, and the unit. -/
def rateDuration (str : CStr) : ℕ × CStr :=
  if str.head?.any isdigit then ((strtoull str).1, (strtoull str).2.1) else (1, str)

/-- `log_rate_parse`: how many messages in how many seconds. -/
def logRateParse (str : CStr) : Option (ℕ × ℕ) :=
  if str = [] then none
  else
    let (n, ep, erange) := strtoull str
    if erange ∨ n = 0 ∨ 1000000 < n ∨ ep.head? ≠ some slash then none
    else
      let (duration, str) := rateDuration ep.tail
      let factor := rateFactor str
      if factor = 0 ∨ duration = 0 ∨ 86400 / factor < duration then none
      else some (n, duration * factor)

/-- `log_add_filter_rate`, when there is memory for the filter. -/
def logAddFilterRate (filters : List LogFilter) (pattern : CStr) (level : LogPriority)
    (count seconds : ℕ) : List LogFilter :=
  ⟨pattern, level, count, seconds⟩ :: filters

/-- What separates the words of `log.level`. -/
def isLevelSep (c : UInt8) : Bool := isspace c || c == comma

/-- The severity and the rate of a word: a rate that is not one is `none`. -/
def levelParts (levelStr : CStr) : CStr × Option (ℕ × ℕ) :=
  match strchr atSign levelStr with
  | none => (levelStr, some (0, 0))
  | some rate => (levelStr.take rate, logRateParse (levelStr.drop (rate + 1)))

/-- What `load_log_filters_from_config` does with a word. -/
def loadWord (filters : List LogFilter) (tok : CStr) : List LogFilter :=
  match strchr colon tok with
  | none => filters
  | some sep =>
    let subsys := tok.take sep
    match levelParts (tok.drop (sep + 1)) with
    | (_, none) => filters
    | (levelStr, some (count, seconds)) =>
      let level := logPriorityFromStr levelStr
      if level = .none then filters
      else
        let len := subsys.length
        let filters :=
          if 2 ≤ len ∧ subsys.drop (len - 2) = lit ".*" then
            logAddFilterRate filters (subsys.take (len - 2)) level count seconds
          else filters
        logAddFilterRate filters subsys level count seconds

/-- `load_log_filters_from_config`, with the value of `log.level`. -/
def loadLogFiltersFromConfig (cfg : Option CStr) (filters : List LogFilter) : List LogFilter :=
  match cfg with
  | none => filters
  | some cfg => (words isLevelSep cfg).foldl loadWord filters

/-- `log_matching_filter` -/
def logMatchingFilter (fnmatch : CStr → CStr → Bool) (filters : List LogFilter) (subsys : CStr) :
    Option LogFilter :=
  firstMax (fun f ↦ fnmatch f.pattern subsys) (fun f ↦ f.pattern.length) none filters

/-- `debug_filter`: the message is not logged. -/
def debugFilter (fnmatch : CStr → CStr → Bool) (filters : List LogFilter) (subsys : Option CStr)
    (msgLevel : LogPriority) : Bool :=
  let best := logMatchingFilter fnmatch filters (subsys.getD [])
  (best.elim LogPriority.debug LogFilter.level).value < msgLevel.value

/-! ## Rates -/

/-- What a text means as a rate: a number that is not too large, a slash, and a number of seconds,
minutes or hours that is not longer than a day; without digits there, one of them. -/
structure RateText (s : CStr) (count seconds : ℕ) : Prop where
  count_pos : 0 < count
  count_le : count ≤ 1000000
  seconds_pos : 0 < seconds
  seconds_le : seconds ≤ 86400
  text : ∃ number duration unit, s = number ++ slash :: (duration ++ unit) ∧
    strtoull number = (count, [], false) ∧ (∀ c ∈ duration, isdigit c = true) ∧
    seconds = (if duration = [] then 1 else digitsVal duration) * rateFactor unit

theorem rateFactor_cases (unit : CStr) :
    unit = lit "s" ∧ rateFactor unit = 1 ∨ unit = lit "m" ∧ rateFactor unit = 60 ∨
      unit = lit "h" ∧ rateFactor unit = 3600 ∨ rateFactor unit = 0 := by
  rw [rateFactor]
  split
  · next h => exact .inl ⟨h, rfl⟩
  split
  · next h => exact .inr (.inl ⟨h, rfl⟩)
  split
  · next h => exact .inr (.inr (.inl ⟨h, rfl⟩))
  · exact .inr (.inr (.inr rfl))

theorem rateDuration_eq {ds unit : CStr} (hds : ∀ c ∈ ds, isdigit c = true)
    (hunit : ∀ c ∈ unit.head?, isdigit c = false) : rateDuration (ds ++ unit) =
      (if ds = [] then 1 else min (digitsVal ds) (2 ^ 64 - 1), unit) := by
  rw [rateDuration]
  cases ds with
  | nil =>
    cases unit with
    | nil => rfl
    | cons c unit => rw [List.nil_append, List.head?_cons, Option.any_some, hunit c rfl]; rfl
  | cons d ds =>
    obtain ⟨hval, hrest⟩ := strtoull_digits (List.cons_ne_nil d ds) hds hunit
    rw [hval, hrest, List.cons_append, List.head?_cons, Option.any_some, hds d List.mem_cons_self]
    rfl

/-- The first character of a unit is no digit. -/
theorem not_isdigit_unit {unit : CStr} (h : rateFactor unit ≠ 0) :
    ∀ c ∈ unit.head?, isdigit c = false := by
  obtain ⟨rfl, -⟩ | ⟨rfl, -⟩ | ⟨rfl, -⟩ | hzero := rateFactor_cases unit
  · rintro c ⟨⟩
    rfl
  · rintro c ⟨⟩
    rfl
  · rintro c ⟨⟩
    rfl
  · exact absurd hzero h

/-- What `log_rate_parse` asks of the text behind the slash, and the seconds it makes of it. -/
def ReadsPeriod (str : CStr) (seconds : ℕ) : Prop :=
  rateFactor (rateDuration str).2 ≠ 0 ∧ (rateDuration str).1 ≠ 0 ∧
    (rateDuration str).1 ≤ 86400 / rateFactor (rateDuration str).2 ∧
      (rateDuration str).1 * rateFactor (rateDuration str).2 = seconds

/-- A period is some digits, or none, and a unit. -/
theorem readsPeriod_iff {str : CStr} {seconds : ℕ} : ReadsPeriod str seconds ↔
    0 < seconds ∧ seconds ≤ 86400 ∧ ∃ duration unit, str = duration ++ unit ∧
      (∀ c ∈ duration, isdigit c = true) ∧
      seconds = (if duration = [] then 1 else digitsVal duration) * rateFactor unit := by
  rw [ReadsPeriod]
  constructor
  · rintro ⟨hfactor, hpos, hbound, rfl⟩
    have hds : ∀ c ∈ str.takeWhile isdigit, isdigit c = true := fun c hc ↦
      List.mem_takeWhile_imp hc
    have hunit : ∀ c ∈ (str.dropWhile isdigit).head?, isdigit c = false := fun c hc ↦ by
      have hhead := List.head?_dropWhile_not isdigit str
      rw [Option.mem_def.mp hc] at hhead
      simpa using hhead
    have hduration := rateDuration_eq hds hunit
    rw [List.takeWhile_append_dropWhile] at hduration
    refine ⟨Nat.mul_pos (Nat.pos_of_ne_zero hpos) (Nat.pos_of_ne_zero hfactor),
      (Nat.le_div_iff_mul_le (Nat.pos_of_ne_zero hfactor)).mp hbound, str.takeWhile isdigit,
      str.dropWhile isdigit, List.takeWhile_append_dropWhile.symm, hds, ?_⟩
    -- a number that `strtoull` cuts off would be out of bounds
    have hsmall := hbound.trans (Nat.div_le_self _ _)
    rw [hduration] at hsmall ⊢
    dsimp only at hsmall ⊢
    congr 1
    split
    · rfl
    · next hne =>
      rw [if_neg hne] at hsmall
      omega
  · rintro ⟨hpos, hbound, duration, unit, rfl, hds, rfl⟩
    have hfactor : rateFactor unit ≠ 0 := fun hzero ↦ by
      rw [hzero, Nat.mul_zero] at hpos
      exact Nat.lt_irrefl 0 hpos
    have hvalue := (Nat.le_div_iff_mul_le (Nat.pos_of_ne_zero hfactor)).mpr hbound
    have hsmall := hvalue.trans (Nat.div_le_self _ _)
    have hmin : (if duration = [] then 1 else min (digitsVal duration) (2 ^ 64 - 1)) =
        if duration = [] then 1 else digitsVal duration := by
      refine if_congr Iff.rfl rfl (Nat.min_eq_left ?_)
      split at hsmall
      · next hnil => rw [hnil]; decide
      · omega
    rw [rateDuration_eq hds (not_isdigit_unit hfactor), hmin]
    exact ⟨hfactor, (Nat.pos_of_mul_pos_right hpos).ne', hvalue, rfl⟩

/-- **What a rate means.** -/
theorem logRateParse_eq_some_iff {s : CStr} {count seconds : ℕ} :
    logRateParse s = some (count, seconds) ↔ RateText s count seconds := by
  constructor
  · intro h
    rw [logRateParse] at h
    split at h
    case isTrue => cases h
    case isFalse =>
    rcases hs : strtoull s with ⟨n, ep, erange⟩
    rw [hs] at h
    dsimp only at h
    split at h
    case isTrue => cases h
    case isFalse hcount =>
    simp only [not_or, not_lt, ne_eq, not_not] at hcount
    obtain ⟨herange, hn, hle, hslash⟩ := hcount
    obtain ⟨str, rfl⟩ := List.head?_eq_some_iff.mp hslash
    obtain rfl : erange = false := by simpa using herange
    obtain ⟨number, rfl, hnumber, -⟩ := (strtoull_parts hn).mp hs
    rw [List.tail_cons] at h
    split at h
    case isTrue => cases h
    case isFalse hbounds =>
    simp only [not_or, not_lt] at hbounds
    cases h
    obtain ⟨hpos, hbound, duration, unit, rfl, hds, hseconds⟩ :=
      readsPeriod_iff.mp ⟨hbounds.1, hbounds.2.1, hbounds.2.2, rfl⟩
    exact ⟨Nat.pos_of_ne_zero hn, hle, hpos, hbound, number, duration, unit, rfl, hnumber, hds,
      hseconds⟩
  · rintro ⟨hcount, hle, hpos, hbound, number, duration, unit, rfl, hnumber, hds, hseconds⟩
    have hslash : ∀ c ∈ (slash :: (duration ++ unit)).head?, isdigit c = false := by
      rintro c ⟨⟩
      rfl
    have hread := (strtoull_parts hcount.ne').mpr ⟨number, rfl, hnumber, hslash⟩
    obtain ⟨hfactor, hne, hvalue, rfl⟩ :=
      readsPeriod_iff.mpr ⟨hpos, hbound, duration, unit, rfl, hds, hseconds⟩
    rw [logRateParse]
    rw [if_neg (List.append_ne_nil_of_right_ne_nil _ (List.cons_ne_nil _ _)), hread]
    dsimp only
    rw [if_neg (by simp; omega), List.tail_cons]
    refine if_neg ?_
    rw [not_or, not_or, not_lt]
    exact ⟨hfactor, hne, hvalue⟩

/-! ## Words -/

/-- What a word of `log.level` says: a subsystem or a pattern, and a severity that is known; with a
rate, it has to be one. -/
inductive Says : CStr → Option LogFilter → Prop where
  | unnamed {tok : CStr} : colon ∉ tok → Says tok none
  | level {subsys text : CStr} : colon ∉ subsys → atSign ∉ text →
      logPriorityFromStr text ≠ .none →
      Says (subsys ++ colon :: text) (some ⟨subsys, logPriorityFromStr text, 0, 0⟩)
  | rated {subsys text rate : CStr} {count seconds : ℕ} : colon ∉ subsys → atSign ∉ text →
      logPriorityFromStr text ≠ .none → RateText rate count seconds →
      Says (subsys ++ colon :: (text ++ atSign :: rate))
        (some ⟨subsys, logPriorityFromStr text, count, seconds⟩)
  | unknown {subsys text : CStr} : colon ∉ subsys → atSign ∉ text →
      logPriorityFromStr text = .none → Says (subsys ++ colon :: text) none
  | unknownRated {subsys text rate : CStr} : colon ∉ subsys → atSign ∉ text →
      logPriorityFromStr text = .none → Says (subsys ++ colon :: (text ++ atSign :: rate)) none
  | badRate {subsys text rate : CStr} : colon ∉ subsys → atSign ∉ text →
      (∀ count seconds, ¬ RateText rate count seconds) →
      Says (subsys ++ colon :: (text ++ atSign :: rate)) none

/-- A pattern `name.*` is also one for `name`. -/
def LogFilter.expand (f : LogFilter) : List LogFilter :=
  let len := f.pattern.length
  if 2 ≤ len ∧ f.pattern.drop (len - 2) = lit ".*" then
    [{ f with pattern := f.pattern.take (len - 2) }, f]
  else [f]

/-- The filters of all words, in the order of the words. -/
def filtersOf (said : List (Option LogFilter)) : List LogFilter :=
  said.flatMap fun o ↦ o.toList.flatMap LogFilter.expand

theorem exists_says (tok : CStr) : ∃ o, Says tok o := by
  by_cases hcolon : colon ∈ tok
  case neg => exact ⟨none, .unnamed hcolon⟩
  obtain ⟨subsys, rest, rfl, hsubsys⟩ := List.eq_append_cons_of_mem hcolon
  by_cases hat : atSign ∈ rest
  · obtain ⟨text, rate, rfl, htext⟩ := List.eq_append_cons_of_mem hat
    by_cases hlevel : logPriorityFromStr text = .none
    · exact ⟨none, .unknownRated hsubsys htext hlevel⟩
    · by_cases hrate : ∃ count seconds, RateText rate count seconds
      · obtain ⟨count, seconds, hrate⟩ := hrate
        exact ⟨_, .rated hsubsys htext hlevel hrate⟩
      · simp only [not_exists] at hrate
        exact ⟨none, .badRate hsubsys htext hrate⟩
  · by_cases hlevel : logPriorityFromStr rest = .none
    · exact ⟨none, .unknown hsubsys hat hlevel⟩
    · exact ⟨_, .level hsubsys hat hlevel⟩

/-- What is added for a filter. -/
theorem expand_reverse (f : LogFilter) (filters : List LogFilter) :
    logAddFilterRate
      (if 2 ≤ f.pattern.length ∧ f.pattern.drop (f.pattern.length - 2) = lit ".*" then
        logAddFilterRate filters (f.pattern.take (f.pattern.length - 2)) f.level f.rateCount
          f.rateSeconds
      else filters) f.pattern f.level f.rateCount f.rateSeconds = f.expand.reverse ++ filters := by
  unfold LogFilter.expand
  dsimp only
  split
  · rfl
  · rfl

/-- A text that is cut at the first one of some character. -/
theorem strchr_split {c : UInt8} {a : CStr} (hc : c ∉ a) (b : CStr) :
    strchr c (a ++ c :: b) = some a.length ∧ (a ++ c :: b).take a.length = a ∧
      (a ++ c :: b).drop (a.length + 1) = b := by
  refine ⟨strchr_append hc b, List.take_left, ?_⟩
  rw [List.drop_append, List.drop_of_length_le (Nat.le_succ _), Nat.add_sub_cancel_left]
  rfl

theorem levelParts_plain {text : CStr} (h : atSign ∉ text) :
    levelParts text = (text, some (0, 0)) := by
  rw [levelParts, strchr, if_neg h]

theorem levelParts_rated {text : CStr} (h : atSign ∉ text) (rate : CStr) :
    levelParts (text ++ atSign :: rate) = (text, logRateParse rate) := by
  obtain ⟨hchr, htake, hdrop⟩ := strchr_split h rate
  rw [levelParts, hchr]
  dsimp only
  rw [htake, hdrop]

theorem loadWord_badRate {subsys rest levelStr : CStr} (h : colon ∉ subsys)
    (hrest : levelParts rest = (levelStr, none)) (filters : List LogFilter) :
    loadWord filters (subsys ++ colon :: rest) = filters := by
  obtain ⟨hchr, htake, hdrop⟩ := strchr_split h rest
  rw [loadWord, hchr]
  dsimp only
  rw [htake, hdrop, hrest]

theorem loadWord_named {subsys rest levelStr : CStr} {count seconds : ℕ} (h : colon ∉ subsys)
    (hrest : levelParts rest = (levelStr, some (count, seconds))) (filters : List LogFilter) :
    loadWord filters (subsys ++ colon :: rest) =
      if logPriorityFromStr levelStr = .none then filters
      else (LogFilter.expand ⟨subsys, logPriorityFromStr levelStr, count, seconds⟩).reverse ++
        filters := by
  obtain ⟨hchr, htake, hdrop⟩ := strchr_split h rest
  rw [loadWord, hchr]
  dsimp only
  rw [htake, hdrop, hrest]
  exact if_congr Iff.rfl rfl (expand_reverse ⟨subsys, _, count, seconds⟩ filters)

/-- **A word adds the filters it says.** -/
theorem loadWord_of_says {tok : CStr} {o : Option LogFilter} (h : Says tok o)
    (filters : List LogFilter) :
    loadWord filters tok = (o.toList.flatMap LogFilter.expand).reverse ++ filters := by
  have hone : ∀ f : LogFilter, (some f).toList.flatMap LogFilter.expand = f.expand := fun f ↦ by
    rw [Option.toList_some, List.flatMap_singleton]
  cases h with
  | unnamed hcolon =>
    rw [loadWord, strchr, if_neg hcolon]
    rfl
  | level hsubsys htext hlevel =>
    rw [loadWord_named hsubsys (levelParts_plain htext), hone]
    exact if_neg hlevel
  | rated hsubsys htext hlevel hrate =>
    have hparts := levelParts_rated htext
    rw [loadWord_named hsubsys ((hparts _).trans (by rw [logRateParse_eq_some_iff.mpr hrate])),
      hone]
    exact if_neg hlevel
  | unknown hsubsys htext hlevel =>
    rw [loadWord_named hsubsys (levelParts_plain htext)]
    exact if_pos hlevel
  | @unknownRated subsys text rate hsubsys htext hlevel =>
    have hparts := levelParts_rated htext rate
    cases hrate : logRateParse rate with
    | none => exact loadWord_badRate hsubsys (hparts.trans (by rw [hrate])) filters
    | some r =>
      rw [loadWord_named hsubsys (hparts.trans (by rw [hrate]))]
      exact if_pos hlevel
  | @badRate subsys text rate hsubsys htext hrate =>
    have hnone : logRateParse rate = none := by
      refine Option.eq_none_iff_forall_ne_some.mpr fun r hr ↦ ?_
      exact hrate r.1 r.2 (logRateParse_eq_some_iff.mp hr)
    have hparts := levelParts_rated htext rate
    exact loadWord_badRate hsubsys (hparts.trans (by rw [hnone])) filters

theorem loadLogFilters_says {cfg : CStr} {toks : List CStr} {said : List (Option LogFilter)}
    (hcfg : Spaced isLevelSep cfg toks) (htoks : List.Forall₂ Says toks said)
    (filters : List LogFilter) :
    loadLogFiltersFromConfig (some cfg) filters = (filtersOf said).reverse ++ filters := by
  rw [loadLogFiltersFromConfig, words_eq_iff.mpr hcfg]
  clear hcfg
  induction htoks generalizing filters with
  | nil => rfl
  | @cons tok o toks said h _ ih =>
    have hcons : filtersOf (o :: said) = o.toList.flatMap LogFilter.expand ++ filtersOf said :=
      List.flatMap_cons
    rw [List.foldl_cons, ih, loadWord_of_says h, hcons, List.reverse_append, List.append_assoc]

/-! ## The filter of a subsystem -/

/-- `f` is the last one of the filters with the longest pattern that matches. -/
def Governs (fnmatch : CStr → CStr → Bool) (filters : List LogFilter) (subsys : CStr)
    (f : LogFilter) : Prop :=
  ∃ before after, filters = before ++ f :: after ∧ fnmatch f.pattern subsys = true ∧
    (∀ g ∈ before, fnmatch g.pattern subsys = true → g.pattern.length ≤ f.pattern.length) ∧
    ∀ g ∈ after, fnmatch g.pattern subsys = true → g.pattern.length < f.pattern.length

theorem logMatchingFilter_reverse (fnmatch : CStr → CStr → Bool) (filters : List LogFilter)
    (subsys : CStr) (f : LogFilter) :
    logMatchingFilter fnmatch filters.reverse subsys = some f ↔
      Governs fnmatch filters subsys f := by
  rw [logMatchingFilter, firstMax_eq_some_iff]
  constructor
  · rintro ⟨before, after, heq, hf, hbefore, hafter⟩
    refine ⟨after.reverse, before.reverse, ?_, hf, ?_, ?_⟩
    · have hreverse := congrArg List.reverse heq
      simpa using hreverse
    · exact fun g hg ↦ hafter g (List.mem_reverse.mp hg)
    · exact fun g hg ↦ hbefore g (List.mem_reverse.mp hg)
  · rintro ⟨before, after, rfl, hf, hbefore, hafter⟩
    refine ⟨after.reverse, before.reverse, by simp, hf, ?_, ?_⟩
    · exact fun g hg ↦ hafter g (List.mem_reverse.mp hg)
    · exact fun g hg ↦ hbefore g (List.mem_reverse.mp hg)

/-- **What `log.level` means**: the filter of a subsystem, with its severity and its rate, is the
last one of those with the longest pattern that matches, and a message is not logged if it is less
severe than that filter allows, or than `debug` where no pattern matches. -/
theorem logFilters_load (fnmatch : CStr → CStr → Bool) {cfg : CStr} {toks : List CStr}
    {said : List (Option LogFilter)} (hcfg : Spaced isLevelSep cfg toks)
    (htoks : List.Forall₂ Says toks said) (subsys : Option CStr) (msgLevel : LogPriority) :
    (∀ f, logMatchingFilter fnmatch (loadLogFiltersFromConfig (some cfg) []) (subsys.getD []) =
        some f ↔ Governs fnmatch (filtersOf said) (subsys.getD []) f) ∧
      (debugFilter fnmatch (loadLogFiltersFromConfig (some cfg) []) subsys msgLevel = true ↔
        (∃ f, Governs fnmatch (filtersOf said) (subsys.getD []) f ∧
          f.level.value < msgLevel.value) ∨
        (∀ f ∈ filtersOf said, fnmatch f.pattern (subsys.getD []) = false) ∧
          LogPriority.debug.value < msgLevel.value) := by
  rw [debugFilter, loadLogFilters_says hcfg htoks, List.append_nil, decide_eq_true_iff]
  have hmatching := logMatchingFilter_reverse fnmatch (filtersOf said) (subsys.getD [])
  refine ⟨hmatching, ?_⟩
  have hmem : ∀ {f}, Governs fnmatch (filtersOf said) (subsys.getD []) f →
      f ∈ filtersOf said ∧ fnmatch f.pattern (subsys.getD []) = true := by
    rintro f ⟨before, after, heq, hf, -⟩
    exact ⟨heq ▸ List.mem_append_right _ List.mem_cons_self, hf⟩
  cases hbest : logMatchingFilter fnmatch (filtersOf said).reverse (subsys.getD []) with
  | none =>
    have hno : ∀ f ∈ filtersOf said, fnmatch f.pattern (subsys.getD []) = false := fun f hf ↦
      firstMax_eq_none_iff.mp hbest f (List.mem_reverse.mpr hf)
    constructor
    · exact fun h ↦ .inr ⟨hno, h⟩
    · rintro (⟨f, hf, -⟩ | ⟨-, h⟩)
      · have hmatch := (hmem hf).2
        rw [hno f (hmem hf).1] at hmatch
        cases hmatch
      · exact h
  | some best =>
    have hgoverns := (hmatching best).mp hbest
    constructor
    · exact fun h ↦ .inl ⟨best, hgoverns, h⟩
    · rintro (⟨f, hf, h⟩ | ⟨hno, -⟩)
      · cases hbest.symm.trans ((hmatching f).mpr hf)
        exact h
      · have hmatch := (hmem hgoverns).2
        rw [hno best (hmem hgoverns).1] at hmatch
        cases hmatch

/-- Two words, the second of them with a rate. -/
def ircLevel : CStr := lit " irc:warn, www.*:debug@10/5m"

theorem logFilters_load_irc :
    debugFilter (fun pattern name ↦ pattern == name) (loadLogFiltersFromConfig (some ircLevel) [])
      (some (lit "irc")) .info = true := by
  have hwords : Spaced isLevelSep ircLevel
      [lit "irc" ++ colon :: lit "warn", lit "www.*" ++ colon :: (lit "debug" ++ atSign ::
        lit "10/5m")] := words_eq_iff.mp (by decide)
  have hirc : Says (lit "irc" ++ colon :: lit "warn") (some ⟨lit "irc", .warn, 0, 0⟩) :=
    .level (by decide) (by decide) (by decide)
  have hrate : RateText (lit "10/5m") 10 300 := logRateParse_eq_some_iff.mp (by decide)
  have hwww : Says (lit "www.*" ++ colon :: (lit "debug" ++ atSign :: lit "10/5m"))
      (some ⟨lit "www.*", .debug, 10, 300⟩) :=
    .rated (by decide) (by decide) (by decide) hrate
  refine (logFilters_load (fun pattern name ↦ pattern == name) hwords
    (.cons hirc (.cons hwww .nil)) (some (lit "irc")) .info).2.mpr
    (.inl ⟨⟨lit "irc", .warn, 0, 0⟩, ⟨[], _, rfl, ?_, ?_, ?_⟩, ?_⟩)
  · decide
  · exact List.forall_mem_nil _
  · decide
  · decide

end Rustyaxe.Logger
