import Mathlib.Data.Finset.Card
import Rustyaxe.Lib.FixedWindow
import Rustyaxe.LogQueue

/-!
# Rate limits of the log

`log_rate_allowed` of `logger.c`.  A fixed number of slots holds a limiter for every pair of a
subsystem and a severity; a pair gets the first free slot when it first appears.

A slot has room for 127 bytes of the name of the subsystem, and is looked up by the whole name.  So
a pair whose name is longer never finds its slot again: every call takes another one, until there
are none left and everything is admitted.  With names that fit, the table is one limiter for each
pair (`logRateAllowed_sim`).
-/

set_option autoImplicit false

namespace Rustyaxe

open PerKey FixedWindow

/-! ## The table -/

/-- The numbers of `enum LogPriority`. -/
def LogPriority.value : LogPriority → ℤ
  | .none => -1
  | .crit => 0
  | .audit => 1
  | .warn => 2
  | .info => 3
  | .debug => 4
  | .crazy => 5
  | .blitzkreig => 6

/-- `LOG_RATE_SLOTS` -/
def logRateSlots : ℕ := 256

/-- `struct log_rate_slot`.  `emitted` never gets above a `count` and `suppressed` stops at
`UINT32_MAX`, so neither wraps around. -/
structure LogRateSlot where
  subsys : CStr
  priority : LogPriority
  emitted : ℕ
  suppressed : ℕ
  windowStart : ℤ
  used : Bool
  deriving DecidableEq, Repr

/-- A slot of static storage. -/
def freeSlot : LogRateSlot := ⟨[], .crit, 0, 0, 0, false⟩

/-- The slots of static storage. -/
def emptySlots : List LogRateSlot := List.replicate logRateSlots freeSlot

/-- `UINT32_MAX` -/
def uint32Max : ℕ := 2 ^ 32 - 1

/-- The arguments of a call, and the seconds `clock_gettime` gives it, if it does. -/
structure RateCall where
  subsys : CStr
  level : LogPriority
  count : ℕ
  seconds : ℕ
  now : Option ℤ
  deriving DecidableEq, Repr

/-- The test of the lookup. -/
def LogRateSlot.isFor (subsys : CStr) (level : LogPriority) (slot : LogRateSlot) : Bool :=
  slot.used && slot.priority == level && slot.subsys == subsys

/-- `if (ts.tv_sec - slot->window_start >= (time_t) seconds || ts.tv_sec < slot->window_start)`,
with `*skipped`. -/
def LogRateSlot.roll (ts : ℤ) (seconds : ℕ) (slot : LogRateSlot) : ℕ × LogRateSlot :=
  if ts - slot.windowStart ≥ seconds ∨ ts < slot.windowStart then
    (slot.suppressed, { slot with emitted := 0, suppressed := 0, windowStart := ts })
  else (0, slot)

/-- `log_rate_allowed` from there on. -/
def LogRateSlot.take (ts : ℤ) (count seconds : ℕ) (slot : LogRateSlot) :
    (Bool × ℕ) × LogRateSlot :=
  let (skipped, slot) := slot.roll ts seconds
  if slot.emitted ≥ count then
    ((false, skipped),
      if slot.suppressed < uint32Max then { slot with suppressed := slot.suppressed + 1 } else slot)
  else ((true, skipped), { slot with emitted := slot.emitted + 1 })

/-- A slot for the pair, in place of what was there: `snprintf` cuts the name. -/
def LogRateSlot.fresh (subsys : CStr) (level : LogPriority) (ts : ℤ) : LogRateSlot :=
  ⟨subsys.take 127, level, 0, 0, ts, true⟩

/-- `log_rate_allowed`: the verdict and `*skipped`. -/
def logRateAllowed (slots : List LogRateSlot) (c : RateCall) :
    (Bool × ℕ) × List LogRateSlot :=
  if c.count = 0 ∨ c.level.value ≤ LogPriority.audit.value then ((true, 0), slots)
  else
    match c.now with
    | none => ((true, 0), slots)
    | some ts =>
      let found := updateFirst (LogRateSlot.isFor c.subsys c.level)
        (LogRateSlot.take ts c.count c.seconds) slots
      let free := updateFirst (fun slot ↦ !slot.used)
        (fun _ ↦ (LogRateSlot.fresh c.subsys c.level ts).take ts c.count c.seconds) slots
      -- without a slot, fail open
      (found.or free).getD ((true, 0), slots)

/-! ## What is asked of a run -/

/-- What a limiter is for. -/
abbrev RateCall.pair (c : RateCall) : CStr × LogPriority := (c.subsys, c.level)

/-- The rule a call is made with. -/
def rateRule : Rule RateCall where
  time c := c.now.getD 0
  count := RateCall.count
  seconds := RateCall.seconds

/-- The calls of a run with their answers. -/
def rateOutcomes (calls : List RateCall) : List (RateCall × Bool × ℕ) :=
  (run logRateAllowed emptySlots calls).1

/-- `suppressed` of the slot that is found for the pair. -/
def ratePending (calls : List RateCall) (p : CStr × LogPriority) : ℕ :=
  ((run logRateAllowed emptySlots calls).2.find? (LogRateSlot.isFor p.1 p.2)).elim 0
    LogRateSlot.suppressed

/-- The calls of a pair with their answers. -/
def rateOutcomesOf (p : CStr × LogPriority) (calls : List RateCall) :
    List (RateCall × Bool × ℕ) :=
  (rateOutcomes calls).filter (·.1.pair = p)

/-- A run in which at most as many pairs occur as there are slots, under rules that limit
something, with a clock that does not go back. -/
structure IsRateRun (calls : List RateCall) : Prop where
  count : ∀ c ∈ calls, 1 ≤ c.count
  seconds : ∀ c ∈ calls, 1 ≤ c.seconds
  level : ∀ c ∈ calls, LogPriority.audit.value < c.level.value
  now : ∀ c ∈ calls, c.now.isSome
  mono : calls.Pairwise fun c c' ↦ rateRule.time c ≤ rateRule.time c'
  pairs : (calls.map RateCall.pair).toFinset.card ≤ logRateSlots

/-- Every pair is limited on its own: its calls are answered as if there were no others; in each of
its windows at most as many are admitted as its rule says; and what has been refused is what has
been reported and what is pending, as long as the counter has not reached its end. -/
structure LimitedIndependently (calls : List RateCall) : Prop where
  alone : ∀ p, rateOutcomesOf p calls = rateOutcomes (calls.filter (·.pair = p))
  window : ∀ p w count,
    (∀ x ∈ rateRule.windowed none (rateOutcomesOf p calls), x.1 = w → x.2.1.count ≤ count) →
      admittedIn w (rateRule.windowed none (rateOutcomesOf p calls)) ≤ count
  conserved : ∀ p,
    (∀ w, refusedIn w (rateRule.windowed none (rateOutcomesOf p calls)) ≤ uint32Max) →
      refused (rateOutcomesOf p calls) = reported (rateOutcomesOf p calls) + ratePending calls p

/-! ## A slot is a limiter -/

/-- The limiter in a slot. -/
def LogRateSlot.window (slot : LogRateSlot) : Window :=
  ⟨slot.windowStart, slot.emitted, slot.suppressed⟩

/-- The pair a slot is looked up by. -/
def LogRateSlot.pair (slot : LogRateSlot) : CStr × LogPriority := (slot.subsys, slot.priority)

theorem LogRateSlot.isFor_iff {slot : LogRateSlot} {p : CStr × LogPriority} :
    slot.isFor p.1 p.2 = true ↔ slot.used = true ∧ slot.pair = p := by
  rw [LogRateSlot.isFor, LogRateSlot.pair, Prod.ext_iff]
  simp [and_assoc, and_comm]

theorem LogRateSlot.isFor_eq_false_iff {slot : LogRateSlot} {p : CStr × LogPriority} :
    slot.isFor p.1 p.2 = false ↔ (slot.used = true → slot.pair ≠ p) := by
  rw [← Bool.not_eq_true, LogRateSlot.isFor_iff, not_and]

theorem rateRule_time {c : RateCall} {ts : ℤ} (hnow : c.now = some ts) : rateRule.time c = ts := by
  change c.now.getD 0 = ts
  rw [hnow, Option.getD_some]

/-- The limiter of the slot takes the call; the slot stays that of its pair. -/
theorem LogRateSlot.take_spec (slot : LogRateSlot) {c : RateCall} {ts : ℤ} (hnow : c.now = some ts) :
    (slot.take ts c.count c.seconds).1 = (rateRule.step uint32Max (some slot.window) c).1 ∧
      some (slot.take ts c.count c.seconds).2.window
        = (rateRule.step uint32Max (some slot.window) c).2 ∧
      (slot.take ts c.count c.seconds).2.pair = slot.pair ∧
      (slot.take ts c.count c.seconds).2.used = slot.used := by
  have htime := rateRule_time hnow
  have hroll : (slot.roll ts c.seconds).1 = (rateRule.enter (some slot.window) c).1 ∧
      (slot.roll ts c.seconds).2.window = (rateRule.enter (some slot.window) c).2 ∧
      (slot.roll ts c.seconds).2.pair = slot.pair ∧
      (slot.roll ts c.seconds).2.used = slot.used := by
    have hiff : rateRule.rolls slot.window.start c ↔
        ts - slot.windowStart ≥ c.seconds ∨ ts < slot.windowStart := by
      rw [Rule.rolls, htime]
      rfl
    rw [LogRateSlot.roll, Rule.enter, htime]
    simp only [hiff]
    split <;> exact ⟨rfl, rfl, rfl, rfl⟩
  obtain ⟨hskipped, hwindow, hpair, hused⟩ := hroll
  rw [LogRateSlot.take, Rule.step, ← hskipped, ← hwindow, ← hpair, ← hused]
  dsimp only
  generalize (slot.roll ts c.seconds).2 = s
  rw [Rule.serve]
  by_cases hcount : s.emitted ≥ c.count
  · have hcount' : s.window.emitted ≥ rateRule.count c := hcount
    rw [if_pos hcount, if_pos hcount']
    refine ⟨rfl, ?_, ?_⟩
    · dsimp only
      by_cases hmax : s.suppressed < uint32Max
      · have hmax' : s.window.suppressed < uint32Max := hmax
        rw [if_pos hmax, if_pos hmax']
        rfl
      · have hmax' : ¬ s.window.suppressed < uint32Max := hmax
        rw [if_neg hmax, if_neg hmax']
    · dsimp only
      split <;> exact ⟨rfl, rfl⟩
  · have hcount' : ¬ s.window.emitted ≥ rateRule.count c := hcount
    rw [if_neg hcount, if_neg hcount']
    exact ⟨rfl, rfl, rfl, rfl⟩

/-- The slot of a new pair, if the name fits. -/
theorem LogRateSlot.fresh_take_spec {c : RateCall} {ts : ℤ} (hnow : c.now = some ts)
    (hseconds : 1 ≤ c.seconds) (hname : c.subsys.length ≤ 127) :
    ((LogRateSlot.fresh c.subsys c.level ts).take ts c.count c.seconds).1
        = (rateRule.step uint32Max none c).1 ∧
      some ((LogRateSlot.fresh c.subsys c.level ts).take ts c.count c.seconds).2.window
        = (rateRule.step uint32Max none c).2 ∧
      ((LogRateSlot.fresh c.subsys c.level ts).take ts c.count c.seconds).2.pair = c.pair ∧
      ((LogRateSlot.fresh c.subsys c.level ts).take ts c.count c.seconds).2.used = true := by
  obtain ⟨hout, hwindow, hpair, hused⟩ :=
    (LogRateSlot.fresh c.subsys c.level ts).take_spec hnow
  have htime := rateRule_time hnow
  have henter : rateRule.enter (some (LogRateSlot.fresh c.subsys c.level ts).window) c
      = rateRule.enter none c := by
    have hrolls : ¬ rateRule.rolls (LogRateSlot.fresh c.subsys c.level ts).window.start c := by
      have hstart : (LogRateSlot.fresh c.subsys c.level ts).window.start = ts := rfl
      have hsec : rateRule.seconds c = c.seconds := rfl
      rw [Rule.rolls, htime, hstart, hsec]
      omega
    rw [Rule.enter, Rule.enter, htime]
    simp only [hrolls, if_false]
    rfl
  refine ⟨?_, ?_, ?_, hused⟩
  · rw [hout, Rule.step, Rule.step, henter]
  · rw [hwindow, Rule.step, Rule.step, henter]
  · rw [hpair]
    exact congrArg (·, c.level) (List.take_of_length_le hname)

/-! ## The table is one limiter for each pair -/

/-- The slots hold the limiters of the pairs that have occurred, all of which are in `P`. -/
structure Tracks (P : Finset (CStr × LogPriority)) (slots : List LogRateSlot)
    (m : CStr × LogPriority → Option Window) : Prop where
  length : slots.length = logRateSlots
  find : ∀ p, (slots.find? (LogRateSlot.isFor p.1 p.2)).map LogRateSlot.window = m p
  nodup : ((slots.filter LogRateSlot.used).map LogRateSlot.pair).Nodup
  mem : ∀ slot ∈ slots, slot.used = true → slot.pair ∈ P

theorem tracks_emptySlots (P : Finset (CStr × LogPriority)) : Tracks P emptySlots fun _ ↦ none := by
  have hunused : ∀ slot ∈ emptySlots, slot.used = false := by
    intro slot hslot
    rw [List.eq_of_mem_replicate hslot]
    rfl
  refine ⟨List.length_replicate, fun p ↦ ?_, ?_, fun slot hslot hused ↦ ?_⟩
  · rw [List.find?_eq_none.mpr, Option.map_none]
    intro slot hslot
    rw [LogRateSlot.isFor, hunused slot hslot]
    exact Bool.false_ne_true
  · have hnil : emptySlots.filter LogRateSlot.used = [] :=
      List.filter_eq_nil_iff.mpr fun slot hslot ↦ by simp [hunused slot hslot]
    rw [hnil]
    exact List.nodup_nil
  · rw [hunused slot hslot] at hused
    cases hused

/-- A slot gets the limiter of a pair, in the place of the one it had or of none. -/
theorem Tracks.replace {P : Finset (CStr × LogPriority)} {before after : List LogRateSlot}
    {slot slot' : LogRateSlot} {m : CStr × LogPriority → Option Window} {p : CStr × LogPriority}
    (h : Tracks P (before ++ slot :: after) m) (hp : p ∈ P)
    (hother : ∀ s ∈ before, s.isFor p.1 p.2 = false)
    (hafter : ∀ s ∈ before ++ after, s.used = true → s.pair ≠ p)
    (hslot : slot.used = true → slot.pair = p) (hused : slot'.used = true) (hpair : slot'.pair = p) :
    Tracks P (before ++ slot' :: after) (Function.update m p (some slot'.window)) := by
  obtain ⟨hlength, hfind, hnodup, hmem⟩ := h
  refine ⟨?_, fun q ↦ ?_, ?_, ?_⟩
  · rw [List.length_append, List.length_cons] at *
    exact hlength
  · by_cases hq : q = p
    · subst hq
      rw [find?_first hother (LogRateSlot.isFor_iff.mpr ⟨hused, hpair⟩), Function.update_self]
      rfl
    · rw [Function.update_of_ne hq, ← hfind q]
      congr 1
      refine find?_replace ?_ ?_
      · exact LogRateSlot.isFor_eq_false_iff.mpr fun h ↦ hslot h ▸ Ne.symm hq
      · exact LogRateSlot.isFor_eq_false_iff.mpr fun _ ↦ hpair ▸ Ne.symm hq
  · rw [List.filter_append, List.filter_cons, if_pos hused, List.map_append, List.map_cons,
      List.nodup_middle, List.nodup_cons, hpair]
    constructor
    · rw [← List.map_append, ← List.filter_append]
      intro hmem
      obtain ⟨s, hs, hsp⟩ := List.mem_map.mp hmem
      rw [List.mem_filter] at hs
      exact hafter s hs.1 hs.2 hsp
    · refine hnodup.sublist ?_
      rw [List.filter_append, List.filter_cons, List.map_append]
      refine List.Sublist.append_left ?_ _
      split
      · exact List.sublist_cons_self _ _
      · exact List.Sublist.refl _
  · intro s hs hsused
    rw [List.mem_append, List.mem_cons] at hs
    rcases hs with hs | rfl | hs
    · exact hmem s (by simp [hs]) hsused
    · exact hpair ▸ hp
    · exact hmem s (by simp [hs]) hsused

/-- The slots of the other pairs. -/
theorem Tracks.pair_ne {P : Finset (CStr × LogPriority)} {before after : List LogRateSlot}
    {slot : LogRateSlot} {m : CStr × LogPriority → Option Window}
    (h : Tracks P (before ++ slot :: after) m) (hused : slot.used = true) :
    ∀ s ∈ before ++ after, s.used = true → s.pair ≠ slot.pair := by
  have hnodup := h.nodup
  rw [List.filter_append, List.filter_cons, if_pos hused, List.map_append, List.map_cons,
    List.nodup_middle, List.nodup_cons, ← List.map_append, ← List.filter_append] at hnodup
  intro s hs hsused heq
  exact hnodup.1 (heq ▸ List.mem_map_of_mem (List.mem_filter.mpr ⟨hs, hsused⟩))

/-- As long as there are no more pairs than slots, a pair that has no slot finds a free one. -/
theorem Tracks.exists_unused {P : Finset (CStr × LogPriority)} {slots : List LogRateSlot}
    {m : CStr × LogPriority → Option Window} (h : Tracks P slots m) (hP : P.card ≤ logRateSlots)
    {p : CStr × LogPriority} (hp : p ∈ P) (hnone : ∀ s ∈ slots, s.isFor p.1 p.2 = false) :
    ∃ s ∈ slots, s.used = false := by
  by_contra hall
  have hused : ∀ s ∈ slots, s.used = true := fun s hs ↦
    (Bool.not_eq_false _).mp fun hunused ↦ hall ⟨s, hs, hunused⟩
  have hnodup := h.nodup
  rw [List.filter_eq_self.mpr hused] at hnodup
  have hsub : insert p (slots.map LogRateSlot.pair).toFinset ⊆ P := by
    refine Finset.insert_subset hp fun q hq ↦ ?_
    obtain ⟨s, hs, rfl⟩ := List.mem_map.mp (List.mem_toFinset.mp hq)
    exact h.mem s hs (hused s hs)
  have hnew : p ∉ (slots.map LogRateSlot.pair).toFinset := by
    intro hq
    obtain ⟨s, hs, hsp⟩ := List.mem_map.mp (List.mem_toFinset.mp hq)
    exact LogRateSlot.isFor_eq_false_iff.mp (hnone s hs) (hused s hs) hsp
  have hcard := Finset.card_le_card hsub
  rw [Finset.card_insert_of_notMem hnew, List.toFinset_card_of_nodup hnodup, List.length_map,
    h.length] at hcard
  omega

/-- **A call is taken by the limiter of its pair**, if the name of the subsystem fits into a slot
and there are no more pairs than slots. -/
theorem logRateAllowed_sim {P : Finset (CStr × LogPriority)} (hP : P.card ≤ logRateSlots)
    {c : RateCall} (hcount : 1 ≤ c.count) (hseconds : 1 ≤ c.seconds)
    (hlevel : LogPriority.audit.value < c.level.value) (hnow : c.now.isSome) (hpair : c.pair ∈ P)
    (hname : c.subsys.length ≤ 127) {slots : List LogRateSlot}
    {m : CStr × LogPriority → Option Window} (h : Tracks P slots m) :
    (logRateAllowed slots c).1 = (keyed RateCall.pair (rateRule.step uint32Max) m c).1 ∧
      Tracks P (logRateAllowed slots c).2 (keyed RateCall.pair (rateRule.step uint32Max) m c).2 := by
  obtain ⟨ts, hts⟩ := Option.isSome_iff_exists.mp hnow
  have hfind := h.find c.pair
  rw [logRateAllowed, if_neg (by omega), hts, keyed]
  dsimp only
  cases hfound : updateFirst (LogRateSlot.isFor c.subsys c.level)
      (LogRateSlot.take ts c.count c.seconds) slots with
  | some r =>
    obtain ⟨before, slot, after, rfl, hbefore, hslot, rfl⟩ := updateFirst_eq_some hfound
    obtain ⟨hout, hwindow, hpair', hused'⟩ := slot.take_spec hts
    obtain ⟨hused, hkey⟩ := LogRateSlot.isFor_iff (p := c.pair).mp hslot
    have hm : m c.pair = some slot.window := by
      rw [← hfind, find?_first hbefore hslot]
      rfl
    rw [hm, ← hwindow, Option.some_or, Option.getD_some]
    exact ⟨hout, h.replace hpair hbefore (hkey ▸ h.pair_ne hused) (fun _ ↦ hkey)
      (hused'.trans hused) (hpair'.trans hkey)⟩
  | none =>
    have hnone := updateFirst_eq_none.mp hfound
    have hm : m c.pair = none := by
      rw [← hfind, List.find?_eq_none.mpr, Option.map_none]
      exact fun s hs ↦ by rw [hnone s hs]; exact Bool.false_ne_true
    rw [Option.none_or]
    cases hfree : updateFirst (fun slot ↦ !slot.used)
        (fun _ ↦ (LogRateSlot.fresh c.subsys c.level ts).take ts c.count c.seconds) slots with
    | some r =>
      obtain ⟨before, slot, after, rfl, hbefore, hslot, rfl⟩ := updateFirst_eq_some hfree
      obtain ⟨hout, hwindow, hpair', hused'⟩ := LogRateSlot.fresh_take_spec hts hseconds hname
      rw [hm, ← hwindow, Option.getD_some]
      refine ⟨hout, h.replace hpair (fun s hs ↦ hnone s (by simp [hs])) (fun s hs ↦ ?_)
        (fun hused ↦ by simp [hused] at hslot) hused' hpair'⟩
      refine LogRateSlot.isFor_eq_false_iff.mp (hnone s ?_)
      rw [List.mem_append] at hs
      rw [List.mem_append, List.mem_cons]
      tauto
    | none =>
      obtain ⟨s, hs, hunused⟩ := h.exists_unused hP hpair hnone
      have := updateFirst_eq_none.mp hfree s hs
      rw [hunused] at this
      cases this

/-- The run of the code is the run of the limiters. -/
theorem run_logRateAllowed {P : Finset (CStr × LogPriority)} (hP : P.card ≤ logRateSlots)
    {calls : List RateCall} (hrun : IsRateRun calls) (hpairs : ∀ c ∈ calls, c.pair ∈ P)
    (hname : ∀ c ∈ calls, c.subsys.length ≤ 127) :
    rateOutcomes calls = (run (keyed RateCall.pair (rateRule.step uint32Max)) (fun _ ↦ none) calls).1 ∧
      Tracks P (run logRateAllowed emptySlots calls).2
        (run (keyed RateCall.pair (rateRule.step uint32Max)) (fun _ ↦ none) calls).2 :=
  run_sim (fun c hc _ _ ↦ logRateAllowed_sim hP (hrun.count c hc) (hrun.seconds c hc)
    (hrun.level c hc) (hrun.now c hc) (hpairs c hc) (hname c hc)) (tracks_emptySlots P)

theorem IsRateRun.filter {calls : List RateCall} (h : IsRateRun calls) (f : RateCall → Bool) :
    IsRateRun (calls.filter f) := by
  have hmem : ∀ {c}, c ∈ calls.filter f → c ∈ calls := fun hc ↦ (List.mem_filter.mp hc).1
  refine ⟨fun c hc ↦ h.count c (hmem hc), fun c hc ↦ h.seconds c (hmem hc),
    fun c hc ↦ h.level c (hmem hc), fun c hc ↦ h.now c (hmem hc), h.mono.filter _, ?_⟩
  refine (Finset.card_le_card fun p hp ↦ ?_).trans h.pairs
  obtain ⟨c, hc, rfl⟩ := List.mem_map.mp (List.mem_toFinset.mp hp)
  exact List.mem_toFinset.mpr (List.mem_map_of_mem (hmem hc))

/-- What the limiter of a pair does in a run is what it does alone. -/
theorem rateOutcomesOf_eq {calls : List RateCall} (hrun : IsRateRun calls)
    (hname : ∀ c ∈ calls, c.subsys.length ≤ 127) (p : CStr × LogPriority) :
    rateOutcomesOf p calls
        = (run (rateRule.step uint32Max) none (calls.filter (·.pair = p))).1 ∧
      ratePending calls p
        = pending (run (rateRule.step uint32Max) none (calls.filter (·.pair = p))).2 := by
  obtain ⟨houts, htracks⟩ := run_logRateAllowed hrun.pairs hrun
    (fun c hc ↦ List.mem_toFinset.mpr (List.mem_map_of_mem hc)) hname
  obtain ⟨hkeyed, hend⟩ :=
    run_keyed RateCall.pair (rateRule.step uint32Max) p calls fun _ ↦ none
  rw [rateOutcomesOf, houts, hkeyed, ratePending, ← hend, ← htracks.find p]
  refine ⟨rfl, ?_⟩
  cases (run logRateAllowed emptySlots calls).2.find? (LogRateSlot.isFor p.1 p.2) <;> rfl

/-- **A run in which every name fits is limited as it should be.** -/
theorem IsRateRun.limitedIndependently {calls : List RateCall} (hrun : IsRateRun calls)
    (hname : ∀ c ∈ calls, c.subsys.length ≤ 127) : LimitedIndependently calls := by
  refine ⟨fun p ↦ ?_, fun p w count hcount ↦ ?_, fun p hcap ↦ ?_⟩
  · -- alone, the calls of the pair are a run of one pair
    obtain ⟨hof, -⟩ := rateOutcomesOf_eq hrun hname p
    obtain ⟨halone, -⟩ := rateOutcomesOf_eq (hrun.filter (·.pair = p))
      (fun c hc ↦ hname c (List.mem_filter.mp hc).1) p
    have hall : rateOutcomesOf p (calls.filter (·.pair = p))
        = rateOutcomes (calls.filter (·.pair = p)) := by
      refine List.filter_eq_self.mpr fun x hx ↦ ?_
      have hmem : x.1 ∈ calls.filter (·.pair = p) := by
        rw [← run_inputs logRateAllowed emptySlots (calls.filter (·.pair = p))]
        exact List.mem_map_of_mem hx
      exact (List.mem_filter.mp hmem).2
    rw [hof, ← hall, halone, List.filter_filter]
    simp only [Bool.and_self]
  · obtain ⟨hof, -⟩ := rateOutcomesOf_eq hrun hname p
    rw [hof] at hcount ⊢
    have hfilter := hrun.filter (·.pair = p)
    exact run_admittedIn_le ⟨hfilter.mono, hfilter.seconds, fun _ _ _ h ↦ by simp at h⟩ hcount
  · obtain ⟨hof, hpending⟩ := rateOutcomesOf_eq hrun hname p
    rw [hof] at hcap ⊢
    rw [hpending]
    exact run_conserved hcap

/-! ## Names that do not fit -/

/-- A call at the beginning, under the rule of one message a second. -/
def onePerSecond (subsys : CStr) : RateCall := ⟨subsys, .warn, 1, 1, some 0⟩

/-- No slot is ever found for a name that does not fit. -/
theorem LogRateSlot.isFor_eq_false_of_long {subsys : CStr} (hname : 127 < subsys.length)
    {slot : LogRateSlot} (hslot : slot.subsys.length ≤ 127) (level : LogPriority) :
    slot.isFor subsys level = false := by
  have hne : (slot.subsys == subsys) = false := beq_eq_false_iff_ne.mpr fun h ↦ by
    rw [h] at hslot
    omega
  rw [LogRateSlot.isFor, hne, Bool.and_false]

/-- The slot such a call takes. -/
def onePerSecondSlot (subsys : CStr) : LogRateSlot := ⟨subsys.take 127, .warn, 1, 0, 0, true⟩

theorem logRateAllowed_onePerSecond {subsys : CStr} (hname : 127 < subsys.length)
    {free : LogRateSlot} (hfree : free.used = false) (before after : List LogRateSlot)
    (hbefore : ∀ s ∈ before, s.used = true)
    (hlen : ∀ s ∈ before ++ free :: after, s.subsys.length ≤ 127) :
    logRateAllowed (before ++ free :: after) (onePerSecond subsys)
      = ((true, 0), before ++ onePerSecondSlot subsys :: after) := by
  have hcond : ¬ ((onePerSecond subsys).count = 0 ∨
      (onePerSecond subsys).level.value ≤ LogPriority.audit.value) := by
    change ¬ ((1 : ℕ) = 0 ∨ (2 : ℤ) ≤ 1)
    omega
  have hfound : updateFirst (LogRateSlot.isFor subsys .warn) (LogRateSlot.take 0 1 1)
      (before ++ free :: after) = none :=
    updateFirst_eq_none.mpr fun s hs ↦ LogRateSlot.isFor_eq_false_of_long hname (hlen s hs) _
  have hfirst : updateFirst (fun slot : LogRateSlot ↦ !slot.used)
      (fun _ ↦ (LogRateSlot.fresh subsys .warn 0).take 0 1 1) (before ++ free :: after)
        = some ((true, 0), before ++ onePerSecondSlot subsys :: after) :=
    updateFirst_append (by rw [hfree]; rfl) fun s hs ↦ by rw [hbefore s hs]; rfl
  rw [logRateAllowed, if_neg hcond]
  change ((updateFirst (LogRateSlot.isFor subsys .warn) (LogRateSlot.take 0 1 1)
    (before ++ free :: after)).or _).getD _ = _
  rw [hfound, Option.none_or]
  exact congrArg (Option.getD · _) hfirst

/-- **A second message within the second is admitted as well.** -/
theorem rateOutcomes_onePerSecond {subsys : CStr} (hname : 127 < subsys.length) :
    rateOutcomes [onePerSecond subsys, onePerSecond subsys]
      = [(onePerSecond subsys, true, 0), (onePerSecond subsys, true, 0)] := by
  have hslots : ∀ n, ∀ s ∈ List.replicate n freeSlot, s.subsys.length ≤ 127 := fun n s hs ↦ by
    rw [List.eq_of_mem_replicate hs]
    exact Nat.zero_le _
  have hcut : (onePerSecondSlot subsys).subsys.length ≤ 127 := List.length_take_le _ _
  have hfirst : logRateAllowed emptySlots (onePerSecond subsys)
      = ((true, 0), onePerSecondSlot subsys :: freeSlot :: List.replicate 254 freeSlot) :=
    logRateAllowed_onePerSecond hname rfl [] (List.replicate 255 freeSlot) (by simp) (hslots 256)
  have hunused : freeSlot.used = false := rfl
  have hsecond := logRateAllowed_onePerSecond hname hunused
    [onePerSecondSlot subsys] (List.replicate 254 freeSlot)
    (fun s hs ↦ by rw [List.mem_singleton.mp hs]; rfl)
    (List.forall_mem_cons.mpr ⟨hcut, hslots 255⟩)
  rw [List.singleton_append] at hsecond
  rw [rateOutcomes, run_cons, hfirst, run_cons, hsecond, run_nil]

theorem isRateRun_onePerSecond (subsys : CStr) :
    IsRateRun [onePerSecond subsys, onePerSecond subsys] := by
  have hboth : ∀ {P : RateCall → Prop}, P (onePerSecond subsys) →
      ∀ c ∈ [onePerSecond subsys, onePerSecond subsys], P c := fun hP c hc ↦ by
    rcases List.mem_pair.mp hc with rfl | rfl <;> exact hP
  have hlevel : LogPriority.audit.value < (onePerSecond subsys).level.value := by
    change (1 : ℤ) < 2
    omega
  exact ⟨hboth le_rfl, hboth le_rfl, hboth hlevel, hboth rfl, by simp, by simp [logRateSlots]⟩

theorem not_limitedIndependently_of_long {subsys : CStr} (hname : 127 < subsys.length) :
    ¬ LimitedIndependently [onePerSecond subsys, onePerSecond subsys] := by
  intro h
  have hwindow := h.window (onePerSecond subsys).pair 0 1
  rw [rateOutcomesOf, rateOutcomes_onePerSecond hname] at hwindow
  simp [Rule.windowed, Rule.windowStart, rateRule, Rule.rolls, admittedIn, onePerSecond] at hwindow

/-- **When the log is limited as it should be**: exactly if every name fits into a slot. -/
theorem limitedIndependently_iff (names : Set CStr) :
    (∀ calls, IsRateRun calls → (∀ c ∈ calls, c.subsys ∈ names) → LimitedIndependently calls) ↔
      ∀ subsys ∈ names, subsys.length ≤ 127 := by
  constructor
  · intro h subsys hmem
    by_contra hlong
    refine not_limitedIndependently_of_long (Nat.lt_of_not_le hlong)
      (h _ (isRateRun_onePerSecond subsys) fun c hc ↦ ?_)
    rcases List.mem_pair.mp hc with rfl | rfl <;> exact hmem
  · exact fun h calls hrun hnames ↦ hrun.limitedIndependently fun c hc ↦ h _ (hnames c hc)

/-- A name of 128 bytes. -/
theorem not_limitedIndependently_replicate :
    IsRateRun [onePerSecond (List.replicate 128 0x61), onePerSecond (List.replicate 128 0x61)] ∧
      ¬ LimitedIndependently
        [onePerSecond (List.replicate 128 0x61), onePerSecond (List.replicate 128 0x61)] :=
  ⟨isRateRun_onePerSecond _, not_limitedIndependently_of_long (by simp)⟩

end Rustyaxe
