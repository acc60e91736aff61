import Rustyaxe.Lib.Runs
import Rustyaxe.LogQueue
import Rustyaxe.Logger.Filters

/-!
# Who gets a message

`Log` of `logger.c`, and the callbacks that are registered with it.  Once the logger has an owner,
messages are queued and delivered later, and a message that nobody wants is not queued at all: `Log`
asks the filter of its subsystem, and how many callbacks want everything.  That number is kept as
callbacks come and go (`LogState.Counted`), so what is not queued would have reached nobody, and
what is wanted is in the queue or has been counted as dropped (`log_submits`).

The queue is that of `log-queue.c`, and a message goes through `ra_log_queue_push` and
`ra_log_queue_drain` as a record.  A record has room for 63 bytes of the subsystem, and the filters
see no more of it when the record is delivered.

The text of a message is what `vsnprintf` makes of its arguments, and there is memory for it.
-/

set_option autoImplicit false

namespace Rustyaxe.Logger

open Runs

/-! ## Callbacks -/

/-- `struct log_callback`, with its address, and whether it has a function. -/
structure LogCallback where
  address : ℕ
  callback : Bool
  raw : Bool
  deriving DecidableEq

/-- What `logger.c` keeps. -/
structure LogState where
  logFilters : List LogFilter
  logRateSlots : List LogRateSlot
  logCallbacks : List LogCallback
  logRawSubscribers : ℕ
  workerLogQueue : Option RaLogQueue
  workerLoggingEnabled : Bool
  loggerOwnerValid : Bool

/-- What it keeps at first. -/
def LogState.static : LogState := ⟨[], emptySlots, [], 0, none, false, false⟩

/-- `LOG_CALLBACK_RAW` and `LOG_CALLBACK_FILTERED` -/
def logCallbackRaw : ℤ := 0
@[inherit_doc logCallbackRaw]
def logCallbackFiltered : ℤ := 1

/-- `log_add_callback_token`, with what `malloc` returns. -/
def logAddCallbackToken (malloc : Option ℕ) (callback : Bool) (policy : ℤ) (s : LogState) :
    Option ℕ × LogState :=
  if policy ≠ logCallbackRaw ∧ policy ≠ logCallbackFiltered then (none, s)
  else
    match malloc with
    | none => (none, s)
    | some address =>
      let raw : Bool := policy = logCallbackRaw
      (some address, { s with
        logCallbacks := s.logCallbacks ++ [⟨address, callback, raw⟩]
        logRawSubscribers := if raw then s.logRawSubscribers + 1 else s.logRawSubscribers })

/-- `log_remove_callback` -/
def logRemoveCallback (address : ℕ) (s : LogState) : Bool × LogState :=
  match s.logCallbacks.find? fun i ↦ i.address = address with
  | none => (false, s)
  | some i => (true, { s with
      logCallbacks := s.logCallbacks.eraseP fun i ↦ i.address = address
      logRawSubscribers := if i.raw then s.logRawSubscribers - 1 else s.logRawSubscribers })

/-- `log_clear_filters` -/
def logClearFilters (s : LogState) : LogState :=
  { s with logFilters := [], logRateSlots := emptySlots }

/-- `logger_init`, with `log.async-workers`, the outcomes of `calloc` and `pthread_mutex_init` for
the queue, and `log.level`. -/
def loggerInit (asyncWorkers calloc mutexInit : Bool) (level : Option CStr) (s : LogState) :
    LogState :=
  let queue := if asyncWorkers && s.workerLogQueue.isNone then raLogQueueNew calloc mutexInit 8192
    else s.workerLogQueue
  let starts := asyncWorkers && queue.isSome && !s.workerLoggingEnabled
  { s with
    workerLogQueue := queue
    workerLoggingEnabled := s.workerLoggingEnabled || starts
    loggerOwnerValid := s.loggerOwnerValid || starts
    logFilters := loadLogFiltersFromConfig level s.logFilters }

/-! ## Messages -/

/-- A message. -/
structure Message where
  priority : LogPriority
  subsys : CStr
  text : CStr

/-- `log_priority_to_str` -/
def logPriorityToStr (priority : LogPriority) : CStr :=
  match logPriorities.find? fun p ↦ p.1 = priority with
  | some p => p.2
  | none => lit " NONE"

/-- Who gets a message: callbacks, and the log with a line that may have a time in front. -/
structure Delivery where
  called : List ℕ
  line : Option CStr
  deriving DecidableEq

/-- Nobody. -/
def nobody : Delivery := ⟨[], none⟩

/-- The line for the log. -/
def logLine (timestamp : Option CStr) (m : Message) (suppressed : ℕ) : CStr :=
  timestamp.elim [] (fun t ↦ lit "[" ++ t ++ lit "] ") ++ lit "<" ++ m.subsys ++ lit "@" ++
    logPriorityToStr m.priority ++ lit "> " ++ m.text ++
    (if suppressed = 0 then []
      else lit " [rate limit: " ++ decimal suppressed ++ lit " earlier messages suppressed]") ++
    [newline]

/-- Whether the filter and the rate allow a message, and how many have been suppressed. -/
def logAllowed (fnmatch : CStr → CStr → Bool) (now : Option ℤ) (s : LogState) (m : Message) :
    (Bool × ℕ) × List LogRateSlot :=
  if debugFilter fnmatch s.logFilters (some m.subsys) m.priority then ((false, 0), s.logRateSlots)
  else
    match logMatchingFilter fnmatch s.logFilters m.subsys with
    | none => ((true, 0), s.logRateSlots)
    | some f =>
      logRateAllowed s.logRateSlots ⟨m.subsys, m.priority, f.rateCount, f.rateSeconds, now⟩

/-- `Log` when it delivers a message, with what `clock_gettime` says and the time to show. -/
def deliver (fnmatch : CStr → CStr → Bool) (now : Option ℤ) (timestamp : Option CStr)
    (s : LogState) (m : Message) : Delivery × LogState :=
  let ((allowed, suppressed), slots) := logAllowed fnmatch now s m
  let called :=
    if m.priority = .crazy then []
    else (s.logCallbacks.filter fun cb ↦ cb.callback && (cb.raw || allowed)).map
      LogCallback.address
  (⟨called, if allowed then some (logLine timestamp m suppressed) else none⟩,
    { s with logRateSlots := slots })

/-- The message of a record. -/
def recordMessage (r : RaLogRecord) : Message := ⟨r.level, r.subsystem, r.message⟩

/-- What time it is, and the time to show, when a message is delivered. -/
structure Clock where
  now : Option ℤ
  timestamp : Option CStr

/-- `ra_log_queue_drain`: the clock is that of each record in its turn. -/
def raLogQueueDrain (fnmatch : CStr → CStr → Bool) (clock : ℕ → Clock) :
    (maxRecords : ℕ) → LogState → List Delivery × LogState
  | 0, s => ([], s)
  | n + 1, s =>
    match s.workerLogQueue with
    | none => ([], s)
    | some q =>
      match drainLocked q with
      | (none, _) => ([], s)
      | (some item, q) =>
        let (d, s) := deliver fnmatch (clock n).now (clock n).timestamp
          { s with workerLogQueue := some q } (recordMessage item)
        let (ds, s) := raLogQueueDrain fnmatch clock n s
        (d :: ds, s)

/-- `SIZE_MAX` -/
def sizeMax : ℕ := 2 ^ 64 - 1

/-- `logger_end`, with what has been delivered. -/
def loggerEnd (fnmatch : CStr → CStr → Bool) (clock : ℕ → Clock) (s : LogState) :
    List Delivery × LogState :=
  let drained :=
    if s.workerLogQueue.isSome then
      raLogQueueDrain fnmatch clock sizeMax { s with workerLoggingEnabled := false }
    else ([], s)
  (drained.1, logClearFilters { drained.2 with logCallbacks := [], logRawSubscribers := 0 })

/-- What becomes of a message that is logged. -/
inductive Fate where
  | unwanted
  /-- It has been pushed into the queue, with this outcome. -/
  | pushed (o : PushOutcome)
  | delivered (d : Delivery)

/-- The test that `Log` makes before it queues a message. -/
def wanted (fnmatch : CStr → CStr → Bool) (s : LogState) (m : Message) : Bool :=
  s.workerLoggingEnabled &&
    (!debugFilter fnmatch s.logFilters (some m.subsys) m.priority || s.logRawSubscribers ≠ 0)

/-- `Log`, outside of a delivery: `lock` and `submitted` are for the push, and the clock is for a
message that is not queued.  `message` has 1024 bytes. -/
def log (fnmatch : CStr → CStr → Bool) (lock : Bool) (submitted : Timespec) (clock : Clock)
    (s : LogState) (m : Message) : Fate × LogState :=
  if s.loggerOwnerValid then
    if wanted fnmatch s m then
      let (o, queue) := raLogQueuePush s.workerLogQueue
        ⟨m.priority, some m.subsys, some (m.text.take 1023)⟩ lock submitted
      (.pushed o, { s with workerLogQueue := queue })
    else (.unwanted, s)
  else
    let (d, s) := deliver fnmatch clock.now clock.timestamp s m
    (.delivered d, s)

/-! ## Runs -/

/-- What happens to a logger. -/
inductive Event where
  | addCallback (malloc : Option ℕ) (callback : Bool) (policy : ℤ)
  | removeCallback (address : ℕ)
  | addFilter (pattern : CStr) (level : LogPriority)
  | clearFilters
  | loadFilters (level : Option CStr)
  | init (asyncWorkers calloc mutexInit : Bool) (level : Option CStr)
  | finish (clock : ℕ → Clock)
  | log (lock : Bool) (submitted : Timespec) (clock : Clock) (m : Message)
  /-- A record comes out of the queue; the next one is an event of its own. -/
  | drain (clock : Clock)
  /-- A callback logs a message itself, while one is delivered. -/
  | nested (clock : Clock) (m : Message)

/-- One event. -/
def LogState.step (fnmatch : CStr → CStr → Bool) (s : LogState) : Event → LogState
  | .addCallback malloc callback policy => (logAddCallbackToken malloc callback policy s).2
  | .removeCallback address => (logRemoveCallback address s).2
  | .addFilter pattern level =>
    { s with logFilters := logAddFilterRate s.logFilters pattern level 0 0 }
  | .clearFilters => logClearFilters s
  | .loadFilters level =>
    { s with logFilters := loadLogFiltersFromConfig level s.logFilters }
  | .init asyncWorkers calloc mutexInit level => loggerInit asyncWorkers calloc mutexInit level s
  | .finish clock => (loggerEnd fnmatch clock s).2
  | .log lock submitted clock m => (Logger.log fnmatch lock submitted clock s m).2
  | .drain clock => (raLogQueueDrain fnmatch (fun _ ↦ clock) 1 s).2
  | .nested clock m => (deliver fnmatch clock.now clock.timestamp s m).2

/-- What a logger is after some events. -/
def LogState.run (fnmatch : CStr → CStr → Bool) (events : List Event) : LogState :=
  events.foldl (LogState.step fnmatch) .static

/-- The number of callbacks that want everything is right, and when messages are queued there is an
owner, and a queue of the size that `logger_init` makes. -/
structure LogState.Counted (s : LogState) : Prop where
  raw : s.logRawSubscribers = s.logCallbacks.countP LogCallback.raw
  owner : s.workerLoggingEnabled = true → s.loggerOwnerValid = true
  queue : s.workerLoggingEnabled = true → s.workerLogQueue.isSome
  slots : ∀ q ∈ s.workerLogQueue, q.slots.length = 8192

variable {fnmatch : CStr → CStr → Bool} {s : LogState} {m : Message}

/-- What is erased was counted. -/
theorem countP_eraseP_add {α : Type} {p q : α → Bool} {l : List α} {a : α}
    (h : l.find? q = some a) : (l.eraseP q).countP p + (if p a then 1 else 0) = l.countP p := by
  obtain ⟨ha, before, after, rfl, hbefore⟩ := List.find?_eq_some_iff_append.mp h
  have hnot : ∀ b ∈ before, ¬ q b = true := fun b hb ↦ by
    have := hbefore b hb
    simpa using this
  rw [List.eraseP_append_right _ hnot, List.eraseP_cons_of_pos ha, List.countP_append,
    List.countP_append, List.countP_cons, Nat.add_assoc]

theorem LogState.Counted.addCallback (h : s.Counted) (malloc : Option ℕ) (callback : Bool)
    (policy : ℤ) : (logAddCallbackToken malloc callback policy s).2.Counted := by
  by_cases hpolicy : policy ≠ logCallbackRaw ∧ policy ≠ logCallbackFiltered
  · cases malloc with
    | none =>
      rw [logAddCallbackToken, if_pos hpolicy]
      exact h
    | some address =>
      rw [logAddCallbackToken, if_pos hpolicy]
      exact h
  cases malloc with
  | none =>
    rw [logAddCallbackToken, if_neg hpolicy]
    exact h
  | some address =>
    rw [logAddCallbackToken, if_neg hpolicy]
    refine ⟨?_, h.owner, h.queue, h.slots⟩
    dsimp only
    rw [List.countP_append, List.countP_singleton, h.raw]
    split
    · rfl
    · rfl

theorem LogState.Counted.removeCallback (h : s.Counted) (address : ℕ) :
    (logRemoveCallback address s).2.Counted := by
  rw [logRemoveCallback]
  cases hfind : s.logCallbacks.find? fun i ↦ i.address = address with
  | none => exact h
  | some i =>
    have hcount := countP_eraseP_add (p := LogCallback.raw) hfind
    refine ⟨?_, h.owner, h.queue, h.slots⟩
    dsimp only
    rw [h.raw, ← hcount]
    split
    · rfl
    · rfl

theorem LogState.Counted.deliver (h : s.Counted) (clock : Clock) :
    (deliver fnmatch clock.now clock.timestamp s m).2.Counted := ⟨h.raw, h.owner, h.queue, h.slots⟩

/-- Another queue of the same size. -/
theorem LogState.Counted.withQueue (h : s.Counted) {q : RaLogQueue} (hq : q.slots.length = 8192) :
    { s with workerLogQueue := some q }.Counted :=
  ⟨h.raw, h.owner, fun _ ↦ rfl, fun _ hmem ↦ Option.some.inj hmem ▸ hq⟩

theorem LogState.Counted.log (h : s.Counted) (lock : Bool) (submitted : Timespec) (clock : Clock) :
    (log fnmatch lock submitted clock s m).2.Counted := by
  rw [Logger.log]
  split
  · split
    · cases hqueue : s.workerLogQueue with
      | none =>
        change { s with workerLogQueue := none }.Counted
        rw [← hqueue]
        exact h
      | some q =>
        obtain ⟨o, q', hpush, hpushed⟩ :=
          raLogQueuePush_spec q m.priority m.subsys (m.text.take 1023) lock submitted
        rw [hpush]
        exact h.withQueue (hpushed.slots_eq.trans (h.slots q hqueue))
    · exact h
  · exact h.deliver clock

theorem LogState.Counted.drain (h : s.Counted) (clock : ℕ → Clock) (maxRecords : ℕ) :
    (raLogQueueDrain fnmatch clock maxRecords s).2.Counted := by
  induction maxRecords generalizing s with
  | zero => exact h
  | succ n ih =>
    rw [raLogQueueDrain]
    cases hqueue : s.workerLogQueue with
    | none => exact h
    | some q =>
      dsimp only
      rcases drainLocked_cases q with ⟨-, hq⟩ | ⟨item, q', hq, -, hslots, -⟩
      · rw [hq]
        exact h
      · rw [hq]
        exact ih ((h.withQueue (hslots.trans (h.slots q hqueue))).deliver (clock n))

theorem LogState.Counted.init (h : s.Counted) (asyncWorkers calloc mutexInit : Bool)
    (level : Option CStr) : (loggerInit asyncWorkers calloc mutexInit level s).Counted := by
  have hqueue := h.queue
  have howner := h.owner
  refine ⟨h.raw, fun henabled ↦ ?_, fun henabled ↦ ?_, fun q hq ↦ ?_⟩
  · rw [loggerInit] at henabled ⊢
    dsimp only at henabled ⊢
    rw [Bool.or_eq_true] at henabled ⊢
    exact henabled.imp howner id
  · rw [loggerInit] at henabled ⊢
    dsimp only at henabled ⊢
    rw [Bool.or_eq_true, Bool.and_eq_true, Bool.and_eq_true] at henabled
    obtain henabled | hstarts := henabled
    · rw [if_neg]
      · exact hqueue henabled
      · rw [Bool.and_eq_true, Option.isNone_iff_eq_none]
        rintro ⟨-, hnone⟩
        rw [hnone] at hqueue
        exact Bool.false_ne_true (hqueue henabled)
    · exact hstarts.1.2
  · rw [loggerInit] at hq
    dsimp only at hq
    split at hq
    · exact slots_raLogQueueNew hq
    · exact h.slots q hq

theorem LogState.Counted.finish (h : s.Counted) (clock : ℕ → Clock) :
    (loggerEnd fnmatch clock s).2.Counted := by
  have hcleared : ∀ {s : LogState}, s.Counted →
      (logClearFilters { s with logCallbacks := [], logRawSubscribers := 0 }).Counted := fun h ↦
    ⟨rfl, h.owner, h.queue, h.slots⟩
  rw [loggerEnd]
  refine hcleared ?_
  split
  · have hoff : { s with workerLoggingEnabled := false }.Counted :=
      ⟨h.raw, fun h ↦ (Bool.false_ne_true h).elim, fun h ↦ (Bool.false_ne_true h).elim, h.slots⟩
    exact hoff.drain clock sizeMax
  · exact h

theorem LogState.Counted.step (h : s.Counted) (e : Event) : (s.step fnmatch e).Counted := by
  cases e with
  | addCallback malloc callback policy => exact h.addCallback malloc callback policy
  | removeCallback address => exact h.removeCallback address
  | addFilter pattern level => exact ⟨h.raw, h.owner, h.queue, h.slots⟩
  | clearFilters => exact ⟨h.raw, h.owner, h.queue, h.slots⟩
  | loadFilters level => exact ⟨h.raw, h.owner, h.queue, h.slots⟩
  | init asyncWorkers calloc mutexInit level => exact h.init asyncWorkers calloc mutexInit level
  | finish clock => exact h.finish clock
  | log lock submitted clock m => exact h.log lock submitted clock
  | drain clock => exact h.drain _ 1
  | nested clock m => exact h.deliver clock

theorem LogState.counted_run (events : List Event) : (LogState.run fnmatch events).Counted := by
  rw [LogState.run]
  induction events using List.reverseRecOn with
  | nil =>
    exact ⟨rfl, fun h ↦ (Bool.false_ne_true h).elim, fun h ↦ (Bool.false_ne_true h).elim,
      fun _ h ↦ nomatch h⟩
  | append_singleton events e ih =>
    rw [List.foldl_append]
    exact ih.step e

/-! ## Unwanted messages -/

theorem logAllowed_of_filtered
    (h : debugFilter fnmatch s.logFilters (some m.subsys) m.priority = true) (now : Option ℤ) :
    logAllowed fnmatch now s m = ((false, 0), s.logRateSlots) := if_pos h

/-- A message that is filtered only reaches the callbacks that want everything. -/
theorem deliver_of_filtered (hcounted : s.Counted) (hraw : s.logRawSubscribers = 0)
    (h : debugFilter fnmatch s.logFilters (some m.subsys) m.priority = true) (now : Option ℤ)
    (timestamp : Option CStr) : deliver fnmatch now timestamp s m = (nobody, s) := by
  have hnone : ∀ cb ∈ s.logCallbacks, ¬ (cb.callback && (cb.raw || false)) = true := by
    intro cb hcb hwants
    rw [Bool.and_eq_true, Bool.or_false] at hwants
    exact List.countP_eq_zero.mp (hcounted.raw.symm.trans hraw) cb hcb hwants.2
  rw [deliver, logAllowed_of_filtered h]
  dsimp only
  rw [List.filter_eq_nil_iff.mpr hnone, List.map_nil, ite_self, if_neg Bool.false_ne_true, nobody]

/-- The message gets through its filter, or there is a callback that wants everything. -/
def Wanted (fnmatch : CStr → CStr → Bool) (s : LogState) (m : Message) : Prop :=
  debugFilter fnmatch s.logFilters (some m.subsys) m.priority = false ∨
    ∃ cb ∈ s.logCallbacks, cb.raw = true

theorem wanted_iff (hcounted : s.Counted) (hon : s.workerLoggingEnabled = true) :
    wanted fnmatch s m = true ↔ Wanted fnmatch s m := by
  rw [wanted, hon, Bool.true_and, Bool.or_eq_true, Bool.not_eq_true', decide_eq_true_iff,
    hcounted.raw, ← Nat.pos_iff_ne_zero, List.countP_pos_iff, Wanted]

/-- What nobody wants is delivered to nobody. -/
theorem deliver_of_not_wanted (hcounted : s.Counted) (h : ¬Wanted fnmatch s m) (now : Option ℤ)
    (timestamp : Option CStr) : deliver fnmatch now timestamp s m = (nobody, s) := by
  rw [Wanted, not_or, Bool.not_eq_false] at h
  refine deliver_of_filtered hcounted ?_ h.1 now timestamp
  rw [hcounted.raw, List.countP_eq_zero]
  exact fun cb hcb hraw ↦ h.2 ⟨cb, hcb, hraw⟩

/-- A record of a message that nobody wants, if the name of the subsystem fits in. -/
theorem not_wanted_record (h : ¬Wanted fnmatch s m) (hfits : m.subsys.length ≤ 63)
    (submitted : Timespec) (text : CStr) :
    ¬Wanted fnmatch s (recordMessage
      (Submission.record ⟨m.priority, submitted, m.subsys, text⟩)) := by
  have hsubsys : (recordMessage
      (Submission.record ⟨m.priority, submitted, m.subsys, text⟩)).subsys = m.subsys :=
    List.take_of_length_le hfits
  rwa [Wanted, hsubsys]

/-- The oldest record is the next one to be delivered. -/
theorem raLogQueueDrain_one {q : RaLogQueue} (hq : s.workerLogQueue = some q) {item : RaLogRecord}
    {rest : List RaLogRecord} (h : q.contents = item :: rest) (clock : Clock) :
    ∃ q' d s', q'.contents = rest ∧
      deliver fnmatch clock.now clock.timestamp { s with workerLogQueue := some q' }
        (recordMessage item) = (d, s') ∧
      raLogQueueDrain fnmatch (fun _ ↦ clock) 1 s = ([d], s') := by
  rcases drainLocked_cases q with ⟨hnil, -⟩ | ⟨item', q', hdrain, hcontents, -⟩
  · rw [hnil] at h
    cases h
  · obtain ⟨rfl, hrest⟩ := List.cons.inj (hcontents.symm.trans h)
    refine ⟨q', _, _, hrest, rfl, ?_⟩
    rw [raLogQueueDrain, hq]
    dsimp only
    rw [hdrain]
    rfl

/-- **Not to queue a message loses nothing.**  In whatever order filters and callbacks come and go,
and messages are logged and delivered: the number of callbacks that want everything is right.  While
messages are queued, one that gets through its filter, or that such a callback wants, is the last
record of the queue then, or has been counted as dropped, because the lock was taken or all 8192
records were in use.  Any other message changes nothing; it would have been delivered to nobody, and
so would its record if it holds the whole name of the subsystem, and would have counted against no
rate.  What is delivered next is the oldest record. -/
theorem log_submits (fnmatch : CStr → CStr → Bool) (events : List Event) (m : Message) (lock : Bool)
    (submitted : Timespec) (clock : Clock)
    (hon : (LogState.run fnmatch events).workerLoggingEnabled = true) :
    let s := LogState.run fnmatch events
    let r : Submission := ⟨m.priority, submitted, m.subsys, m.text.take 1023⟩
    s.logRawSubscribers = s.logCallbacks.countP LogCallback.raw ∧
      ∃ q, s.workerLogQueue = some q ∧ q.slots.length = 8192 ∧
        (Wanted fnmatch s m → ∃ o q', log fnmatch lock submitted clock s m =
            (.pushed o, { s with workerLogQueue := some q' }) ∧ Pushed lock r q o q') ∧
        (¬Wanted fnmatch s m → log fnmatch lock submitted clock s m = (.unwanted, s) ∧
          ∀ now timestamp, deliver fnmatch now timestamp s m = (nobody, s) ∧
            (m.subsys.length ≤ 63 →
              deliver fnmatch now timestamp s (recordMessage r.record) = (nobody, s))) ∧
        (∀ item rest, q.contents = item :: rest → ∃ q' d s', q'.contents = rest ∧
          deliver fnmatch clock.now clock.timestamp { s with workerLogQueue := some q' }
            (recordMessage item) = (d, s') ∧
          raLogQueueDrain fnmatch (fun _ ↦ clock) 1 s = ([d], s')) := by
  dsimp only
  have hcounted : (LogState.run fnmatch events).Counted := LogState.counted_run events
  obtain ⟨q, hq⟩ := Option.isSome_iff_exists.mp (hcounted.queue hon)
  have howner := hcounted.owner hon
  refine ⟨hcounted.raw, q, hq, hcounted.slots q hq, fun hwanted ↦ ?_, fun hnot ↦ ⟨?_, ?_⟩,
    fun item rest h ↦ raLogQueueDrain_one hq h clock⟩
  · obtain ⟨o, q', hpush, hpushed⟩ :=
      raLogQueuePush_spec q m.priority m.subsys (m.text.take 1023) lock submitted
    refine ⟨o, q', ?_, hpushed⟩
    rw [log, if_pos howner, if_pos ((wanted_iff hcounted hon).mpr hwanted), hq, hpush]
  · rw [log, if_pos howner, if_neg fun hwanted ↦ hnot ((wanted_iff hcounted hon).mp hwanted)]
  · exact fun now timestamp ↦ ⟨deliver_of_not_wanted hcounted hnot now timestamp, fun hfits ↦
      deliver_of_not_wanted hcounted (not_wanted_record hnot hfits submitted _) now timestamp⟩

/-- A pattern that is `*` or the name of a subsystem. -/
def namesOrAll (pattern name : CStr) : Bool := pattern == lit "*" || pattern == name

/-- A message of the terminal. -/
def redraw : Message := ⟨.debug, lit "tui", lit "redraw"⟩

/-- A callback for everything comes, sees a message queued, and goes. -/
def tuiEvents : List Event :=
  [.init true true true (some (lit "*:warn")), .addCallback (some 16) true 0,
    .addCallback (some 32) true 1, .log true ⟨1, 0⟩ ⟨some 1, none⟩ redraw, .removeCallback 16]

/-- The message is not queued again; one that the filter lets through is. -/
theorem log_submits_tui :
    log namesOrAll true ⟨2, 0⟩ ⟨some 2, none⟩ (LogState.run namesOrAll tuiEvents) redraw =
        (.unwanted, LogState.run namesOrAll tuiEvents) ∧
      ∃ q', log namesOrAll true ⟨2, 0⟩ ⟨some 2, none⟩ (LogState.run namesOrAll tuiEvents)
          ⟨.crit, lit "tui", lit "gone"⟩ = (.pushed .accepted,
            { LogState.run namesOrAll tuiEvents with workerLogQueue := some q' }) ∧
        q'.contents = [⟨.debug, ⟨1, 0⟩, lit "tui", lit "redraw"⟩,
          ⟨.crit, ⟨2, 0⟩, lit "tui", lit "gone"⟩] := by
  have hon : (LogState.run namesOrAll tuiEvents).workerLoggingEnabled = true := by decide +kernel
  have hqueue : (LogState.run namesOrAll tuiEvents).workerLogQueue.map (·.contents) =
      some [⟨.debug, ⟨1, 0⟩, lit "tui", lit "redraw"⟩] := by decide +kernel
  obtain ⟨-, -, -, -, -, hunwanted, -⟩ :=
    log_submits namesOrAll tuiEvents redraw true ⟨2, 0⟩ ⟨some 2, none⟩ hon
  obtain ⟨-, q, hq, hslots, hwanted, -⟩ := log_submits namesOrAll tuiEvents
    ⟨.crit, lit "tui", lit "gone"⟩ true ⟨2, 0⟩ ⟨some 2, none⟩ hon
  refine ⟨(hunwanted ?_).1, ?_⟩
  · rw [Wanted]
    decide +kernel
  · rw [hq, Option.map_some, Option.some.injEq] at hqueue
    have hlength : q.length = 1 := by rw [← q.length_contents, hqueue]; rfl
    obtain ⟨o, q', hlog, hpushed⟩ := hwanted (.inl (by decide +kernel))
    cases hpushed with
    | accepted _ _ _ hcontents => exact ⟨q', hlog, by rw [hcontents, hqueue]; rfl⟩
    | contention hlock => cases hlock
    | full _ hfull =>
      rw [hlength, hslots] at hfull
      cases hfull

end Rustyaxe.Logger
