import Rustyaxe.CString
import Rustyaxe.Lib.CircularBuffer
import Rustyaxe.Lib.Runs

/-!
# The log queue

`log-queue.c`: workers submit log records to a bounded queue without ever waiting, and the thread
that owns `Log` drains it.

`LogSystem` is the queue with any number of pushes in progress and the one consumer.  A step is a
critical section, an atomic addition, or a call of `Log` outside of the lock; whether a try-lock
succeeds is up to the schedule.  `QueueInv` holds in every state of every run.
-/

set_option autoImplicit false

namespace Rustyaxe

open Runs

/-! ## The queue -/

/-- `logpriority_t` -/
inductive LogPriority where
  | none | crit | audit | warn | info | debug | crazy | blitzkreig
  deriving DecidableEq, Repr

/-- `struct timespec` -/
structure Timespec where
  tvSec : ℤ
  tvNsec : ℤ
  deriving DecidableEq, Repr

/-- `ra_log_record_t` -/
structure RaLogRecord where
  level : LogPriority
  submitted : Timespec
  subsystem : CStr
  message : CStr
  deriving DecidableEq, Repr

/-- `struct ra_log_queue`: the records are the slots of the buffer. -/
structure RaLogQueue extends CircularBuffer RaLogRecord where
  dropped : UInt64
  contentionDropped : UInt64
  fullDropped : UInt64

/-- A record of `calloc`ed memory. -/
def zeroRecord : RaLogRecord := ⟨.crit, ⟨0, 0⟩, [], []⟩

/-- `ra_log_queue_new`, where `calloc` and `pthread_mutex_init` may fail.  A record takes 1112
bytes and the queue itself 96. -/
def raLogQueueNew (calloc mutexInit : Bool) (capacity : ℕ) : Option RaLogQueue :=
  if h : capacity = 0 then none
  else if capacity > (2 ^ 64 - 1 - 96) / 1112 then none
  else if !calloc ∨ !mutexInit then none
  else some {
    CircularBuffer.empty (List.replicate capacity zeroRecord)
      (by rw [List.length_replicate]; exact Nat.pos_of_ne_zero h) with
    dropped := 0
    contentionDropped := 0
    fullDropped := 0 }

/-- The arguments of a push; strings may be `NULL`. -/
structure PushCall where
  level : LogPriority
  subsys : Option CStr
  message : Option CStr
  deriving DecidableEq, Repr

/-- What a push submits: its arguments and the time. -/
structure Submission where
  level : LogPriority
  submitted : Timespec
  subsys : CStr
  message : CStr
  deriving DecidableEq, Repr

/-- `snprintf` into the arrays of a record. -/
def Submission.record (r : Submission) : RaLogRecord where
  level := r.level
  submitted := r.submitted
  subsystem := r.subsys.take 63
  message := r.message.take 1023

/-- The critical section of `ra_log_queue_push`. -/
def pushLocked (q : RaLogQueue) (r : Submission) : Bool × RaLogQueue :=
  if h : q.length < q.slots.length then
    (true, { q with toCircularBuffer := q.push r.record h })
  else
    (false, { q with fullDropped := q.fullDropped + 1, dropped := q.dropped + 1 })

/-- The critical section of `ra_log_queue_drain`. -/
def drainLocked (q : RaLogQueue) : Option RaLogRecord × RaLogQueue :=
  if h : q.length = 0 then (none, q)
  else (some q.front, { q with toCircularBuffer := q.pop h })

/-! ## The threads -/

/-- Why a push returns what it returns. -/
inductive PushOutcome where
  | accepted
  /-- an argument is `NULL` -/
  | refused
  | contention
  | full
  deriving DecidableEq, Repr

/-- The value returned. -/
def PushOutcome.result : PushOutcome → Bool
  | .accepted => true
  | _ => false

/-- Where a push is. -/
inductive PushStage where
  | entered
  /-- The try-lock has failed. -/
  | contended
  /-- `contention_dropped` has been counted up, `dropped` has not. -/
  | counted
  | leaving (o : PushOutcome)
  deriving DecidableEq, Repr

/-- A push in progress. -/
structure Push where
  call : PushCall
  stage : PushStage
  deriving DecidableEq, Repr

/-- Where the consumer is. -/
inductive DrainStage where
  | idle
  /-- At the head of the loop, with `n` records consumed. -/
  | loop (n maxRecords : ℕ)
  /-- Outside of the lock, about to call `Log`. -/
  | delivering (item : RaLogRecord) (n maxRecords : ℕ)
  deriving DecidableEq, Repr

/-- The record the consumer has taken but not yet handed over. -/
def DrainStage.inHand : DrainStage → List RaLogRecord
  | .delivering item _ _ => [item]
  | _ => []

/-- A state of the system, with the history that the properties speak of. -/
structure LogSystem where
  queue : RaLogQueue
  /-- The pushes in progress, on any threads. -/
  pushes : List Push
  drain : DrainStage
  /-- What was accepted, in order. -/
  accepted : List Submission
  /-- The pushes that have returned. -/
  returned : List (PushCall × PushOutcome)
  /-- The records handed to `Log`, each with the time that `ra_log_queue_delivery_time` then
  returns. -/
  logged : List RaLogRecord

/-- The number of records the consumer has taken. -/
def LogSystem.drained (s : LogSystem) : ℕ := s.logged.length + s.drain.inHand.length

/-- `ra_log_queue_depth` -/
def raLogQueueDepth (q : RaLogQueue) : ℕ := q.length

/-- What the schedule may do next. -/
inductive LogStep where
  /-- A thread calls `ra_log_queue_push`. -/
  | call (c : PushCall)
  /-- The push takes its next step; `lock` and `now` matter only where it tries to lock. -/
  | push (i : ℕ) (lock : Bool) (now : Timespec)
  /-- The consumer calls `ra_log_queue_drain`. -/
  | drain (maxRecords : ℕ)
  /-- The consumer takes its next step. -/
  | consume
  deriving DecidableEq, Repr

/-- The first steps of `ra_log_queue_push`: the arguments, the try-lock, and the critical section
behind it. -/
def enterPush (s : LogSystem) (i : ℕ) (c : PushCall) (lock : Bool) (now : Timespec) : LogSystem :=
  let goTo (stage : PushStage) := s.pushes.set i ⟨c, stage⟩
  match c.subsys, c.message with
  | some subsys, some message =>
    if lock then
      let r : Submission := ⟨c.level, now, subsys, message⟩
      match pushLocked s.queue r with
      | (true, q) => { s with
          queue := q, pushes := goTo (.leaving .accepted), accepted := s.accepted ++ [r] }
      | (false, q) => { s with queue := q, pushes := goTo (.leaving .full) }
    else { s with pushes := goTo .contended }
  | _, _ => { s with pushes := goTo (.leaving .refused) }

/-- One step of a push. -/
def stepPush (s : LogSystem) (i : ℕ) (p : Push) (lock : Bool) (now : Timespec) : LogSystem :=
  match p.stage with
  | .entered => enterPush s i p.call lock now
  | .contended => { s with
      queue := { s.queue with contentionDropped := s.queue.contentionDropped + 1 }
      pushes := s.pushes.set i ⟨p.call, .counted⟩ }
  | .counted => { s with
      queue := { s.queue with dropped := s.queue.dropped + 1 }
      pushes := s.pushes.set i ⟨p.call, .leaving .contention⟩ }
  | .leaving o => { s with
      pushes := s.pushes.eraseIdx i, returned := s.returned ++ [(p.call, o)] }

/-- One step of the consumer, in the loop of `ra_log_queue_drain`. -/
def stepConsume (s : LogSystem) : Option LogSystem :=
  match s.drain with
  | .idle => none
  | .loop n maxRecords =>
    if n < maxRecords then
      match drainLocked s.queue with
      | (none, q) => some { s with queue := q, drain := .idle }
      | (some item, q) => some { s with queue := q, drain := .delivering item n maxRecords }
    else some { s with drain := .idle }
  | .delivering item n maxRecords =>
    some { s with logged := s.logged ++ [item], drain := .loop (n + 1) maxRecords }

/-- One step of the system; `none` where the schedule asks for something impossible. -/
def logStep (s : LogSystem) : LogStep → Option LogSystem
  | .call c => some { s with pushes := s.pushes ++ [⟨c, .entered⟩] }
  | .push i lock now => s.pushes[i]?.map fun p ↦ stepPush s i p lock now
  | .drain maxRecords => if s.drain = .idle then some { s with drain := .loop 0 maxRecords } else none
  | .consume => stepConsume s

/-- `ra_log_queue_push`, with nothing between its steps: `lock` is the outcome of the try-lock, and
`now` the time. -/
def raLogQueuePush (q : Option RaLogQueue) (c : PushCall) (lock : Bool) (now : Timespec) :
    PushOutcome × Option RaLogQueue :=
  match q, c.subsys, c.message with
  | some q, some subsys, some message =>
    if lock then
      match pushLocked q ⟨c.level, now, subsys, message⟩ with
      | (true, q) => (.accepted, some q)
      | (false, q) => (.full, some q)
    else (.contention, some { q with
      contentionDropped := q.contentionDropped + 1, dropped := q.dropped + 1 })
  | q, _, _ => (.refused, q)

/-- A queue that nobody has used yet. -/
def LogSystem.start (q : RaLogQueue) : LogSystem where
  queue := q
  pushes := []
  drain := .idle
  accepted := []
  returned := []
  logged := []

/-! ## The invariant -/

/-- The argument is `NULL`. -/
def PushCall.hasNull (c : PushCall) : Bool := c.subsys.isNone || c.message.isNone

/-- What there is to count about the pushes: one number for each counter, and the accepted ones. -/
inductive Tally where
  | contention | full | dropped | accepted
  deriving DecidableEq, Repr

/-- The stages at which a push has been counted. -/
def Tally.counts : Tally → PushStage → Bool
  | .contention, .counted => true
  | .contention, .leaving o => o = .contention
  | .full, .leaving o => o = .full
  | .dropped, .leaving o => o = .contention ∨ o = .full
  | .accepted, .leaving o => o = .accepted
  | _, _ => false

/-- The number of the pushes that have been counted, the returned ones included. -/
def Tally.of (k : Tally) (s : LogSystem) : ℕ :=
  s.pushes.countP (fun p ↦ k.counts p.stage) + s.returned.countP (fun r ↦ k.counts (.leaving r.2))

/-- What getting from one stage to another adds to a number. -/
def Tally.gain (k : Tally) (old new : PushStage) : ℕ := (k.counts new && !k.counts old).toNat

/-- A push is refused for its arguments only. -/
def PushStage.Explained (c : PushCall) : PushStage → Prop
  | .entered => True
  | .contended | .counted => c.hasNull = false
  | .leaving o => o = .refused ↔ c.hasNull = true

/-- What holds in every state. -/
structure QueueInv (capacity : ℕ) (s : LogSystem) : Prop where
  capacity : s.queue.slots.length = capacity
  /-- What was accepted has been logged, is in the consumer's hand or is in the queue. -/
  records : s.logged ++ s.drain.inHand ++ s.queue.contents = s.accepted.map Submission.record
  contention : s.queue.contentionDropped = UInt64.ofNat (Tally.contention.of s)
  full : s.queue.fullDropped = UInt64.ofNat (Tally.full.of s)
  dropped : s.queue.dropped = UInt64.ofNat (Tally.dropped.of s)
  accepted : s.accepted.length = Tally.accepted.of s
  pushes : ∀ p ∈ s.pushes, p.stage.Explained p.call
  returned : ∀ r ∈ s.returned, (PushStage.leaving r.2).Explained r.1

theorem split_of_getElem? {α : Type} {l : List α} {i : ℕ} {a : α} (h : l[i]? = some a) :
    ∃ before after, l = before ++ a :: after ∧ l.eraseIdx i = before ++ after ∧
      ∀ b, l.set i b = before ++ b :: after := by
  obtain ⟨hi, rfl⟩ := List.getElem?_eq_some_iff.mp h
  refine ⟨l.take i, l.drop (i + 1), ?_, List.eraseIdx_eq_take_drop_succ .., fun b ↦ ?_⟩
  · rw [List.getElem_cons_drop, List.take_append_drop]
  · rw [List.set_eq_take_append_cons_drop, if_pos hi]

section Tally

variable {s t : LogSystem} {i : ℕ} {p : Push} {stage : PushStage} (k : Tally)

/-- A push that moves from one stage to a later one changes a number by its gain. -/
theorem Tally.of_move (hp : s.pushes[i]? = some p)
    (hpushes : t.pushes = s.pushes.set i ⟨p.call, stage⟩) (hret : t.returned = s.returned)
    (hmono : k.counts p.stage = true → k.counts stage = true) :
    k.of t = k.of s + k.gain p.stage stage := by
  obtain ⟨before, after, hs, -, hset⟩ := split_of_getElem? hp
  rw [Tally.of, Tally.of, Tally.gain, hpushes, hret, hset, hs]
  simp only [List.countP_append, List.countP_cons]
  cases hold : k.counts p.stage with
  | false => cases k.counts stage <;> simp; omega
  | true => simp [hmono hold]

/-- Returning changes no number. -/
theorem Tally.of_return {o : PushOutcome} (hp : s.pushes[i]? = some p)
    (hstage : p.stage = .leaving o) (hpushes : t.pushes = s.pushes.eraseIdx i)
    (hret : t.returned = s.returned ++ [(p.call, o)]) : k.of t = k.of s := by
  obtain ⟨before, after, hs, herase, -⟩ := split_of_getElem? hp
  rw [Tally.of, Tally.of, hpushes, hret, herase, hs]
  simp only [List.countP_append, List.countP_cons, List.countP_nil, hstage]
  omega

end Tally

/-! ## One step -/

section Step

variable {capacity : ℕ} {s t : LogSystem}

/-- A push gets to its next stage, with everything it does on the way. -/
theorem QueueInv.move {i : ℕ} {p : Push} {stage : PushStage} (h : QueueInv capacity s)
    (hp : s.pushes[i]? = some p) (hpushes : t.pushes = s.pushes.set i ⟨p.call, stage⟩)
    (hret : t.returned = s.returned) (hcap : t.queue.slots.length = s.queue.slots.length)
    (hrecords : t.logged ++ t.drain.inHand ++ t.queue.contents
      = t.accepted.map Submission.record)
    (hmono : ∀ k : Tally, k.counts p.stage = true → k.counts stage = true)
    (hcontention : t.queue.contentionDropped
      = s.queue.contentionDropped + .ofNat (Tally.contention.gain p.stage stage))
    (hfull : t.queue.fullDropped = s.queue.fullDropped + .ofNat (Tally.full.gain p.stage stage))
    (hdropped : t.queue.dropped = s.queue.dropped + .ofNat (Tally.dropped.gain p.stage stage))
    (haccepted : t.accepted.length = s.accepted.length + Tally.accepted.gain p.stage stage)
    (hexplained : stage.Explained p.call) : QueueInv capacity t := by
  have htally : ∀ k : Tally, k.of t = k.of s + k.gain p.stage stage := fun k ↦
    k.of_move hp hpushes hret (hmono k)
  refine ⟨hcap.trans h.capacity, hrecords, ?_, ?_, ?_, ?_, ?_, hret ▸ h.returned⟩
  · rw [hcontention, h.contention, htally, UInt64.ofNat_add]
  · rw [hfull, h.full, htally, UInt64.ofNat_add]
  · rw [hdropped, h.dropped, htally, UInt64.ofNat_add]
  · rw [haccepted, h.accepted, htally]
  · rw [hpushes]
    intro q hq
    rcases List.mem_or_eq_of_mem_set hq with hq | rfl
    · exact h.pushes q hq
    · exact hexplained

/-- A step that leaves the pushes and the counters alone. -/
theorem QueueInv.consumer (h : QueueInv capacity s) (hpushes : t.pushes = s.pushes)
    (hret : t.returned = s.returned) (hcap : t.queue.slots.length = s.queue.slots.length)
    (hcontention : t.queue.contentionDropped = s.queue.contentionDropped)
    (hfull : t.queue.fullDropped = s.queue.fullDropped)
    (hdropped : t.queue.dropped = s.queue.dropped) (haccepted : t.accepted = s.accepted)
    (hrecords : t.logged ++ t.drain.inHand ++ t.queue.contents
      = s.logged ++ s.drain.inHand ++ s.queue.contents) : QueueInv capacity t := by
  have htally : ∀ k : Tally, k.of t = k.of s := fun k ↦ by rw [Tally.of, Tally.of, hpushes, hret]
  refine ⟨hcap.trans h.capacity, ?_, ?_, ?_, ?_, ?_, hpushes ▸ h.pushes, hret ▸ h.returned⟩
  · rw [hrecords, haccepted, h.records]
  · rw [hcontention, htally, h.contention]
  · rw [hfull, htally, h.full]
  · rw [hdropped, htally, h.dropped]
  · rw [haccepted, htally, h.accepted]

/-- The critical section of a push appends a record to a queue that is not full. -/
theorem pushLocked_cases (q : RaLogQueue) (r : Submission) :
    (∃ q', pushLocked q r = (true, q') ∧ q'.contents = q.contents ++ [r.record] ∧
      q'.slots.length = q.slots.length ∧ q'.contentionDropped = q.contentionDropped ∧
      q'.fullDropped = q.fullDropped ∧ q'.dropped = q.dropped) ∨
    (q.length = q.slots.length ∧ pushLocked q r
      = (false, { q with fullDropped := q.fullDropped + 1, dropped := q.dropped + 1 })) := by
  by_cases h : q.length < q.slots.length
  · refine .inl ⟨_, dif_pos h, q.contents_push _ h, q.capacity_push _ h, rfl, rfl, rfl⟩
  · exact .inr ⟨le_antisymm q.length_le (not_lt.mp h), dif_neg h⟩

/-- What a push does to the queue: the record is the last one then, or a counter says why it is
not. -/
inductive Pushed (lock : Bool) (r : Submission) (q : RaLogQueue) : PushOutcome → RaLogQueue → Prop
  | accepted (q' : RaLogQueue) (hlock : lock = true) (hroom : q.length < q.slots.length)
      (contents : q'.contents = q.contents ++ [r.record])
      (slots : q'.slots.length = q.slots.length)
      (contention : q'.contentionDropped = q.contentionDropped)
      (full : q'.fullDropped = q.fullDropped) (dropped : q'.dropped = q.dropped) :
      Pushed lock r q .accepted q'
  | contention (hlock : lock = false) :
      Pushed lock r q .contention { q with
        contentionDropped := q.contentionDropped + 1, dropped := q.dropped + 1 }
  | full (hlock : lock = true) (hfull : q.length = q.slots.length) :
      Pushed lock r q .full { q with fullDropped := q.fullDropped + 1, dropped := q.dropped + 1 }

theorem Pushed.slots_eq {lock : Bool} {r : Submission} {q q' : RaLogQueue} {o : PushOutcome}
    (h : Pushed lock r q o q') : q'.slots.length = q.slots.length := by
  cases h with
  | accepted _ _ _ _ hslots => exact hslots
  | contention _ => rfl
  | full _ _ => rfl

/-- **A push on its own** appends its record, or is counted. -/
theorem raLogQueuePush_spec (q : RaLogQueue) (level : LogPriority) (subsys message : CStr)
    (lock : Bool) (now : Timespec) :
    ∃ o q', raLogQueuePush (some q) ⟨level, some subsys, some message⟩ lock now = (o, some q') ∧
      Pushed lock ⟨level, now, subsys, message⟩ q o q' := by
  cases lock with
  | false => exact ⟨.contention, _, rfl, .contention rfl⟩
  | true =>
    rcases pushLocked_cases q ⟨level, now, subsys, message⟩ with
      ⟨q', hpush, hcontents, hslots, hcontention, hfull, hdropped⟩ | ⟨hfull, hpush⟩
    · have hroom : q.length < q.slots.length := by
        by_contra hno
        rw [pushLocked, dif_neg hno] at hpush
        cases hpush
      refine ⟨.accepted, q', ?_, .accepted q' rfl hroom hcontents hslots hcontention hfull hdropped⟩
      simp only [raLogQueuePush, if_true, hpush]
    · refine ⟨.full, _, ?_, .full rfl hfull⟩
      simp only [raLogQueuePush, if_true, hpush]

theorem logStep_push {i : ℕ} {p : Push} (hp : s.pushes[i]? = some p) (lock : Bool)
    (now : Timespec) : logStep s (.push i lock now) = some (stepPush s i p lock now) := by
  rw [logStep, hp]
  rfl

/-- A push that nothing interrupts returns, and leaves the queue behind. -/
def PushReturns (s : LogSystem) (i : ℕ) (c : PushCall) (lock : Bool) (now : Timespec)
    (o : PushOutcome) (q : RaLogQueue) : Prop :=
  ∃ n t, runSteps logStep s (List.replicate n (.push i lock now)) = some t ∧ t.queue = q ∧
    t.pushes = s.pushes.eraseIdx i ∧ t.returned = s.returned ++ [(c, o)]

/-- One step, and then the push returns. -/
theorem PushReturns.of_step {i : ℕ} {c : PushCall} {lock : Bool} {now : Timespec} {o : PushOutcome}
    {q : RaLogQueue} (h : PushReturns t i c lock now o q)
    (hstep : logStep s (.push i lock now) = some t)
    (hpushes : t.pushes.eraseIdx i = s.pushes.eraseIdx i) (hret : t.returned = s.returned) :
    PushReturns s i c lock now o q := by
  obtain ⟨n, u, hrun, hq, hu, huret⟩ := h
  refine ⟨n + 1, u, ?_, hq, hu.trans hpushes, by rw [huret, hret]⟩
  rw [List.replicate_succ, runSteps, List.foldlM_cons, hstep]
  exact hrun

/-- A push that is about to return. -/
theorem pushReturns_leaving {i : ℕ} {c : PushCall} {o : PushOutcome}
    (hp : s.pushes[i]? = some ⟨c, .leaving o⟩) (lock : Bool) (now : Timespec) :
    PushReturns s i c lock now o s.queue := by
  refine ⟨1, { s with pushes := s.pushes.eraseIdx i, returned := s.returned ++ [(c, o)] }, ?_, rfl,
    rfl, rfl⟩
  rw [List.replicate_one, runSteps, List.foldlM_cons, logStep_push hp]
  rfl

/-- A push that decides on its outcome at once. -/
theorem pushReturns_entered {i : ℕ} {c : PushCall} {lock : Bool} {now : Timespec} {o : PushOutcome}
    (hp : s.pushes[i]? = some ⟨c, .entered⟩) (hstep : enterPush s i c lock now = t)
    (hpushes : t.pushes = s.pushes.set i ⟨c, .leaving o⟩) (hret : t.returned = s.returned) :
    PushReturns s i c lock now o t.queue := by
  have hi : i < s.pushes.length := (List.getElem?_eq_some_iff.mp hp).1
  have hleaving : t.pushes[i]? = some ⟨c, .leaving o⟩ := by rw [hpushes, List.getElem?_set_self hi]
  refine (pushReturns_leaving hleaving lock now).of_step ?_ ?_ hret
  · rw [logStep_push hp, ← hstep]
    rfl
  · rw [hpushes, List.eraseIdx_set_eq]

/-- A push that the lock is not free for: the two counters are steps of their own. -/
theorem pushReturns_contended {i : ℕ} {c : PushCall} {now : Timespec}
    (hp : s.pushes[i]? = some ⟨c, .entered⟩)
    (hstep : enterPush s i c false now = { s with pushes := s.pushes.set i ⟨c, .contended⟩ }) :
    PushReturns s i c false now .contention { s.queue with
      contentionDropped := s.queue.contentionDropped + 1, dropped := s.queue.dropped + 1 } := by
  have hi : i < s.pushes.length := (List.getElem?_eq_some_iff.mp hp).1
  let s₁ : LogSystem := { s with pushes := s.pushes.set i ⟨c, .contended⟩ }
  let s₂ : LogSystem := { s₁ with
    queue := { s.queue with contentionDropped := s.queue.contentionDropped + 1 }
    pushes := s₁.pushes.set i ⟨c, .counted⟩ }
  let s₃ : LogSystem := { s₂ with
    queue := { s₂.queue with dropped := s.queue.dropped + 1 }
    pushes := s₂.pushes.set i ⟨c, .leaving .contention⟩ }
  have hp₁ : s₁.pushes[i]? = some ⟨c, .contended⟩ := List.getElem?_set_self hi
  have hp₂ : s₂.pushes[i]? = some ⟨c, .counted⟩ :=
    List.getElem?_set_self (by rwa [List.length_set])
  have hp₃ : s₃.pushes[i]? = some ⟨c, .leaving .contention⟩ :=
    List.getElem?_set_self (by rwa [List.length_set, List.length_set])
  have hreturns : PushReturns s₃ i c false now .contention s₃.queue := pushReturns_leaving hp₃ _ _
  have h₂ := hreturns.of_step (logStep_push hp₂ false now) (List.eraseIdx_set_eq ..) rfl
  have h₁ := h₂.of_step (logStep_push hp₁ false now) (List.eraseIdx_set_eq ..) rfl
  refine h₁.of_step ?_ (List.eraseIdx_set_eq ..) rfl
  rw [logStep_push hp]
  exact congrArg some hstep

/-- **Steps that nothing interrupts** make a push what `raLogQueuePush` says. -/
theorem pushReturns_raLogQueuePush {i : ℕ} {c : PushCall}
    (hp : s.pushes[i]? = some ⟨c, .entered⟩) (lock : Bool) (now : Timespec) :
    ∃ o q, raLogQueuePush (some s.queue) c lock now = (o, some q) ∧
      PushReturns s i c lock now o q := by
  rcases c with ⟨level, _ | subsys, message⟩
  · have hstep : enterPush s i ⟨level, none, message⟩ lock now =
        { s with pushes := s.pushes.set i ⟨⟨level, none, message⟩, .leaving .refused⟩ } := rfl
    have hreturns := pushReturns_entered hp hstep rfl rfl
    exact ⟨.refused, s.queue, rfl, hreturns⟩
  rcases message with _ | message
  · have hstep : enterPush s i ⟨level, some subsys, none⟩ lock now =
        { s with pushes := s.pushes.set i ⟨⟨level, some subsys, none⟩, .leaving .refused⟩ } := rfl
    have hreturns := pushReturns_entered hp hstep rfl rfl
    exact ⟨.refused, s.queue, rfl, hreturns⟩
  cases lock with
  | false => exact ⟨.contention, _, rfl, pushReturns_contended hp rfl⟩
  | true =>
    rcases pushLocked_cases s.queue ⟨level, now, subsys, message⟩ with ⟨q, hpush, -⟩ | ⟨-, hpush⟩
    · have hstep : enterPush s i ⟨level, some subsys, some message⟩ true now = { s with
          queue := q
          pushes := s.pushes.set i ⟨⟨level, some subsys, some message⟩, .leaving .accepted⟩
          accepted := s.accepted ++ [⟨level, now, subsys, message⟩] } := by
        simp only [enterPush, if_true, hpush]
      refine ⟨.accepted, q, ?_, pushReturns_entered hp hstep rfl rfl⟩
      simp only [raLogQueuePush, if_true, hpush]
    · have hstep : enterPush s i ⟨level, some subsys, some message⟩ true now = { s with
          queue := { s.queue with
            fullDropped := s.queue.fullDropped + 1, dropped := s.queue.dropped + 1 }
          pushes := s.pushes.set i ⟨⟨level, some subsys, some message⟩, .leaving .full⟩ } := by
        simp only [enterPush, if_true, hpush]
      refine ⟨.full, _, ?_, pushReturns_entered hp hstep rfl rfl⟩
      simp only [raLogQueuePush, if_true, hpush]

/-- The critical section of the consumer takes the oldest record, if there is one. -/
theorem drainLocked_cases (q : RaLogQueue) :
    (q.contents = [] ∧ drainLocked q = (none, q)) ∨
    (∃ item q', drainLocked q = (some item, q') ∧ q.contents = item :: q'.contents ∧
      q'.slots.length = q.slots.length ∧ q'.contentionDropped = q.contentionDropped ∧
      q'.fullDropped = q.fullDropped ∧ q'.dropped = q.dropped) := by
  by_cases h : q.length = 0
  · refine .inl ⟨?_, dif_pos h⟩
    rw [← List.length_eq_zero_iff, CircularBuffer.length_contents, h]
  · exact .inr ⟨_, _, dif_neg h, q.contents_pop h, rfl, rfl, rfl, rfl⟩

theorem QueueInv.enterPush {i : ℕ} {p : Push} (h : QueueInv capacity s)
    (hp : s.pushes[i]? = some p) (hstage : p.stage = .entered) (lock : Bool) (now : Timespec) :
    QueueInv capacity (enterPush s i p.call lock now) := by
  have hmono : ∀ {stage} (k : Tally), k.counts p.stage = true → k.counts stage = true := by
    intro stage k hold
    rw [hstage] at hold
    cases k <;> cases hold
  obtain ⟨⟨level, subsys, message⟩, stage⟩ := p
  obtain rfl : stage = .entered := hstage
  have hrefused : PushCall.hasNull ⟨level, subsys, message⟩ = true →
      QueueInv capacity { s with
        pushes := s.pushes.set i ⟨⟨level, subsys, message⟩, .leaving .refused⟩ } := fun hnull ↦
    h.move hp rfl rfl rfl h.records hmono (by simp [Tally.gain, Tally.counts])
      (by simp [Tally.gain, Tally.counts]) (by simp [Tally.gain, Tally.counts])
      (by simp [Tally.gain, Tally.counts]) (by simp [PushStage.Explained, hnull])
  cases subsys with
  | none => exact hrefused rfl
  | some subsys =>
  cases message with
  | none => exact hrefused rfl
  | some message =>
  cases lock with
  | false =>
    simp only [Rustyaxe.enterPush, Bool.false_eq_true, if_false]
    exact h.move hp rfl rfl rfl h.records hmono (by simp [Tally.gain, Tally.counts])
      (by simp [Tally.gain, Tally.counts]) (by simp [Tally.gain, Tally.counts])
      (by simp [Tally.gain, Tally.counts]) rfl
  | true =>
    rcases pushLocked_cases s.queue ⟨level, now, subsys, message⟩ with
      ⟨q, hq, hcontents, hcap, hc, hf, hd⟩ | ⟨-, hq⟩
    · simp only [Rustyaxe.enterPush, if_true, hq]
      refine h.move hp rfl rfl hcap ?_ hmono (by simp [hc, Tally.gain, Tally.counts])
        (by simp [hf, Tally.gain, Tally.counts]) (by simp [hd, Tally.gain, Tally.counts])
        (by simp [Tally.gain, Tally.counts]) (by simp [PushStage.Explained, PushCall.hasNull])
      rw [hcontents, ← List.append_assoc, h.records, List.map_append]
      rfl
    · simp only [Rustyaxe.enterPush, if_true, hq]
      exact h.move hp rfl rfl rfl h.records hmono (by simp [Tally.gain, Tally.counts])
        (by simp [Tally.gain, Tally.counts]) (by simp [Tally.gain, Tally.counts])
        (by simp [Tally.gain, Tally.counts]) (by simp [PushStage.Explained, PushCall.hasNull])

/-- A push keeps the invariant. -/
theorem QueueInv.stepPush {i : ℕ} {p : Push} (h : QueueInv capacity s)
    (hp : s.pushes[i]? = some p) (lock : Bool) (now : Timespec) :
    QueueInv capacity (stepPush s i p lock now) := by
  have hexplained := h.pushes p (List.mem_of_getElem? hp)
  rw [Rustyaxe.stepPush]
  cases hstage : p.stage with
  | entered => exact h.enterPush hp hstage lock now
  | contended =>
    rw [hstage] at hexplained
    refine h.move hp rfl rfl rfl h.records ?_ ?_ ?_ ?_ ?_ hexplained <;> rw [hstage]
    · intro k hold
      cases k <;> cases hold
    all_goals simp [Tally.gain, Tally.counts]
  | counted =>
    rw [hstage] at hexplained
    refine h.move hp rfl rfl rfl h.records ?_ ?_ ?_ ?_ ?_ ?_
    · intro k hold
      rw [hstage] at hold
      cases k with
      | contention => rfl
      | full | dropped | accepted => cases hold
    · simp [hstage, Tally.gain, Tally.counts]
    · simp [hstage, Tally.gain, Tally.counts]
    · simp [hstage, Tally.gain, Tally.counts]
    · simp [hstage, Tally.gain, Tally.counts]
    · simpa [PushStage.Explained] using hexplained
  | leaving o =>
    rw [hstage] at hexplained
    have htally : ∀ k : Tally, k.of { s with
        pushes := s.pushes.eraseIdx i, returned := s.returned ++ [(p.call, o)] } = k.of s :=
      fun k ↦ k.of_return hp hstage rfl rfl
    refine ⟨h.capacity, h.records, ?_, ?_, ?_, ?_, ?_, ?_⟩
    · rw [htally, h.contention]
    · rw [htally, h.full]
    · rw [htally, h.dropped]
    · rw [htally, h.accepted]
    · exact fun q hq ↦ h.pushes q (List.mem_of_mem_eraseIdx hq)
    · intro r hr
      rcases List.mem_append.mp hr with hr | hr
      · exact h.returned r hr
      · obtain rfl : r = (p.call, o) := List.mem_singleton.mp hr
        exact hexplained

/-- The consumer keeps the invariant. -/
theorem QueueInv.stepConsume (h : QueueInv capacity s) (ht : stepConsume s = some t) :
    QueueInv capacity t := by
  rw [Rustyaxe.stepConsume] at ht
  cases hdrain : s.drain with
  | idle => simp [hdrain] at ht
  | loop n maxRecords =>
    simp only [hdrain] at ht
    split_ifs at ht with hn
    · rcases drainLocked_cases s.queue with ⟨-, hq⟩ | ⟨item, q, hq, hcontents, hcap, hc, hf, hd⟩
      · simp only [hq, Option.some.injEq] at ht
        subst ht
        exact h.consumer rfl rfl rfl rfl rfl rfl rfl (by simp [DrainStage.inHand, hdrain])
      · simp only [hq, Option.some.injEq] at ht
        subst ht
        refine h.consumer rfl rfl hcap hc hf hd rfl ?_
        simp [DrainStage.inHand, hdrain, hcontents]
    · obtain rfl := Option.some.inj ht
      exact h.consumer rfl rfl rfl rfl rfl rfl rfl (by simp [DrainStage.inHand, hdrain])
  | delivering item n maxRecords =>
    simp only [hdrain, Option.some.injEq] at ht
    subst ht
    exact h.consumer rfl rfl rfl rfl rfl rfl rfl (by simp [DrainStage.inHand, hdrain])

/-- **Every step keeps the invariant.** -/
theorem QueueInv.step (h : QueueInv capacity s) {a : LogStep} (ht : logStep s a = some t) :
    QueueInv capacity t := by
  cases a with
  | call c =>
    obtain rfl := Option.some.inj ht
    have htally : ∀ k : Tally, k.of { s with pushes := s.pushes ++ [⟨c, .entered⟩] } = k.of s := by
      intro k
      cases k <;> simp [Tally.of, Tally.counts]
    refine ⟨h.capacity, h.records, ?_, ?_, ?_, ?_, ?_, h.returned⟩
    · rw [htally, h.contention]
    · rw [htally, h.full]
    · rw [htally, h.dropped]
    · rw [htally, h.accepted]
    · intro p hp
      rcases List.mem_append.mp hp with hp | hp
      · exact h.pushes p hp
      · rw [List.mem_singleton.mp hp]
        trivial
  | push i lock now =>
    obtain ⟨p, hp, rfl⟩ := Option.map_eq_some_iff.mp ht
    exact h.stepPush hp lock now
  | drain maxRecords =>
    rw [logStep] at ht
    split_ifs at ht with hidle
    obtain rfl := Option.some.inj ht
    exact h.consumer rfl rfl rfl rfl rfl rfl rfl (by simp [DrainStage.inHand, hidle])
  | consume => exact h.stepConsume ht

end Step

theorem slots_raLogQueueNew {calloc mutexInit : Bool} {capacity : ℕ} {q : RaLogQueue}
    (hq : raLogQueueNew calloc mutexInit capacity = some q) : q.slots.length = capacity := by
  rw [raLogQueueNew] at hq
  split_ifs at hq
  obtain rfl := Option.some.inj hq
  exact List.length_replicate

/-- An unused queue satisfies the invariant. -/
theorem queueInv_start {calloc mutexInit : Bool} {capacity : ℕ} {q : RaLogQueue}
    (hq : raLogQueueNew calloc mutexInit capacity = some q) :
    QueueInv capacity (.start q) := by
  rw [raLogQueueNew] at hq
  split_ifs at hq with h0 hmax hfail
  obtain rfl := Option.some.inj hq
  refine ⟨List.length_replicate, rfl, rfl, rfl, rfl, rfl, ?_, ?_⟩
  · intro p hp
    cases hp
  · intro r hr
    cases hr

/-! ## The queue loses and repeats nothing -/

/-- A push that returned `false` and is not in question for its arguments. -/
def failedReturns (refuses : PushCall → Bool) (s : LogSystem) : ℕ :=
  s.returned.countP fun r ↦ !r.2.result && !refuses r.1

/-- What the queue owes its users in every state.  `refuses` tells which pushes may return `false`
without being counted. -/
structure LogQueueCorrect (refuses : PushCall → Bool) (capacity : ℕ) (s : LogSystem) : Prop where
  /-- `Log` got the accepted records in order, each once, and none that was not accepted. -/
  logged : s.logged <+: s.accepted.map Submission.record
  accepted : s.accepted.length = Tally.accepted.of s
  depth : raLogQueueDepth s.queue = s.accepted.length - s.drained
  drained : s.drained ≤ s.accepted.length
  bounded : raLogQueueDepth s.queue ≤ capacity
  /-- A failed push has been counted for one of the two reasons. -/
  explained : ∀ r ∈ s.returned, r.2.result = false → refuses r.1 = false →
    r.2 = .contention ∨ r.2 = .full
  contention : s.queue.contentionDropped = .ofNat (Tally.contention.of s)
  full : s.queue.fullDropped = .ofNat (Tally.full.of s)
  /-- All failed pushes have been counted, and each once. -/
  counted : s.pushes = [] →
    s.queue.contentionDropped + s.queue.fullDropped = .ofNat (failedReturns refuses s)
  dropped : s.pushes = [] →
    s.queue.dropped = s.queue.contentionDropped + s.queue.fullDropped

theorem countP_add_countP {α : Type} {l : List α} {p q r : α → Bool}
    (h : ∀ a ∈ l, (p a).toNat + (q a).toNat = (r a).toNat) :
    l.countP p + l.countP q = l.countP r := by
  induction l with
  | nil => rfl
  | cons a l ih =>
    have hl := ih fun b hb ↦ h b (List.mem_cons_of_mem _ hb)
    have ha := h a List.mem_cons_self
    simp only [List.countP_cons]
    revert ha
    cases p a <;> cases q a <;> cases r a <;> simp <;> omega

/-- A returned push that failed was refused, met with contention or found the queue full. -/
theorem QueueInv.failed {capacity : ℕ} {s : LogSystem} (h : QueueInv capacity s)
    {r : PushCall × PushOutcome} (hr : r ∈ s.returned) :
    (Tally.contention.counts (.leaving r.2)).toNat + (Tally.full.counts (.leaving r.2)).toNat
      = (!r.2.result && !r.1.hasNull).toNat := by
  have hexplained : r.2 = .refused ↔ r.1.hasNull = true := h.returned r hr
  cases ho : r.2 with
  | refused => rw [hexplained.mp ho]; rfl
  | accepted => rfl
  | contention | full =>
    have hnull : r.1.hasNull = false := by
      rw [← Bool.not_eq_true, ← hexplained, ho]
      simp
    rw [hnull]
    rfl

theorem QueueInv.correct {capacity : ℕ} {s : LogSystem} (h : QueueInv capacity s) :
    LogQueueCorrect PushCall.hasNull capacity s := by
  have hlen : s.drained + raLogQueueDepth s.queue = s.accepted.length := by
    have := congrArg List.length h.records
    simp only [List.length_append, CircularBuffer.length_contents, List.length_map] at this
    exact this
  have hnone : ∀ k : Tally, s.pushes = [] →
      k.of s = s.returned.countP fun r ↦ k.counts (.leaving r.2) := by
    intro k hpushes
    rw [Tally.of, hpushes]
    exact Nat.zero_add _
  refine ⟨?_, h.accepted, ?_, ?_, ?_, ?_, h.contention, h.full, ?_, ?_⟩
  · rw [← h.records, List.append_assoc]
    exact List.prefix_append _ _
  · omega
  · omega
  · rw [← h.capacity]
    exact s.queue.length_le
  · intro r hr hresult hnull
    have hfailed := h.failed hr
    rw [hresult, hnull] at hfailed
    cases ho : r.2 with
    | contention => exact .inl rfl
    | full => exact .inr rfl
    | accepted | refused => rw [ho] at hfailed; cases hfailed
  · intro hpushes
    rw [h.contention, h.full, ← UInt64.ofNat_add, hnone _ hpushes, hnone _ hpushes,
      countP_add_countP fun r hr ↦ h.failed hr]
    rfl
  · intro hpushes
    rw [h.contention, h.full, h.dropped, ← UInt64.ofNat_add, hnone _ hpushes, hnone _ hpushes,
      hnone _ hpushes, countP_add_countP fun r hr ↦ ?_]
    cases r.2 <;> rfl

/-- **The log queue is first-in-first-out, bounded, and counts what it drops.**  Whatever the
capacity and the schedule, only a push with a `NULL` argument returns `false` uncounted. -/
theorem logQueueCorrect_of_runSteps {calloc mutexInit : Bool} {capacity : ℕ} {q : RaLogQueue}
    (hq : raLogQueueNew calloc mutexInit capacity = some q) {steps : List LogStep} {s : LogSystem}
    (hs : runSteps logStep (.start q) steps = some s) :
    LogQueueCorrect PushCall.hasNull capacity s :=
  (inv_of_runSteps (queueInv_start hq) (fun _ _ _ h ht ↦ h.step ht) steps s hs).correct

/-- A run that fills a queue of one slot, and drains it. -/
def oneSlotRun : List LogStep :=
  [.call ⟨.info, some [116], some [111]⟩, .push 0 true ⟨1, 0⟩, .push 0 true ⟨1, 0⟩,
    .call ⟨.warn, some [116], some [112]⟩, .push 0 true ⟨2, 0⟩, .push 0 true ⟨2, 0⟩,
    .drain 10, .consume, .consume]

theorem logQueueCorrect_oneSlot :
    ∃ q s, raLogQueueNew true true 1 = some q ∧
      runSteps logStep (.start q) oneSlotRun = some s ∧
      s.logged = [⟨.info, ⟨1, 0⟩, [116], [111]⟩] ∧ s.queue.dropped = 1 ∧
      LogQueueCorrect PushCall.hasNull 1 s := by
  have hrun : ((raLogQueueNew true true 1).bind fun q ↦
      runSteps logStep (.start q) oneSlotRun).map (fun s ↦ (s.logged, s.queue.dropped))
        = some ([⟨.info, ⟨1, 0⟩, [116], [111]⟩], 1) := by decide
  obtain ⟨s, hs, hobs⟩ := Option.map_eq_some_iff.mp hrun
  obtain ⟨q, hq, hs⟩ := Option.bind_eq_some_iff.mp hs
  exact ⟨q, s, hq, hs, congrArg Prod.fst hobs, congrArg Prod.snd hobs,
    logQueueCorrect_of_runSteps hq hs⟩

/-- A push without a message. -/
def noMessageRun : List LogStep :=
  [.call ⟨.info, some [116], none⟩, .push 0 true ⟨1, 0⟩, .push 0 true ⟨1, 0⟩]

/-- The push returns `false`, and no counter shows it. -/
theorem not_logQueueCorrect_noMessage :
    ∃ q s, raLogQueueNew true true 1 = some q ∧
      runSteps logStep (.start q) noMessageRun = some s ∧
      s.returned = [(⟨.info, some [116], none⟩, .refused)] ∧ s.pushes = [] ∧
      s.queue.contentionDropped + s.queue.fullDropped = 0 ∧
      ¬ LogQueueCorrect (fun _ ↦ false) 1 s := by
  have hrun : ((raLogQueueNew true true 1).bind fun q ↦
      runSteps logStep (.start q) noMessageRun).map (fun s ↦
        (s.returned, s.pushes, s.queue.contentionDropped + s.queue.fullDropped))
        = some ([(⟨.info, some [116], none⟩, .refused)], [], 0) := by decide
  obtain ⟨s, hs, hobs⟩ := Option.map_eq_some_iff.mp hrun
  obtain ⟨q, hq, hs⟩ := Option.bind_eq_some_iff.mp hs
  simp only [Prod.mk.injEq] at hobs
  obtain ⟨hret, hpushes, hsum⟩ := hobs
  refine ⟨q, s, hq, hs, hret, hpushes, hsum, fun h ↦ ?_⟩
  have := h.counted hpushes
  rw [hsum, failedReturns, hret] at this
  revert this
  decide

end Rustyaxe
