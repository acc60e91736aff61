import Rustyaxe.CString
import Rustyaxe.Lib.Runs

/-!
# The transport

`transport.c` sits between a driver and the user of a connection: the driver emits events to it,
and the user closes, frees and sends through it.

Both sides run inside of each other.  The user's callback may call anything while an event is being
delivered, and so may an operation of the driver; `TransportSystem` keeps a stack of the external
calls that are in progress.  Its trace shows the calls of the API, the external calls they make and
when the transport is freed, and `Lifecycle` is the language of these traces.
-/

set_option autoImplicit false

namespace Rustyaxe

open Runs

/-! ## The transport and its driver -/

/-- `enum rr_transport_state` -/
inductive RrTransportState where
  | connecting | open | closing | closed
  deriving DecidableEq, Repr

/-- `enum rr_transport_event` -/
inductive RrTransportEvent where
  | open | message | datagram | streamData | close | error | pong | binaryMessage
  deriving DecidableEq, Repr

/-- The operations of a driver; all of them are optional. -/
inductive DriverOp where
  | sendMessage | sendBinaryMessage | sendDatagram | openStream | sendStream | poll | close
  deriving DecidableEq, Repr

/-- Borrowed data, or `NULL`. -/
abbrev Data := Option (List UInt8)

/-- A call of an operation, with its arguments. -/
inductive DriverCall where
  | sendMessage (data : Data) (len : ℕ)
  | sendBinaryMessage (data : Data) (len : ℕ)
  | sendDatagram (data : Data) (len : ℕ)
  | openStream
  | sendStream (id : UInt64) (data : Data) (len : ℕ) (fin : Bool)
  | poll (timeoutMs : ℤ)
  | close
  deriving DecidableEq, Repr

def DriverCall.op : DriverCall → DriverOp
  | .sendMessage .. => .sendMessage
  | .sendBinaryMessage .. => .sendBinaryMessage
  | .sendDatagram .. => .sendDatagram
  | .openStream => .openStream
  | .sendStream .. => .sendStream
  | .poll _ => .poll
  | .close => .close

/-- `rr_transport_driver_t` -/
structure RrTransportDriver where
  abiVersion : UInt32
  capabilities : UInt32
  /-- Whether `connection_capabilities` is there. -/
  connectionCapabilities : Bool
  /-- Which of the operations are there. -/
  has : DriverOp → Bool

/-- `struct rr_transport`; of the callback only whether there is one. -/
structure RrTransport where
  ops : RrTransportDriver
  callback : Bool
  state : RrTransportState

/-- The arguments of an event. -/
structure Delivery where
  event : RrTransportEvent
  channel : Option ℕ
  data : Data
  len : ℕ
  deriving DecidableEq, Repr

/-- A call out of the transport. -/
inductive External where
  | callback (d : Delivery)
  | driver (c : DriverCall)
  deriving DecidableEq, Repr

/-- How a function of the API goes on: it returns, or makes its last call, whose result it returns. -/
inductive Outcome where
  | returns (r : ℤ)
  | calls (e : External)
  deriving DecidableEq, Repr

def rrTransportOk : ℤ := 0

def rrTransportUnsupported : ℤ := -1

def rrTransportInvalid : ℤ := -2

def rrTransportClosedError : ℤ := -3

/-- `rr_transport_new`, where `calloc` may fail. -/
def rrTransportNew (calloc : Bool) (ops : Option RrTransportDriver) (callback : Bool) :
    Option RrTransport :=
  match ops with
  | none => none
  | some ops =>
    if ops.abiVersion ≠ 3 then none
    else if !calloc then none
    else some ⟨ops, callback, .connecting⟩

/-- `rr_transport_capabilities`; `conn` is what the driver answers. -/
def rrTransportCapabilities (t : RrTransport) (conn : UInt32) : UInt32 :=
  if t.ops.connectionCapabilities then conn &&& t.ops.capabilities else t.ops.capabilities

/-- `check` -/
def check (t : RrTransport) (conn capability : UInt32) (data : Data) (len : ℕ) : ℤ :=
  if data.isNone ∧ len ≠ 0 then rrTransportInvalid
  else if t.state ≠ .open then rrTransportClosedError
  else if rrTransportCapabilities t conn &&& capability ≠ 0 then rrTransportOk
  else rrTransportUnsupported

/-- The last call of a function: the driver's operation, if it is there. -/
def callDriver (t : RrTransport) (c : DriverCall) : Outcome :=
  if t.ops.has c.op then .calls (.driver c) else .returns rrTransportUnsupported

/-- A send operation: the driver's, if the check allows it. -/
def sendVia (t : RrTransport) (r : ℤ) (c : DriverCall) : Outcome :=
  if r ≠ 0 then .returns r else callDriver t c

def rrTransportSendMessage (t : RrTransport) (conn : UInt32) (data : Data) (len : ℕ) : Outcome :=
  sendVia t (check t conn 0x01 data len) (.sendMessage data len)

def rrTransportSendBinaryMessage (t : RrTransport) (conn : UInt32) (data : Data) (len : ℕ) :
    Outcome :=
  sendVia t (check t conn 0x40 data len) (.sendBinaryMessage data len)

def rrTransportSendDatagram (t : RrTransport) (conn : UInt32) (data : Data) (len : ℕ) : Outcome :=
  sendVia t (check t conn 0x04 data len) (.sendDatagram data len)

def rrTransportSendStream (t : RrTransport) (conn : UInt32) (id : UInt64) (data : Data) (len : ℕ)
    (fin : Bool) : Outcome :=
  sendVia t (check t conn 0x02 data len) (.sendStream id data len fin)

/-- `rr_transport_open_stream`; `id` tells whether there is a place for the identifier. -/
def rrTransportOpenStream (t : RrTransport) (conn : UInt32) (id : Bool) : Outcome :=
  let r := check t conn 0x02 none 0
  if r ≠ 0 then .returns r
  else if !id then .returns rrTransportInvalid
  else callDriver t .openStream

/-- `rr_transport_poll` -/
def rrTransportPoll (t : RrTransport) (timeoutMs : ℤ) : Outcome :=
  if timeoutMs < 0 then .returns rrTransportInvalid
  else if t.state = .closed then .returns rrTransportClosedError
  else callDriver t (.poll timeoutMs)

/-- The end of `rr_transport_emit`. -/
def deliver (t : RrTransport) (d : Delivery) : RrTransport × Outcome :=
  (t, if t.callback then .calls (.callback d) else .returns 0)

/-- `rr_transport_emit` -/
def rrTransportEmit (t : RrTransport) (d : Delivery) : RrTransport × Outcome :=
  if t.state = .closed then (t, .returns 0)
  else if d.event = .open then
    if t.state ≠ .connecting then (t, .returns 0) else deliver { t with state := .open } d
  else if d.event = .close then deliver { t with state := .closed } d
  else if t.state ≠ .open ∧ d.event ≠ .error then (t, .returns 0)
  else deliver t d

/-- `rr_transport_close` -/
def rrTransportClose (t : RrTransport) : RrTransport × Outcome :=
  if t.state = .closed ∨ t.state = .closing then (t, .returns 0)
  else
    let t := { t with state := .closing }
    if t.ops.has .close then (t, .calls (.driver .close))
    else rrTransportEmit t ⟨.close, none, none, 0⟩

/-- `rr_transport_free`; the transport is gone when it has been freed. -/
def rrTransportFree (t : RrTransport) : Option RrTransport × Outcome :=
  if t.state ≠ .closed then
    let (t, o) := rrTransportClose t
    (some t, o)
  else (none, .returns 0)

/-! ## Nested calls -/

/-- A call of the API.  `conn` is what `connection_capabilities` would answer. -/
inductive TransportCall where
  | emit (d : Delivery)
  | close
  | free
  | sendMessage (conn : UInt32) (data : Data) (len : ℕ)
  | sendBinaryMessage (conn : UInt32) (data : Data) (len : ℕ)
  | sendDatagram (conn : UInt32) (data : Data) (len : ℕ)
  | openStream (conn : UInt32) (id : Bool)
  | sendStream (conn : UInt32) (id : UInt64) (data : Data) (len : ℕ) (fin : Bool)
  | poll (timeoutMs : ℤ)
  deriving DecidableEq, Repr

/-- What a call does to the transport, and how it goes on. -/
def TransportCall.perform (t : RrTransport) : TransportCall → Option RrTransport × Outcome
  | .emit d => (rrTransportEmit t d).map some id
  | .close => (rrTransportClose t).map some id
  | .free => rrTransportFree t
  | .sendMessage conn data len => (some t, rrTransportSendMessage t conn data len)
  | .sendBinaryMessage conn data len => (some t, rrTransportSendBinaryMessage t conn data len)
  | .sendDatagram conn data len => (some t, rrTransportSendDatagram t conn data len)
  | .openStream conn id => (some t, rrTransportOpenStream t conn id)
  | .sendStream conn id data len fin => (some t, rrTransportSendStream t conn id data len fin)
  | .poll timeoutMs => (some t, rrTransportPoll t timeoutMs)

/-- What can be observed of a run. -/
inductive Observation where
  /-- A call of the API in a state. -/
  | called (c : TransportCall) (state : RrTransportState)
  /-- An external call; `state` is the transport's at its start. -/
  | entered (e : External) (state : RrTransportState)
  /-- The transport is freed. -/
  | freed
  /-- A call of the API returns. -/
  | returned (r : ℤ)
  deriving DecidableEq, Repr

/-- A transport, until it is freed, with the external calls in progress, the innermost first. -/
structure TransportSystem where
  transport : Option RrTransport
  stack : List External
  trace : List Observation

/-- What whoever runs may do next: call the API, or return from the external call it is in. -/
inductive TransportStep where
  | call (c : TransportCall)
  | ret (r : ℤ)
  deriving DecidableEq, Repr

/-- The state in which an external call starts. -/
def stateOf (t : Option RrTransport) : RrTransportState := (t.map RrTransport.state).getD .closed

/-- The observations of one call. -/
def callTrace (c : TransportCall) (t : RrTransport) (t' : Option RrTransport) (o : Outcome) :
    List Observation :=
  .called c t.state :: (if t'.isNone then [.freed] else []) ++
    match o with
    | .returns r => [.returned r]
    | .calls e => [.entered e (stateOf t')]

/-- The step of the system.  A transport that has been freed cannot be called. -/
def transportStep (s : TransportSystem) : TransportStep → Option TransportSystem
  | .call c => s.transport.map fun t ↦
    let (t', o) := c.perform t
    { transport := t'
      stack := match o with
        | .returns _ => s.stack
        | .calls e => e :: s.stack
      trace := s.trace ++ callTrace c t t' o }
  | .ret r =>
    match s.stack with
    | [] => none
    | _ :: stack => some { s with stack := stack, trace := s.trace ++ [.returned r] }

def TransportSystem.start (t : RrTransport) : TransportSystem := ⟨some t, [], []⟩

/-! ## The language of the traces -/

/-- The events that only an open transport delivers. -/
def RrTransportEvent.isData : RrTransportEvent → Bool
  | .message | .binaryMessage | .datagram | .streamData | .pong => true
  | .open | .close | .error => false

/-- The operations of the driver behind the send operations. -/
def DriverOp.isSend : DriverOp → Bool
  | .poll | .close => false
  | _ => true

/-- The callback is called with the event. -/
def Observation.sees (ev : RrTransportEvent) : Observation → Bool
  | .entered (.callback d) _ => d.event = ev
  | _ => false

/-- Close has been requested. -/
def Observation.requestsClose : Observation → Bool
  | .called .close _ | .called .free _ => true
  | _ => false

/-- What may be observed after `τ`. -/
def Allowed (τ : List Observation) : Observation → Prop
  | .entered (.callback d) _ =>
    (∀ o ∈ τ, o.sees .close = false) ∧
    (d.event = .open → ∀ o ∈ τ, o.sees .open = false) ∧
    (d.event.isData → (∃ o ∈ τ, o.sees .open) ∧ ∀ o ∈ τ, o.requestsClose = false)
  | .entered (.driver c) state => c.op.isSend → state = .open
  | .freed => τ.getLast? = some (.called .free .closed)
  | _ => True

/-- Every observation was allowed when it was made. -/
def Lifecycle (τ : List Observation) : Prop := ∀ τ' o, τ' ++ [o] <+: τ → Allowed τ' o

/-! ## The invariant -/

/-- What the state of the transport says about its past. -/
structure Linked (t : RrTransport) (τ : List Observation) : Prop where
  noClose : t.state ≠ .closed → ∀ o ∈ τ, o.sees .close = false
  noOpen : t.state = .connecting → ∀ o ∈ τ, o.sees .open = false
  noRequest : t.state = .connecting ∨ t.state = .open → ∀ o ∈ τ, o.requestsClose = false
  opened : t.state = .open → t.callback = true → ∃ o ∈ τ, o.sees .open = true

/-- What holds in every state. -/
structure TransportInv (s : TransportSystem) : Prop where
  lifecycle : Lifecycle s.trace
  linked : ∀ t, s.transport = some t → Linked t s.trace

section Invariant

variable {t t' : RrTransport} {τ : List Observation} {o : Observation}

theorem Lifecycle.concat (h : Lifecycle τ) (ho : Allowed τ o) : Lifecycle (τ ++ [o]) := by
  intro τ' o' hpre
  rcases List.prefix_concat_iff.mp hpre with heq | hpre
  · obtain ⟨rfl, hlast⟩ := List.append_inj' heq rfl
    obtain rfl : o' = o := by simpa using hlast
    exact ho
  · exact h τ' o' hpre

/-- An observation that says nothing about opening and closing. -/
theorem Linked.concat (h : Linked t τ) (hopen : o.sees .open = false)
    (hclose : o.sees .close = false)
    (hrequest : t.state = .connecting ∨ t.state = .open → o.requestsClose = false) :
    Linked t (τ ++ [o]) := by
  have hmem : ∀ {P : Observation → Prop}, (∀ a ∈ τ, P a) → P o → ∀ a ∈ τ ++ [o], P a := by
    intro P hτ ho a ha
    rcases List.mem_append.mp ha with ha | ha
    · exact hτ a ha
    · rwa [List.mem_singleton.mp ha]
  refine ⟨fun hs ↦ hmem (h.noClose hs) hclose, fun hs ↦ hmem (h.noOpen hs) hopen,
    fun hs ↦ hmem (h.noRequest hs) (hrequest hs), fun hs hc ↦ ?_⟩
  obtain ⟨a, ha, hsees⟩ := h.opened hs hc
  exact ⟨a, List.mem_append_left _ ha, hsees⟩

/-- The last observation of a call. -/
def Outcome.observed (o : Outcome) (state : RrTransportState) : Observation :=
  match o with
  | .returns r => .returned r
  | .calls e => .entered e state

/-- The call may go on as it does, and the new state fits. -/
structure Continues (τ : List Observation) (t' : RrTransport) (o : Outcome) : Prop where
  allowed : Allowed τ (o.observed t'.state)
  linked : Linked t' (τ ++ [o.observed t'.state])

theorem Linked.returns (h : Linked t τ) (r : ℤ) : Continues τ t (.returns r) :=
  ⟨trivial, h.concat rfl rfl fun _ ↦ rfl⟩

/-- A call into the driver. -/
theorem Linked.driver (h : Linked t τ) {c : DriverCall} (hc : c.op.isSend → t.state = .open) :
    Continues τ t (.calls (.driver c)) :=
  ⟨hc, h.concat rfl rfl fun _ ↦ rfl⟩

theorem Linked.callDriver (h : Linked t τ) {c : DriverCall} (hc : c.op.isSend → t.state = .open) :
    Continues τ t (callDriver t c) := by
  rw [Rustyaxe.callDriver]
  split
  · exact h.driver hc
  · exact h.returns _

/-- `check` lets only an open transport through. -/
theorem open_of_check {conn capability : UInt32} {data : Data} {len : ℕ}
    (h : ¬ check t conn capability data len ≠ 0) : t.state = .open := by
  rw [check] at h
  split_ifs at h with h1 h2 h3
  · exact absurd (by decide) h
  · exact absurd (by decide) h
  · exact not_not.mp h2
  · exact not_not.mp h2

theorem Linked.sendVia (h : Linked t τ) {conn capability : UInt32} {data : Data} {len : ℕ}
    {c : DriverCall} : Continues τ t (sendVia t (check t conn capability data len) c) := by
  rw [Rustyaxe.sendVia]
  split_ifs with hr
  · exact h.returns _
  · exact h.callDriver fun _ ↦ open_of_check hr

theorem Linked.openStream (h : Linked t τ) {conn : UInt32} {id : Bool} :
    Continues τ t (rrTransportOpenStream t conn id) := by
  unfold rrTransportOpenStream
  dsimp only
  split_ifs with hr hid
  · exact h.returns _
  · exact h.returns _
  · exact h.callDriver fun _ ↦ open_of_check hr

theorem Linked.poll (h : Linked t τ) {timeoutMs : ℤ} :
    Continues τ t (rrTransportPoll t timeoutMs) := by
  rw [rrTransportPoll]
  split_ifs
  · exact h.returns _
  · exact h.returns _
  · exact h.callDriver fun hsend ↦ by cases hsend

theorem Continues.deliver {d : Delivery}
    (hcallback : t.callback = true → Continues τ t (.calls (.callback d)))
    (hno : t.callback = false → Linked t τ) :
    Continues τ (deliver t d).1 (deliver t d).2 := by
  change Continues τ t (if t.callback then .calls (.callback d) else .returns 0)
  cases hc : t.callback with
  | true => exact hcallback hc
  | false => exact (hno hc).returns 0

/-- A closed transport says nothing about its past. -/
theorem linked_of_closed (h : t.state = .closed) : Linked t τ := by
  refine ⟨fun hs ↦ absurd h hs, fun hs ↦ ?_, fun hs ↦ ?_, fun hs ↦ ?_⟩
  · rw [h] at hs
    cases hs
  · rw [h] at hs
    rcases hs with hs | hs <;> cases hs
  · rw [h] at hs
    cases hs

/-- The transport opens. -/
theorem Linked.open (h : Linked t τ) (hstate : t.state = .connecting) {d : Delivery}
    (hd : d.event = .open) :
    Continues τ (deliver { t with state := .open } d).1
      (deliver { t with state := .open } d).2 := by
  have hclosed : t.state ≠ .closed := by
    rw [hstate]
    decide
  have hsees : Observation.sees .open (.entered (.callback d) .open) = true := by
    simp [Observation.sees, hd]
  refine Continues.deliver (fun _ ↦ ⟨⟨h.noClose hclosed, fun _ ↦ h.noOpen hstate, ?_⟩, ?_⟩)
    fun hc ↦ ?_
  · rw [hd]
    exact fun hdata ↦ absurd hdata (by decide)
  · refine ⟨fun _ o ho ↦ ?_, fun hs ↦ (by cases hs), fun _ o ho ↦ ?_, fun _ _ ↦
      ⟨_, List.mem_append_right _ (List.mem_singleton_self _), hsees⟩⟩
    · rcases List.mem_append.mp ho with ho | ho
      · exact h.noClose hclosed o ho
      · rw [List.mem_singleton.mp ho]
        simp [Outcome.observed, Observation.sees, hd]
    · rcases List.mem_append.mp ho with ho | ho
      · exact h.noRequest (.inl hstate) o ho
      · rw [List.mem_singleton.mp ho]
        rfl
  · refine ⟨fun _ ↦ h.noClose hclosed, fun hs ↦ (by cases hs), fun _ ↦ h.noRequest (.inl hstate),
      fun _ hcb ↦ ?_⟩
    rw [hcb] at hc
    cases hc

/-- **An event is delivered only where the language allows it.** -/
theorem Linked.emit (h : Linked t τ) (d : Delivery) :
    Continues τ (rrTransportEmit t d).1 (rrTransportEmit t d).2 := by
  rw [rrTransportEmit]
  split_ifs with hclosed hopen hconn hclose hdata
  · exact h.returns 0
  · exact h.returns 0
  · exact h.open (not_not.mp hconn) hopen
  · refine Continues.deliver (fun _ ↦ ⟨⟨h.noClose hclosed, fun ho ↦ absurd ho hopen, ?_⟩,
      linked_of_closed rfl⟩) (fun _ ↦ linked_of_closed rfl)
    rw [hclose]
    exact fun hd ↦ absurd hd (by decide)
  · exact h.returns 0
  · refine Continues.deliver (fun hc ↦ ⟨⟨h.noClose hclosed, fun ho ↦ absurd ho hopen,
      fun hd ↦ ?_⟩, ?_⟩) (fun _ ↦ h)
    · have hstate : t.state = .open := by
        by_contra hne
        refine hdata ⟨hne, fun herr ↦ ?_⟩
        rw [herr] at hd
        cases hd
      exact ⟨h.opened hstate hc, h.noRequest (.inr hstate)⟩
    · refine h.concat ?_ ?_ fun _ ↦ rfl
      · simp [Outcome.observed, Observation.sees, hopen]
      · simp [Outcome.observed, Observation.sees, hclose]

/-- What is left of the link once close has been requested. -/
theorem Linked.closing (h : Linked t τ) (hclosed : t.state ≠ .closed) (c : TransportCall) :
    Linked { t with state := .closing } (τ ++ [.called c t.state]) := by
  refine ⟨fun _ o ho ↦ ?_, fun hs ↦ (by cases hs), fun hs ↦ ?_, fun hs ↦ (by cases hs)⟩
  · rcases List.mem_append.mp ho with ho | ho
    · exact h.noClose hclosed o ho
    · rw [List.mem_singleton.mp ho]
      rfl
  · rcases hs with hs | hs <;> cases hs

/-- A call that does not request a close, or comes too late to. -/
theorem Linked.called (h : Linked t τ) {c : TransportCall}
    (hc : t.state = .connecting ∨ t.state = .open → (c ≠ .close ∧ c ≠ .free)) :
    Linked t (τ ++ [.called c t.state]) := by
  refine h.concat rfl rfl fun hs ↦ ?_
  obtain ⟨hclose, hfree⟩ := hc hs
  cases c <;> first | rfl | contradiction

theorem Linked.close (h : Linked t τ) (c : TransportCall) :
    Continues (τ ++ [.called c t.state]) (rrTransportClose t).1 (rrTransportClose t).2 := by
  rw [rrTransportClose]
  dsimp only
  split_ifs with hdone hhas
  · refine (h.called fun hs ↦ ?_).returns 0
    rcases hdone with hd | hd <;> rw [hd] at hs <;> rcases hs with hs | hs <;> cases hs
  · exact (h.closing (fun hs ↦ hdone (.inl hs)) c).driver fun hsend ↦ by cases hsend
  · exact (h.closing (fun hs ↦ hdone (.inl hs)) c).emit _

/-- **A call on a live transport keeps the invariant.** -/
theorem Linked.perform (h : Linked t τ) (hτ : Lifecycle τ) (c : TransportCall) :
    Lifecycle (τ ++ callTrace c t (c.perform t).1 (c.perform t).2) ∧
      ∀ t', (c.perform t).1 = some t' →
        Linked t' (τ ++ callTrace c t (c.perform t).1 (c.perform t).2) := by
  have hcalled : Lifecycle (τ ++ [.called c t.state]) := hτ.concat trivial
  have hgo : ∀ {t' o}, Continues (τ ++ [.called c t.state]) t' o →
      Lifecycle (τ ++ callTrace c t (some t') o) ∧
        ∀ t'', some t' = some t'' → Linked t'' (τ ++ callTrace c t (some t') o) := by
    intro t' o hc
    have htrace : τ ++ callTrace c t (some t') o
        = τ ++ [.called c t.state] ++ [o.observed t'.state] := by
      rw [List.append_assoc]
      cases o <;> rfl
    rw [htrace]
    refine ⟨hcalled.concat hc.allowed, fun t'' heq ↦ ?_⟩
    obtain rfl := Option.some.inj heq
    exact hc.linked
  cases c with
  | emit d => exact hgo ((h.called fun _ ↦ by simp).emit d)
  | close => exact hgo (h.close .close)
  | sendMessage conn data len => exact hgo (h.called fun _ ↦ by simp).sendVia
  | sendBinaryMessage conn data len => exact hgo (h.called fun _ ↦ by simp).sendVia
  | sendDatagram conn data len => exact hgo (h.called fun _ ↦ by simp).sendVia
  | openStream conn id => exact hgo (h.called fun _ ↦ by simp).openStream
  | sendStream conn id data len fin => exact hgo (h.called fun _ ↦ by simp).sendVia
  | poll timeoutMs => exact hgo (h.called fun _ ↦ by simp).poll
  | free =>
    simp only [TransportCall.perform, rrTransportFree]
    split_ifs with hstate
    · exact hgo (h.close .free)
    · have hclosed : t.state = .closed := not_not.mp hstate
      refine ⟨?_, fun t' ht' ↦ by cases ht'⟩
      have htrace : τ ++ callTrace .free t none (.returns 0)
          = τ ++ [.called .free t.state] ++ [.freed] ++ [.returned 0] := by
        simp [callTrace]
      rw [htrace]
      refine (hcalled.concat ?_).concat trivial
      rw [Allowed, List.getLast?_concat, hclosed]

end Invariant

theorem TransportInv.step {s s' : TransportSystem} (h : TransportInv s) {a : TransportStep}
    (hs : transportStep s a = some s') : TransportInv s' := by
  cases a with
  | call c =>
    obtain ⟨t, ht, rfl⟩ := Option.map_eq_some_iff.mp hs
    obtain ⟨hlife, hlinked⟩ := (h.linked t ht).perform h.lifecycle c
    exact ⟨hlife, hlinked⟩
  | ret r =>
    rw [transportStep] at hs
    split at hs
    · cases hs
    · obtain rfl := Option.some.inj hs
      exact ⟨h.lifecycle.concat trivial, fun t ht ↦
        (h.linked t ht).concat rfl rfl fun _ ↦ rfl⟩

theorem transportInv_start {calloc : Bool} {ops : Option RrTransportDriver} {callback : Bool}
    {t : RrTransport} (ht : rrTransportNew calloc ops callback = some t) :
    TransportInv (.start t) := by
  have hstate : t.state = .connecting := by
    unfold rrTransportNew at ht
    split at ht
    · cases ht
    · split_ifs at ht
      obtain rfl := Option.some.inj ht
      rfl
  refine ⟨fun τ o hpre ↦ ?_, fun t' ht' ↦ ?_⟩
  · simp [TransportSystem.start] at hpre
  · obtain rfl := Option.some.inj ht'
    refine ⟨?_, ?_, ?_, fun hs ↦ ?_⟩
    · exact fun _ o ho ↦ absurd ho List.not_mem_nil
    · exact fun _ o ho ↦ absurd ho List.not_mem_nil
    · exact fun _ o ho ↦ absurd ho List.not_mem_nil
    · rw [hstate] at hs
      cases hs

/-- **Every run of a transport, with calls nested as they like, has the lifecycle.** -/
theorem lifecycle_of_runSteps {calloc : Bool} {ops : Option RrTransportDriver} {callback : Bool}
    {t : RrTransport} (ht : rrTransportNew calloc ops callback = some t)
    {steps : List TransportStep} {s : TransportSystem}
    (hs : runSteps transportStep (.start t) steps = some s) : Lifecycle s.trace :=
  (inv_of_runSteps (transportInv_start ht) (fun _ _ _ h hc ↦ h.step hc) steps s hs).lifecycle

/-- A driver that can only close. -/
def closingDriver : RrTransportDriver where
  abiVersion := 3
  capabilities := 0
  connectionCapabilities := false
  has op := op = .close

/-- The connection opens and is closed from the callback; the driver emits the close at once, and
the callback frees the transport when it sees it. -/
def nestedRun : List TransportStep :=
  [.call (.emit ⟨.open, none, none, 0⟩), .call .close, .call (.emit ⟨.close, none, none, 0⟩),
    .call .free, .ret 0, .ret 0, .ret 0]

def nestedTrace : List Observation :=
  [.called (.emit ⟨.open, none, none, 0⟩) .connecting,
    .entered (.callback ⟨.open, none, none, 0⟩) .open, .called .close .open,
    .entered (.driver .close) .closing, .called (.emit ⟨.close, none, none, 0⟩) .closing,
    .entered (.callback ⟨.close, none, none, 0⟩) .closed, .called .free .closed, .freed,
    .returned 0, .returned 0, .returned 0, .returned 0]

theorem lifecycle_nested :
    ∃ t s, rrTransportNew true (some closingDriver) true = some t ∧
      runSteps transportStep (.start t) nestedRun = some s ∧ s.trace = nestedTrace ∧
      Lifecycle s.trace := by
  have hrun : ((rrTransportNew true (some closingDriver) true).bind fun t ↦
      runSteps transportStep (.start t) nestedRun).map TransportSystem.trace
        = some nestedTrace := by decide
  obtain ⟨s, hs, htrace⟩ := Option.map_eq_some_iff.mp hrun
  obtain ⟨t, ht, hs⟩ := Option.bind_eq_some_iff.mp hs
  exact ⟨t, s, ht, hs, htrace, lifecycle_of_runSteps ht hs⟩

end Rustyaxe
