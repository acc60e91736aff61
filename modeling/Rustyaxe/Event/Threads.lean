import Rustyaxe.Event.Ownership
import Rustyaxe.Lib.ThreadPool

/-!
# The event bus, used by several threads

Every function of `event-bus.c` takes `event_lock` for part of what it does, and what it does in
between is its own.  Here a call is a thread that goes from one critical section to the next, and
an interleaving is a run of the pool of all of them.  An emission takes its snapshot in a section
and then works through it; what it hands to a dispatcher is a thread as well, since a dispatcher
may run it whenever it likes.  So is a delivery, also one that an emitter makes itself, and a
callback that calls the bus; the runs in which these keep their place are some of the runs here.

Connection pointers are addresses, as in `Rustyaxe.Event.Registry`.  `trace` is what can be seen
from outside, and `created` is not the source's: it has the listeners that were registered for a
domain, and whether their registration is complete.
-/

set_option autoImplicit false

namespace Rustyaxe

open Runs ThreadPool

/-! ## Emissions -/

/-- The arguments of `event_emit`, and of `event_emit_binary` if `binary`; `len` is the latter's. -/
structure Emission where
  binary : Bool
  event : CStr
  cptr : ℕ
  data : Option CStr
  len : ℕ
  deriving DecidableEq, Repr

/-- `rr_event_message_t`; `payload` are its `length` bytes. -/
structure EventMessage where
  name : CStr
  sender : Option CStr
  payload : CStr
  flags : ℕ
  deriving DecidableEq, Repr

/-- What is queued for a listener that has a dispatcher. -/
def Emission.queued (e : Emission) (l : Listener) : Emission :=
  if e.binary then { e with data := if e.len = 0 then none else e.data }
  else { e with cptr := if l.domainDelivery then 0 else e.cptr }

/-- What `event_emit_message` makes of a message. -/
def EventMessage.pending (m : EventMessage) : EventMessage :=
  { m with sender := some (m.sender.getD []) }

/-- `EVENT_NOMATCH` -/
def eventNomatch : CStr := [78, 79, 77, 65, 84, 67, 72]

/-! ## The state -/

/-- What can be seen from outside: a call that returns, a delivery that looks whether its token is
active, and a callback that starts. -/
inductive BusEvent where
  | offReturned (t : ℕ)
  | drainReturned (t : ℕ)
  | checked (l : MessageListener) (active : Bool)
  | invoked (l : MessageListener) (m : EventMessage)
  | started (l : Listener) (e : Emission)
  deriving DecidableEq, Repr

/-- A listener that was registered for a domain.  `marked` says that there is nothing left to do
to it; a binary listener is complete from the start. -/
structure DomainListener where
  registration : ℕ
  event : CStr
  binary : Bool
  cb : ℕ
  user : ℕ
  domain : EventDomain
  marked : Bool
  deriving DecidableEq, Repr

/-- The registry, and the `executing` of each token.  The latter is an `unsigned`; as many threads
as it would take to make it wrap there cannot be. -/
structure BusState where
  bus : EventBus
  executing : ℕ → ℕ
  trace : List BusEvent
  created : List DomainListener

/-- After `event_init`. -/
def busInit : BusState := ⟨eventInit, fun _ ↦ 0, [], []⟩

def BusState.observe (s : BusState) (ev : BusEvent) : BusState :=
  { s with trace := s.trace ++ [ev] }

/-- The thread of a call, by what it does next. -/
inductive BusThread where
  /-- A call that is one section. -/
  | call (c : EventCall)
  /-- `event_off_token`, before it looks at the token. -/
  | off (t : ℕ)
  /-- `event_off_token`, before it takes the lock. -/
  | offLocked (t : ℕ)
  /-- `event_emit` or `event_emit_binary`, before its snapshot. -/
  | emit (e : Emission)
  /-- `event_emit`, before its snapshot of the listeners of `EVENT_NOMATCH`. -/
  | emitNomatch (e : Emission)
  /-- The loop over what is left of the snapshot. -/
  | fire (e : Emission) (snapshot : List Listener)
  /-- `event_dispatch_run` or `event_dispatch_binary_run`, with a dispatcher. -/
  | queued (l : Listener) (e : Emission)
  /-- `event_on_domain_token` or `event_on_binary_domain_token`, before it looks for the domain. -/
  | onDomain (binary : Bool) (mem : StoreAlloc) (event : CStr) (cb user : ℕ) (domain : CStr)
  /-- The same, before it registers the listener. -/
  | onDomainInsert (binary : Bool) (mem : StoreAlloc) (event : CStr) (cb user : ℕ)
      (d : EventDomain)
  /-- `event_on_domain_token`, before it marks the listener. -/
  | onDomainMark (mem : StoreAlloc) (event : CStr) (cb user : ℕ) (d : EventDomain)
      (registration : ℕ)
  /-- `event_emit_message`, before it looks for listeners. -/
  | emitMessage (m : EventMessage)
  /-- The loop over its targets. -/
  | fireMessage (m : EventMessage) (targets : List MessageListener)
  /-- `deliver_message`, before it looks at the token. -/
  | deliver (l : MessageListener) (m : EventMessage)
  /-- `deliver_message`, before it calls the callback. -/
  | invoke (l : MessageListener) (m : EventMessage)
  /-- `deliver_message`, in the callback. -/
  | running (l : MessageListener)
  /-- `event_message_token_drain`, before it takes the lock or waiting. -/
  | drain (t : ℕ)

/-- The threads that a call starts as. -/
def BusThread.start : BusThread → Bool
  | .call c => c.oneSection
  | .off _ | .emit _ | .onDomain .. | .emitMessage _ | .drain _ => true
  | _ => false

/-! ## The sections -/

section Sections

variable (dictHash : CStr → UInt32)

/-- `event_snapshot_locked` and `event_binary_snapshot_locked`, on the entry of the event. -/
def eventSnapshot (s : EventBus) (binary : Bool) (event : CStr) : Option (List Listener) := do
  match ← eventLookup dictHash s event with
  | none => return []
  | some a =>
    let entry ← s.entries a
    return entry.get binary

/-- The last section of `event_on_domain_token`. -/
def markListener (mem : StoreAlloc) (s : EventBus) (event : CStr) (cb user : ℕ)
    (d : EventDomain) : Option EventBus := do
  let (entry, s) ← eventGetOrCreate dictHash mem s event
  match entry with
  | none => return s
  | some a =>
    let entry ← s.entries a
    return s.setEntry a (some { entry with listeners := markDomain d cb user entry.listeners })

/-- The three sections of `event_on_domain_token`, one after the other, are
`eventOnDomainToken`. -/
theorem eventOnDomainToken_eq (mem : StoreAlloc) (s : EventBus) (event : CStr) (cb user : ℕ)
    (domain : CStr) :
    eventOnDomainToken dictHash mem s (some event) cb user (some domain)
      = match findDomain s domain with
        | none => some (none, s)
        | some d => do
          let (token, s) ←
            eventOnTokenDispatch dictHash mem s (some event) cb user d.dispatch d.user
          if token = none then return (none, s)
          let s ← markListener dictHash mem s event cb user d
          return (token, s) := by
  rw [eventOnDomainToken]
  cases findDomain s domain with
  | none => rfl
  | some d =>
    simp only [markListener, Option.bind_eq_bind, Option.bind_assoc]
    congr 1
    funext r
    obtain ⟨token, s₁⟩ := r
    split
    · rfl
    · congr 1
      funext r
      obtain ⟨entry, s₂⟩ := r
      cases entry with
      | none => rfl
      | some a =>
        dsimp only
        cases s₂.entries a <;> rfl

/-- Nothing is left to do for the listener. -/
def markCreated (registration : ℕ) (cs : List DomainListener) : List DomainListener :=
  cs.map fun c ↦ if c.registration = registration then { c with marked := true } else c

/-- What a thread does next, and what it does after that.  `none` is a thread that waits, or that
never comes back from the dictionary. -/
def busRun (s : BusState) : BusThread → Option (BusState × List BusThread)
  | .call c => do
    let bus ← eventCall dictHash s.bus c
    return ({ s with bus := bus }, [])
  | .off t => do
    let token ← s.bus.eventTokens[t]?
    if token.active then return (s, [.offLocked t])
    else return (s.observe (.offReturned t), [])
  | .offLocked t => do
    let bus ← offTokenLocked dictHash s.bus t
    return ({ s with bus := bus }.observe (.offReturned t), [])
  | .emit e => do
    let snapshot ← eventSnapshot dictHash s.bus e.binary e.event
    if snapshot = [] ∧ e.binary = false then return (s, [.emitNomatch e])
    else return (s, [.fire e snapshot])
  | .emitNomatch e => do
    let snapshot ← eventSnapshot dictHash s.bus false eventNomatch
    return (s, [.fire e snapshot])
  | .fire _ [] => some (s, [])
  | .fire e (l :: ls) =>
    if l.cb = 0 then some (s, [.fire e ls])
    else if l.dispatch = 0 then some (s.observe (.started l e), [.fire e ls])
    else some (s, [.queued l (e.queued l), .fire e ls])
  | .queued l e => some (s.observe (.started l e), [])
  | .onDomain binary mem event cb user domain =>
    match findDomain s.bus domain with
    | none => some (s, [])
    | some d =>
      if d.dispatch = 0 then some (s, [])
      else some (s, [.onDomainInsert binary mem event cb user d])
  | .onDomainInsert binary mem event cb user d => do
    let (token, bus) ← onToken dictHash binary mem s.bus (some event) cb user d.dispatch d.user
    let registration := s.bus.nextRegistration
    if token = none then return ({ s with bus := bus }, [])
    let created := s.created ++ [⟨registration, event, binary, cb, user, d, binary⟩]
    return ({ s with bus := bus, created := created },
      if binary then [] else [.onDomainMark mem event cb user d registration])
  | .onDomainMark mem event cb user d registration => do
    let bus ← markListener dictHash mem s.bus event cb user d
    return ({ s with bus := bus, created := markCreated registration s.created }, [])
  | .emitMessage m =>
    let named (l : MessageListener) :=
      (s.bus.eventTokens[l.token]?).any fun token ↦ token.event == m.name
    some (s, [.fireMessage m (s.bus.messageListeners.filter named)])
  | .fireMessage _ [] => some (s, [])
  | .fireMessage m (l :: ls) => some (s, [.deliver l m.pending, .fireMessage m ls])
  | .deliver l m => do
    let token ← s.bus.eventTokens[l.token]?
    let s := s.observe (.checked l token.active)
    if token.active then
      let executing := Function.update s.executing l.token (s.executing l.token + 1)
      return ({ s with executing := executing }, [.invoke l m])
    else return (s, [])
  | .invoke l m => some (s.observe (.invoked l m), [.running l])
  | .running l =>
    some ({ s with
      executing := Function.update s.executing l.token (s.executing l.token - 1) }, [])
  | .drain t => do
    let token ← s.bus.eventTokens[t]?
    if token.message ∧ s.executing t ≠ 0 then none
    else return (s.observe (.drainReturned t), [])

/-- One step of the threads. -/
abbrev busStep (p : Pool BusState BusThread) (a : Action BusThread) :
    Option (Pool BusState BusThread) :=
  ThreadPool.step BusThread.start (busRun dictHash) p a

end Sections

/-- Nobody has called yet. -/
def idleBus : Pool BusState BusThread := ⟨busInit, []⟩

end Rustyaxe
