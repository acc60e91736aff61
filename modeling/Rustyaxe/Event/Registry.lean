import Rustyaxe.Dict.Merge

/-!
# The event registry

The registration half of `event-bus.c`.  `event_store` is a dictionary from event names to
pointers; the entries they point to are a heap, `entries`.  The calls of one thread come one at a
time, so here a call is one step; `Rustyaxe.Event.Threads` takes those that give `event_lock` back
in between apart.

Pointers to callbacks, dispatchers and user data are their addresses, `0` being `NULL`.  A token
is its position among the tokens issued so far; they are never freed.  As in the dictionary, `none`
is a call that never returns, and `mem` are the outcomes of the allocations that may fail; those
of `xcalloc` and `xrealloc` do not.

One field is not the source's: `registration` numbers the listeners in the order of their
registration.  The source has nothing of the sort, and no function here looks at it.
-/

set_option autoImplicit false

namespace Rustyaxe

/-- `event_listener_t`, and `event_binary_listener_t`, which has no `domain_delivery`. -/
structure Listener where
  cb : ℕ
  user : ℕ
  dispatch : ℕ
  dispatchUser : ℕ
  domainDelivery : Bool
  registration : ℕ
  deriving DecidableEq, Repr

/-- `event_entry_t` -/
structure EventEntry where
  listeners : List Listener
  binaryListeners : List Listener
  generation : UInt64
  deriving DecidableEq, Repr

/-- `struct rr_event_token`.  `cb` is its `cb` or its `binary_cb`. -/
structure EventToken where
  event : CStr
  binary : Bool
  cb : ℕ
  user : ℕ
  generation : UInt64
  active : Bool
  message : Bool
  registration : ℕ
  deriving DecidableEq, Repr

/-- `owned_message_listener_t` -/
structure MessageListener where
  token : ℕ
  domain : Option CStr
  cb : ℕ
  user : ℕ
  dispatch : ℕ
  dispatchUser : ℕ
  deriving DecidableEq, Repr

/-- `event_domain_t` -/
structure EventDomain where
  name : CStr
  dispatch : ℕ
  user : ℕ
  deriving DecidableEq, Repr

/-- The static variables of `event-bus.c`, and the heap of entries. -/
structure EventBus where
  eventStore : Option Dict
  entries : ℕ → Option EventEntry
  /-- The address the next entry is allocated at. -/
  nextEntry : ℕ
  /-- `event_tokens`, oldest first. -/
  eventTokens : List EventToken
  messageListeners : List MessageListener
  eventDomains : List EventDomain
  nextRegistration : ℕ

/-- The listeners of one kind. -/
def EventEntry.get (e : EventEntry) (binary : Bool) : List Listener :=
  if binary then e.binaryListeners else e.listeners

def EventEntry.set (e : EventEntry) (binary : Bool) (ls : List Listener) : EventEntry :=
  if binary then { e with binaryListeners := ls } else { e with listeners := ls }

/-- Append a listener, and count the generation up if `bump`. -/
def EventEntry.append (e : EventEntry) (binary bump : Bool) (l : Listener) : EventEntry :=
  let e := e.set binary (e.get binary ++ [l])
  if bump then { e with generation := e.generation + 1 } else e

/-- What `xcalloc` makes of an entry. -/
def EventEntry.zero : EventEntry := ⟨[], [], 0⟩

def EventBus.setEntry (s : EventBus) (a : ℕ) (e : Option EventEntry) : EventBus :=
  { s with entries := Function.update s.entries a e }

/-- `event_init`, from the state the program starts in. -/
def eventInit : EventBus where
  eventStore := some dictNew
  entries _ := none
  nextEntry := 1
  eventTokens := []
  messageListeners := []
  eventDomains := []
  nextRegistration := 0

section Hash

variable (dictHash : CStr → UInt32)

/-! ## The entries -/

/-- `event_lookup_locked` -/
def eventLookup (s : EventBus) (event : CStr) : Option (Option ℕ) :=
  match s.eventStore with
  | none => some none
  | some store => dictGetPtr dictHash store event none

/-- `event_get_or_create_locked` -/
def eventGetOrCreate (mem : StoreAlloc) (s : EventBus) (event : CStr) :
    Option (Option ℕ × EventBus) := do
  match ← eventLookup dictHash s event with
  | some entry => return (some entry, s)
  | none =>
    match s.eventStore with
    | none => return (none, s)
    | some store =>
      let entry := s.nextEntry
      let (rc, store) ← dictAddPtr dictHash mem store event entry
      if rc = false then return (none, s)
      return (some entry,
        { s.setEntry entry (some .zero) with
          eventStore := some store
          nextEntry := s.nextEntry + 1 })

/-- `event_remove_if_empty_locked` -/
def eventRemoveIfEmpty (s : EventBus) (event : CStr) (a : ℕ) : Option EventBus := do
  let entry ← s.entries a
  if entry.listeners ≠ [] ∨ entry.binaryListeners ≠ [] then return s
  match s.eventStore with
  | none => return s.setEntry a none
  | some store =>
    let (_, store) ← dictDel dictHash store event
    return { s.setEntry a none with eventStore := some store }

/-! ## Registering -/

/-- What the four registering functions share: append a listener to the entry of the event.  The
result is the generation of the entry afterwards, if there is a listener. -/
def addListener (binary bump : Bool) (mem : StoreAlloc) (s : EventBus) (event : Option CStr)
    (cb user dispatch dispatchUser : ℕ) : Option (Option UInt64 × EventBus) :=
  match event, s.eventStore with
  | some event, some _ =>
    if cb = 0 then some (none, s)
    else do
      let (entry, s) ← eventGetOrCreate dictHash mem s event
      match entry with
      | none => return (none, s)
      | some a =>
        let entry ← s.entries a
        let listener := ⟨cb, user, dispatch, dispatchUser, false, s.nextRegistration⟩
        let entry := entry.append binary bump listener
        return (some entry.generation,
          { s.setEntry a (some entry) with nextRegistration := s.nextRegistration + 1 })
  | _, _ => some (none, s)

/-- `event_on_dispatch`, and with no dispatcher `event_on`. -/
def eventOnDispatch (mem : StoreAlloc) (s : EventBus) (event : Option CStr)
    (cb user dispatch dispatchUser : ℕ) : Option EventBus :=
  (addListener dictHash false true mem s event cb user dispatch dispatchUser).map Prod.snd

/-- `event_on_binary_dispatch`, and with no dispatcher `event_on_binary`.  Unlike the other three
it leaves the generation alone. -/
def eventOnBinaryDispatch (mem : StoreAlloc) (s : EventBus) (event : Option CStr)
    (cb user dispatch dispatchUser : ℕ) : Option EventBus :=
  (addListener dictHash true false mem s event cb user dispatch dispatchUser).map Prod.snd

/-- What the two token functions share: register a listener and issue a token for it. -/
def onToken (binary : Bool) (mem : StoreAlloc) (s : EventBus) (event : Option CStr)
    (cb user dispatch dispatchUser : ℕ) : Option (Option ℕ × EventBus) := do
  let (generation, s') ←
    addListener dictHash binary true mem s event cb user dispatch dispatchUser
  match event, generation with
  | some event, some generation =>
    let token := ⟨event, binary, cb, user, generation, true, false, s.nextRegistration⟩
    return (some s'.eventTokens.length, { s' with eventTokens := s'.eventTokens ++ [token] })
  | _, _ => return (none, s')

/-- `event_on_token_dispatch`, and with no dispatcher `event_on_token`. -/
def eventOnTokenDispatch (mem : StoreAlloc) (s : EventBus) (event : Option CStr)
    (cb user dispatch dispatchUser : ℕ) : Option (Option ℕ × EventBus) :=
  onToken dictHash false mem s event cb user dispatch dispatchUser

/-- `event_on_binary_token_dispatch`, and with no dispatcher `event_on_binary_token`. -/
def eventOnBinaryTokenDispatch (mem : StoreAlloc) (s : EventBus) (event : Option CStr)
    (cb user dispatch dispatchUser : ℕ) : Option (Option ℕ × EventBus) :=
  onToken dictHash true mem s event cb user dispatch dispatchUser

/-! ## Domains -/

/-- The loops that look a domain up by its name. -/
def findDomain (s : EventBus) (name : CStr) : Option EventDomain :=
  s.eventDomains.find? (·.name == name)

/-- `event_domain_register` -/
def eventDomainRegister (s : EventBus) (name : Option CStr) (dispatch user : ℕ) : Bool × EventBus :=
  match name with
  | none => (false, s)
  | some name =>
    if name = [] ∨ dispatch = 0 ∨ s.eventStore = none ∨ (findDomain s name).isSome then (false, s)
    else (true, { s with eventDomains := ⟨name, dispatch, user⟩ :: s.eventDomains })

/-- The listener is delivered through the dispatcher of the domain. -/
def Listener.usesDomain (d : EventDomain) (l : Listener) : Bool :=
  l.dispatch == d.dispatch && l.dispatchUser == d.user

/-- The scan of `event_domain_unregister` over the store: is a listener using the domain? -/
def domainInUse (s : EventBus) (d : EventDomain) : Bool :=
  match s.eventStore with
  | none => false
  | some store => (dictEnumerateAll store).any fun kp ↦
    match kp.value with
    | .ptr a =>
      match s.entries a with
      | some e => e.listeners.any (·.usesDomain d) || e.binaryListeners.any (·.usesDomain d)
      | none => false
    | _ => false

/-- `event_domain_unregister` -/
def eventDomainUnregister (s : EventBus) (name : Option CStr) : Bool × EventBus :=
  match name with
  | none => (false, s)
  | some name =>
    match findDomain s name with
    | none => (false, s)
    | some d =>
      if s.messageListeners.any (fun l ↦ l.domain == some d.name) || domainInUse s d then (false, s)
      else (true, { s with eventDomains := s.eventDomains.eraseP (·.name == name) })

/-- The loop of `event_on_domain_token` that marks the listener it has registered, and every other
that looks the same. -/
def markDomain (d : EventDomain) (cb user : ℕ) (ls : List Listener) : List Listener :=
  ls.map fun l ↦
    if l.cb = cb ∧ l.user = user ∧ l.usesDomain d then { l with domainDelivery := true } else l

/-- `event_on_domain_token` -/
def eventOnDomainToken (mem : StoreAlloc) (s : EventBus) (event : Option CStr) (cb user : ℕ)
    (domain : Option CStr) : Option (Option ℕ × EventBus) :=
  match event, domain with
  | some event, some domain =>
    match findDomain s domain with
    | none => some (none, s)
    | some d => do
      let (token, s) ← eventOnTokenDispatch dictHash mem s (some event) cb user d.dispatch d.user
      if token = none then return (none, s)
      let (entry, s) ← eventGetOrCreate dictHash mem s event
      match entry with
      | none => return (token, s)
      | some a =>
        let entry ← s.entries a
        return (token,
          s.setEntry a (some { entry with listeners := markDomain d cb user entry.listeners }))
  | _, _ => some (none, s)

/-- `event_on_binary_domain_token` -/
def eventOnBinaryDomainToken (mem : StoreAlloc) (s : EventBus) (event : Option CStr)
    (cb user : ℕ) (domain : Option CStr) : Option (Option ℕ × EventBus) :=
  match domain with
  | none => some (none, s)
  | some domain =>
    match findDomain s domain with
    | none => some (none, s)
    | some d => eventOnBinaryTokenDispatch dictHash mem s event cb user d.dispatch d.user

end Hash

/-! ## Messages -/

/-- What the two message functions share: issue a token and put its listener on the list. -/
def addMessageListener (s : EventBus) (name : CStr) (domain : Option CStr)
    (cb user dispatch dispatchUser : ℕ) : Option ℕ × EventBus :=
  let token := ⟨name, false, 0, user, 0, true, true, s.nextRegistration⟩
  let listener := ⟨s.eventTokens.length, domain, cb, user, dispatch, dispatchUser⟩
  (some s.eventTokens.length,
    { s with
      eventTokens := s.eventTokens ++ [token]
      messageListeners := listener :: s.messageListeners
      nextRegistration := s.nextRegistration + 1 })

/-- `event_on_message_token` -/
def eventOnMessageToken (s : EventBus) (name : Option CStr) (cb user dispatch dispatchUser : ℕ) :
    Option ℕ × EventBus :=
  match name with
  | none => (none, s)
  | some name =>
    if cb = 0 ∨ s.eventStore = none then (none, s)
    else addMessageListener s name none cb user dispatch dispatchUser

/-- `event_on_message_domain_token` -/
def eventOnMessageDomainToken (s : EventBus) (name : Option CStr) (cb user : ℕ)
    (domain : Option CStr) : Option ℕ × EventBus :=
  match name, domain with
  | some name, some domain =>
    match findDomain s domain with
    | none => (none, s)
    | some d =>
      if cb = 0 ∨ s.eventStore = none then (none, s)
      else addMessageListener s name (some domain) cb user d.dispatch d.user
  | _, _ => (none, s)

/-! ## Unregistering -/

section Hash

variable (dictHash : CStr → UInt32)

/-- What `event_off` and `event_off_binary` share: remove every listener that matches, where a
`NULL` callback or user pointer matches any. -/
def offListeners (binary : Bool) (s : EventBus) (event : Option CStr) (cb user : ℕ) :
    Option EventBus :=
  match event with
  | none => some s
  | some event => do
    match ← eventLookup dictHash s event with
    | none => return s
    | some a =>
      let entry ← s.entries a
      let kept := (entry.get binary).filter fun l ↦
        !((cb == 0 || l.cb == cb) && (user == 0 || l.user == user))
      eventRemoveIfEmpty dictHash (s.setEntry a (some (entry.set binary kept))) event a

/-- `event_off` -/
def eventOff (s : EventBus) (event : Option CStr) (cb user : ℕ) : Option EventBus :=
  offListeners dictHash false s event cb user

/-- `event_off_binary` -/
def eventOffBinary (s : EventBus) (event : Option CStr) (cb user : ℕ) : Option EventBus :=
  offListeners dictHash true s event cb user

/-- The test of `event_off_token`: the first listener that passes it is the one it removes. -/
def EventToken.looksLike (token : EventToken) (l : Listener) : Bool :=
  l.cb == token.cb && l.user == token.user

/-- The loops of `event_off_token` over the listeners of an entry. -/
def offFirst (token : EventToken) (entry : EventEntry) : EventEntry :=
  let ls := entry.get token.binary
  let generation :=
    if ls.any token.looksLike then entry.generation + 1 else entry.generation
  { entry.set token.binary (ls.eraseP token.looksLike) with generation := generation }

/-- `token->active = false` -/
def deactivate (s : EventBus) (t : ℕ) : EventBus :=
  { s with eventTokens := s.eventTokens.modify t fun token ↦ { token with active := false } }

/-- `event_off_token`; `none` is a `NULL` token. -/
def eventOffToken (s : EventBus) (t : Option ℕ) : Option EventBus :=
  match t with
  | none => some s
  | some t => do
    let token ← s.eventTokens[t]?
    if token.active = false then return s
    if token.message then
      let s := { s with messageListeners := s.messageListeners.eraseP (·.token == t) }
      return deactivate s t
    match ← eventLookup dictHash s token.event with
    | none => return deactivate s t
    | some a =>
      let entry ← s.entries a
      let s ← eventRemoveIfEmpty dictHash (s.setEntry a (some (offFirst token entry))) token.event a
      return deactivate s t

/-- What `event_off_token` does once it has the lock; it does not look at the token again. -/
def offTokenLocked (s : EventBus) (t : ℕ) : Option EventBus := do
  let token ← s.eventTokens[t]?
  if token.message then
    let s := { s with messageListeners := s.messageListeners.eraseP (·.token == t) }
    return deactivate s t
  match ← eventLookup dictHash s token.event with
  | none => return deactivate s t
  | some a =>
    let entry ← s.entries a
    let s ← eventRemoveIfEmpty dictHash (s.setEntry a (some (offFirst token entry))) token.event a
    return deactivate s t

/-! ## Calls -/

/-- A call to the registry, with the outcomes of the allocations it makes.  A call without
`_dispatch` in its name is the one with no dispatcher. -/
inductive EventCall where
  | on (mem : StoreAlloc) (event : Option CStr) (cb user dispatch dispatchUser : ℕ)
  | onBinary (mem : StoreAlloc) (event : Option CStr) (cb user dispatch dispatchUser : ℕ)
  | onToken (mem : StoreAlloc) (event : Option CStr) (cb user dispatch dispatchUser : ℕ)
  | onBinaryToken (mem : StoreAlloc) (event : Option CStr) (cb user dispatch dispatchUser : ℕ)
  | onDomainToken (mem : StoreAlloc) (event : Option CStr) (cb user : ℕ) (domain : Option CStr)
  | onBinaryDomainToken (mem : StoreAlloc) (event : Option CStr) (cb user : ℕ)
      (domain : Option CStr)
  | onMessageToken (name : Option CStr) (cb user dispatch dispatchUser : ℕ)
  | onMessageDomainToken (name : Option CStr) (cb user : ℕ) (domain : Option CStr)
  | off (event : Option CStr) (cb user : ℕ)
  | offBinary (event : Option CStr) (cb user : ℕ)
  | offToken (t : Option ℕ)
  | domainRegister (name : Option CStr) (dispatch user : ℕ)
  | domainUnregister (name : Option CStr)

/-- The calls that hold the lock once, from end to end.  The other three are `event_on_domain_token`
and its binary variant, which give it back in between, and `event_off_token`, which looks at the
token before it takes it. -/
def EventCall.oneSection : EventCall → Bool
  | .onDomainToken .. => false
  | .onBinaryDomainToken .. => false
  | .offToken _ => false
  | _ => true

/-- The registry after a call. -/
def eventCall (s : EventBus) : EventCall → Option EventBus
  | .on mem event cb user dispatch dispatchUser =>
    eventOnDispatch dictHash mem s event cb user dispatch dispatchUser
  | .onBinary mem event cb user dispatch dispatchUser =>
    eventOnBinaryDispatch dictHash mem s event cb user dispatch dispatchUser
  | .onToken mem event cb user dispatch dispatchUser =>
    (eventOnTokenDispatch dictHash mem s event cb user dispatch dispatchUser).map Prod.snd
  | .onBinaryToken mem event cb user dispatch dispatchUser =>
    (eventOnBinaryTokenDispatch dictHash mem s event cb user dispatch dispatchUser).map Prod.snd
  | .onDomainToken mem event cb user domain =>
    (eventOnDomainToken dictHash mem s event cb user domain).map Prod.snd
  | .onBinaryDomainToken mem event cb user domain =>
    (eventOnBinaryDomainToken dictHash mem s event cb user domain).map Prod.snd
  | .onMessageToken name cb user dispatch dispatchUser =>
    some (eventOnMessageToken s name cb user dispatch dispatchUser).2
  | .onMessageDomainToken name cb user domain =>
    some (eventOnMessageDomainToken s name cb user domain).2
  | .off event cb user => eventOff dictHash s event cb user
  | .offBinary event cb user => eventOffBinary dictHash s event cb user
  | .offToken t => eventOffToken dictHash s t
  | .domainRegister name dispatch user => some (eventDomainRegister s name dispatch user).2
  | .domainUnregister name => some (eventDomainUnregister s name).2

end Hash

end Rustyaxe
