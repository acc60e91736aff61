import Rustyaxe.Event.Threads

/-!
# What holds of the event bus between sections

`BusStep` is what a section can do to the registry, and `Listener.Survives` what it leaves of a
listener. `BusInv` and `ThreadInv` are what is true at any time, of the state and of each thread,
whatever the threads do and in whatever order: that listeners, tokens and domain listeners are told
apart by their numbers, and that what a thread carries is a copy of what was registered. 
`busInv_step` is that every step keeps them.
-/

set_option autoImplicit false

namespace Rustyaxe

open Runs ThreadPool

variable {dictHash : CStr → UInt32}

/-! ## The sections -/

/-- The token was issued for a message listener. -/
def IsMessage (s : EventBus) (t : ℕ) : Prop :=
  ∃ token, s.eventTokens[t]? = some token ∧ token.message = true

/-- The token was issued, and has been unregistered. -/
def EventBus.Inactive (s : EventBus) (t : ℕ) : Prop :=
  ∃ token, s.eventTokens[t]? = some token ∧ token.active = false

/-- `l'` is what has become of `l`: it may have been marked for its domain since. -/
structure Listener.Survives (l l' : Listener) : Prop where
  cb : l'.cb = l.cb
  user : l'.user = l.user
  dispatch : l'.dispatch = l.dispatch
  dispatchUser : l'.dispatchUser = l.dispatchUser
  registration : l'.registration = l.registration
  marked : l.domainDelivery = true → l'.domainDelivery = true

theorem Listener.Survives.refl (l : Listener) : l.Survives l := ⟨rfl, rfl, rfl, rfl, rfl, id⟩

/-- `token'` is what has become of `token`: it may have been deactivated since. -/
def EventToken.Survives (token token' : EventToken) : Prop :=
  token' = { token with active := token'.active } ∧ (token.active = false → token'.active = false)

theorem EventToken.Survives.refl (token : EventToken) : token.Survives token := ⟨rfl, id⟩

/-- What any section leaves of the registry: what was there before, and what is new has a number
of its own. -/
structure BusStep (s s' : EventBus) : Prop where
  regs : ∀ ev b, ∀ l' ∈ s'.regs ev b, (∃ l ∈ s.regs ev b, l.Survives l') ∨
    l'.registration = s.nextRegistration ∧ s.nextRegistration < s'.nextRegistration
  tokens : ∀ (t : ℕ) (token : EventToken), s.eventTokens[t]? = some token →
    ∃ token', s'.eventTokens[t]? = some token' ∧ token.Survives token'
  issued : ∀ (t : ℕ) (token : EventToken), s'.eventTokens[t]? = some token →
    s.eventTokens[t]? = none → token.active = true ∧
      token.registration = s.nextRegistration ∧ s.nextRegistration < s'.nextRegistration ∧
      (token.message = false → ∀ ev b, ∀ l ∈ s'.regs ev b, l.registration = token.registration →
        ev = token.event ∧ b = token.binary)
  messages : ∀ l ∈ s'.messageListeners, l ∈ s.messageListeners ∨
    ∃ token, s'.eventTokens[l.token]? = some token ∧ token.message = true
  next : s.nextRegistration ≤ s'.nextRegistration

theorem BusStep.of_same {s s' : EventBus} (hregs : s'.regs = s.regs) (hframe : Frame s s') :
    BusStep s s' := by
  refine ⟨fun ev b l hl ↦ .inl ⟨l, hregs ▸ hl, .refl l⟩, fun t token ht ↦ ?_,
    fun t token ht hnone ↦ ?_, fun l hl ↦ .inl (hframe.messages ▸ hl),
    Nat.le_of_eq hframe.registration.symm⟩
  · exact ⟨token, hframe.tokens ▸ ht, .refl token⟩
  · rw [hframe.tokens, hnone] at ht
    cases ht

/-- Issuing a token leaves the others alone. -/
theorem token_of_concat {L : List EventToken} {new : EventToken} {t : ℕ} {token : EventToken}
    (ht : L[t]? = some token) : (L ++ [new])[t]? = some token :=
  (List.getElem?_append_left (List.getElem?_eq_some_iff.mp ht).1).trans ht

theorem token_new_of_concat {L : List EventToken} {new : EventToken} {t : ℕ} {token : EventToken}
    (ht : (L ++ [new])[t]? = some token) (hnone : L[t]? = none) : token = new := by
  rcases getElem?_concat_cases ht with ht | rfl
  · rw [hnone] at ht
    cases ht
  · rfl

section Fresh

variable {s s' : EventBus} (hfresh : ∀ ev b, ∀ l ∈ s.regs ev b, l.registration < s.nextRegistration)
include hfresh

theorem RegsStep.busStep (h : RegsStep s s') : BusStep s s' := by
  cases h with
  | dropped hregs hframe hdomains =>
    refine ⟨fun ev b l hl ↦ .inl ⟨l, (hregs ev b).mem hl, .refl l⟩, fun t token ht ↦ ?_,
      fun t token ht hnone ↦ ?_, fun l hl ↦ .inl (hframe.messages ▸ hl),
      Nat.le_of_eq hframe.registration.symm⟩
    · exact ⟨token, hframe.tokens ▸ ht, .refl token⟩
    · rw [hframe.tokens, hnone] at ht
      cases ht
  | registered ev binary new hnew hregs htokens hmessages hnext hdomains =>
    have hlt : s.nextRegistration < s'.nextRegistration := hnext ▸ Nat.lt_succ_self _
    have hmem : ∀ {ev' b l}, l ∈ s'.regs ev' b →
        l ∈ s.regs ev' b ∨ (ev' = ev ∧ b = binary ∧ l = new) := by
      intro ev' b l hl
      rw [hregs] at hl
      split at hl
      · rename_i heq
        obtain ⟨rfl, rfl⟩ := heq
        rcases List.mem_append.mp hl with hl | hl
        · exact .inl hl
        · exact .inr ⟨rfl, rfl, List.mem_singleton.mp hl⟩
      · exact .inl hl
    refine ⟨fun ev' b l hl ↦ ?_, fun t token ht ↦ ?_, fun t token ht hnone ↦ ?_,
      fun l hl ↦ .inl (hmessages ▸ hl), Nat.le_of_lt hlt⟩
    · rcases hmem hl with hl | ⟨-, -, rfl⟩
      · exact .inl ⟨l, hl, .refl l⟩
      · exact .inr ⟨hnew, hlt⟩
    · rcases htokens with htokens | ⟨g, htokens⟩
      · exact ⟨token, htokens ▸ ht, .refl token⟩
      · exact ⟨token, htokens ▸ token_of_concat ht, .refl token⟩
    · rcases htokens with htokens | ⟨g, htokens⟩
      · rw [htokens, hnone] at ht
        cases ht
      · rw [htokens] at ht
        obtain rfl := token_new_of_concat ht hnone
        refine ⟨rfl, hnew, hlt, fun _ ev' b l hl hreg ↦ ?_⟩
        rcases hmem hl with hl | ⟨rfl, rfl, -⟩
        · exact absurd (hreg.trans hnew) (Nat.ne_of_lt (hfresh ev' b l hl))
        · exact ⟨rfl, rfl⟩
  | message new listener hregs hnew htokens hlistener hdomain hmessages hnext hdomains =>
    have hlt : s.nextRegistration < s'.nextRegistration := hnext ▸ Nat.lt_succ_self _
    refine ⟨fun ev b l hl ↦ .inl ⟨l, hregs ▸ hl, .refl l⟩, fun t token ht ↦ ?_,
      fun t token ht hnone ↦ ?_, fun l hl ↦ ?_, Nat.le_of_lt hlt⟩
    · exact ⟨token, htokens ▸ token_of_concat ht, .refl token⟩
    · rw [htokens] at ht
      obtain rfl := token_new_of_concat ht hnone
      exact ⟨hnew.2.1, hnew.2.2, hlt, fun hmsg ↦ absurd (hmsg.symm.trans hnew.1) (by decide)⟩
    · rw [hmessages] at hl
      rcases List.mem_cons.mp hl with rfl | hl
      · exact .inr ⟨new, by rw [htokens, hlistener, List.getElem?_concat_length], hnew.1⟩
      · exact .inl hl
  | domainRegistered d hregs hframe => exact .of_same hregs hframe
  | domainUnregistered d hregs hframe => exact .of_same hregs hframe

end Fresh

theorem getElem?_modify_deactivate {s : EventBus} {t t' : ℕ} :
    (deactivate s t).eventTokens[t']? = (s.eventTokens[t']?).map fun token ↦
      if t = t' then { token with active := false } else token := by
  rw [deactivate, List.getElem?_modify]
  split
  · rfl
  · simp

/-- **`event_off_token`**, once it has the lock: the token is inactive, and all that is gone is
listeners. -/
theorem offTokenLocked_step {s s' : EventBus} (hs : StoreOk dictHash s) {t : ℕ}
    (h : offTokenLocked dictHash s t = some s') :
    (∃ token, s.eventTokens[t]? = some token) ∧ ∃ s₁, s' = deactivate s₁ t ∧
      StoreOk dictHash s₁ ∧ s₁.eventTokens = s.eventTokens ∧
      s₁.nextRegistration = s.nextRegistration ∧
      s₁.messageListeners.Sublist s.messageListeners ∧
      ∀ ev b, (s₁.regs ev b).Sublist (s.regs ev b) := by
  cases ht : s.eventTokens[t]? with
  | none => simp [offTokenLocked, ht] at h
  | some token =>
    refine ⟨⟨token, rfl⟩, ?_⟩
    cases hmsg : token.message with
    | true =>
      obtain rfl : deactivate { s with messageListeners := _ } t = s' := by
        simpa [offTokenLocked, ht, hmsg] using h
      exact ⟨_, rfl, hs.congr rfl rfl rfl, rfl, rfl, List.eraseP_sublist,
        fun ev b ↦ List.Sublist.refl _⟩
    | false =>
      rcases offTokenLocked_spec hs ht hmsg with ⟨-, hnone⟩ | ⟨-, s₁, hs₁, hok, hframe, hregs⟩
      · rw [hnone] at h
        cases h
      · refine ⟨s₁, Option.some_inj.mp (h.symm.trans hs₁), hok, hframe.tokens, hframe.registration,
          hframe.messages ▸ List.Sublist.refl _, fun ev b ↦ ?_⟩
        rw [hregs]
        split
        · rename_i heq
          rw [heq.1, heq.2]
          exact List.eraseP_sublist
        · exact List.Sublist.refl _

theorem offTokenLocked_domains {s s' : EventBus} {t : ℕ}
    (h : offTokenLocked dictHash s t = some s') : s'.eventDomains = s.eventDomains := by
  rw [offTokenLocked, Option.bind_eq_bind, Option.bind_eq_some_iff] at h
  obtain ⟨token, -, h⟩ := h
  split at h
  · obtain rfl := Option.some_inj.mp h
    rfl
  · rw [Option.bind_eq_bind, Option.bind_eq_some_iff] at h
    obtain ⟨r, -, h⟩ := h
    cases r with
    | none =>
      obtain rfl := Option.some_inj.mp h
      rfl
    | some a =>
      simp only [Option.bind_eq_bind, Option.bind_eq_some_iff] at h
      obtain ⟨entry, -, s₁, hrem, h⟩ := h
      obtain rfl := Option.some_inj.mp h
      exact (eventRemoveIfEmpty_domains hrem).trans rfl

theorem offTokenLocked_inactive {s s' : EventBus} {t : ℕ}
    (hs : StoreOk dictHash s) (h : offTokenLocked dictHash s t = some s') : s'.Inactive t := by
  obtain ⟨⟨token, ht⟩, s₁, rfl, -, htokens, -⟩ := offTokenLocked_step hs h
  exact ⟨{ token with active := false }, by
    rw [getElem?_modify_deactivate, htokens, ht, Option.map_some, if_pos rfl], rfl⟩

theorem offTokenLocked_busStep {s s' : EventBus} (hs : StoreOk dictHash s) {t : ℕ}
    (h : offTokenLocked dictHash s t = some s') : StoreOk dictHash s' ∧ BusStep s s' := by
  obtain ⟨-, s₁, rfl, hok, htokens, hnext, hmessages, hregs⟩ := offTokenLocked_step hs h
  refine ⟨hok.congr rfl rfl rfl, fun ev b l hl ↦ .inl ⟨l, (hregs ev b).mem hl, .refl l⟩,
    fun t' token ht ↦ ?_, fun t' token ht hnone ↦ ?_, fun l hl ↦ .inl (hmessages.mem hl),
    Nat.le_of_eq hnext.symm⟩
  · rw [getElem?_modify_deactivate, htokens, ht, Option.map_some]
    refine ⟨_, rfl, ?_⟩
    split
    · exact ⟨rfl, fun _ ↦ rfl⟩
    · exact .refl token
  · rw [getElem?_modify_deactivate, htokens, hnone] at ht
    cases ht

theorem addrOf_of_not_created {s s' : EventBus} (hs : StoreOk dictHash s) {mem : StoreAlloc}
    {event : CStr} (h : eventGetOrCreate dictHash mem s event = some (none, s')) :
    s.addrOf event = none := by
  rw [eventGetOrCreate, Option.bind_eq_bind, Option.bind_eq_some_iff] at h
  obtain ⟨entry, hentry, h⟩ := h
  cases entry with
  | some a => simp at h
  | none => exact (eventLookup_eq hs hentry).symm

/-- **The last section of `event_on_domain_token`** marks the listeners of the event that look
like the one it has registered. -/
theorem markListener_spec {s s' : EventBus} (hs : StoreOk dictHash s) {mem : StoreAlloc}
    {event : CStr} {cb user : ℕ} {d : EventDomain}
    (h : markListener dictHash mem s event cb user d = some s') :
    StoreOk dictHash s' ∧ Frame s s' ∧ s'.eventDomains = s.eventDomains ∧
      ∀ ev b, s'.regs ev b = if ev = event ∧ b = false
        then markDomain d cb user (s.regs event false) else s.regs ev b := by
  rw [markListener, Option.bind_eq_bind, Option.bind_eq_some_iff] at h
  obtain ⟨⟨r, s₁⟩, hget, h⟩ := h
  obtain ⟨hs₁, hregs, hframe, haddr⟩ := eventGetOrCreate_spec hs hget
  have hdomains := eventGetOrCreate_domains hget
  cases r with
  | none =>
    obtain rfl : s₁ = s' := Option.some_inj.mp h
    refine ⟨hs₁, hframe, hdomains, fun ev b ↦ ?_⟩
    split
    · rename_i heq
      have hnil : s.regs event false = [] := by
        rw [EventBus.regs, addrOf_of_not_created hs hget]
        rfl
      rw [heq.1, heq.2, hregs, hnil]
      rfl
    · rw [hregs]
  | some a =>
    have ha := haddr a rfl
    obtain ⟨entry, hentry⟩ := hs₁.alloc event a ha
    simp only [hentry, Option.bind_eq_bind, Option.bind_some, Option.pure_def,
      Option.some.injEq] at h
    subst h
    refine ⟨hs₁.setEntry _, ⟨hframe.tokens, hframe.messages, hframe.registration⟩, hdomains,
      fun ev b ↦ ?_⟩
    rw [hs₁.regs_setEntry ha, ← hregs, EventBus.regs_of_addrOf ha hentry]
    by_cases hev : ev = event
    · subst hev
      rw [if_pos rfl]
      cases b
      · exact (if_pos ⟨rfl, rfl⟩).symm
      · rw [EventBus.regs_of_addrOf ha hentry]
        exact (if_neg (fun h ↦ by cases h.2)).symm
    · rw [if_neg hev, if_neg (fun h ↦ hev h.1)]

theorem markListener_busStep {s s' : EventBus} (hs : StoreOk dictHash s) {mem : StoreAlloc}
    {event : CStr} {cb user : ℕ} {d : EventDomain}
    (h : markListener dictHash mem s event cb user d = some s') :
    StoreOk dictHash s' ∧ BusStep s s' := by
  obtain ⟨hs', hframe, -, hregs⟩ := markListener_spec hs h
  refine ⟨hs', fun ev b l hl ↦ .inl ?_, fun t token ht ↦ ⟨token, hframe.tokens ▸ ht, .refl token⟩,
    fun t token ht hnone ↦ ?_, fun l hl ↦ .inl (hframe.messages ▸ hl),
    Nat.le_of_eq hframe.registration.symm⟩
  · rw [hregs] at hl
    split at hl
    · rename_i heq
      obtain ⟨rfl, rfl⟩ := heq
      obtain ⟨l, hmem, rfl⟩ := List.mem_map.mp hl
      refine ⟨l, hmem, ?_⟩
      split
      · exact ⟨rfl, rfl, rfl, rfl, rfl, fun _ ↦ rfl⟩
      · exact .refl l
    · exact ⟨l, hl, .refl l⟩
  · rw [hframe.tokens, hnone] at ht
    cases ht

/-! ## What holds at any time -/

/-- A listener of the event that is the one registered for a domain. -/
structure DomainListener.Is (c : DomainListener) (ev : CStr) (b : Bool) (l : Listener) : Prop where
  event : ev = c.event
  binary : b = c.binary
  cb : l.cb = c.cb
  user : l.user = c.user
  domain : l.usesDomain c.domain = true

/-- What any section leaves of the domains: one that is not there any more has no listener. -/
structure DomainStep (s s' : EventBus) : Prop where
  dispatch : ∀ d ∈ s'.eventDomains, d ∈ s.eventDomains ∨ d.dispatch ≠ 0
  kept : ∀ name d, findDomain s name = some d → findDomain s' name = some d ∨
    (∀ ev b, ∀ l ∈ s'.regs ev b, l.usesDomain d = false) ∧
      ∀ l ∈ s'.messageListeners, l.domain ≠ some name
  messages : ∀ l ∈ s'.messageListeners, l ∈ s.messageListeners ∨
    ∀ name, l.domain = some name → findDomain s' name = some ⟨name, l.dispatch, l.dispatchUser⟩

/-- What one step of thread `u` does to the state. -/
structure StateStep (dictHash : CStr → UInt32) (u : BusThread) (s s' : BusState) : Prop where
  store : StoreOk dictHash s'.bus
  bus : BusStep s.bus s'.bus
  domains : DomainStep s.bus s'.bus
  created : ∀ c' ∈ s'.created, (∃ c ∈ s.created, c' = { c with marked := c'.marked }) ∨
    c'.registration = s.bus.nextRegistration ∧ s.bus.nextRegistration < s'.bus.nextRegistration ∧
      c'.domain.dispatch ≠ 0 ∧
      (∀ ev b, ∀ l ∈ s'.bus.regs ev b, l.registration = c'.registration → c'.Is ev b l) ∧
      ∃ binary mem event cb user, u = .onDomainInsert binary mem event cb user c'.domain
  marked : ∀ c' ∈ s'.created, c'.binary = false → c'.marked = true → c' ∈ s.created ∨
    ∀ ev b, ∀ l ∈ s'.bus.regs ev b, l.registration = c'.registration → l.domainDelivery = true
  off : ∀ t, .offReturned t ∈ s'.trace → .offReturned t ∈ s.trace ∨ s'.bus.Inactive t
  started : ∀ l e, .started l e ∈ s'.trace →
    .started l e ∈ s.trace ∨ l.registration < s.bus.nextRegistration

/-- What is true of the state at any time. -/
structure BusInv (dictHash : CStr → UInt32) (s : BusState) : Prop where
  store : StoreOk dictHash s.bus
  domains : ∀ d ∈ s.bus.eventDomains, d.dispatch ≠ 0
  fresh : ∀ ev b, ∀ l ∈ s.bus.regs ev b, l.registration < s.bus.nextRegistration
  issued : ∀ (t : ℕ) (token : EventToken), s.bus.eventTokens[t]? = some token →
    token.registration < s.bus.nextRegistration ∧ (token.message = false →
      ∀ ev b, ∀ l ∈ s.bus.regs ev b, l.registration = token.registration →
        ev = token.event ∧ b = token.binary)
  messages : ∀ l ∈ s.bus.messageListeners, IsMessage s.bus l.token
  created : ∀ c ∈ s.created, c.registration < s.bus.nextRegistration ∧ c.domain.dispatch ≠ 0 ∧
    ∀ ev b, ∀ l ∈ s.bus.regs ev b, l.registration = c.registration → c.Is ev b l
  off : ∀ t, .offReturned t ∈ s.trace → s.bus.Inactive t
  started : ∀ l e, .started l e ∈ s.trace → l.registration < s.bus.nextRegistration

/-- What is true of a listener that an emission carries. -/
structure Carried (s : BusState) (e : Emission) (l : Listener) : Prop where
  fresh : l.registration < s.bus.nextRegistration
  created : ∀ c ∈ s.created, l.registration = c.registration →
    e.binary = c.binary ∧ l.dispatch ≠ 0

/-- What a thread may rely on. -/
def ThreadInv (s : BusState) : BusThread → Prop
  | .call c => c.oneSection = true
  | .emitNomatch e => e.binary = false
  | .fire e ls => ∀ l ∈ ls, Carried s e l
  | .queued l e => Carried s e l
  | .onDomainInsert _ _ _ _ _ d => d.dispatch ≠ 0
  | .onDomainMark _ event cb user d r => r < s.bus.nextRegistration ∧ ∀ c ∈ s.created,
      c.registration = r →
        c.event = event ∧ c.binary = false ∧ c.cb = cb ∧ c.user = user ∧ c.domain = d
  | .fireMessage _ ls => ∀ l ∈ ls, IsMessage s.bus l.token
  | .deliver l _ | .invoke l _ | .running l => IsMessage s.bus l.token
  | _ => True

/-- The threads that neither carry a listener nor are about to call a message listener, or in the
middle of it. -/
def BusThread.plain : BusThread → Bool
  | .fire _ (_ :: _) | .queued _ _ | .invoke _ _ | .running _ => false
  | _ => true

/-- What a step of a thread is, whatever it does to the registry. -/
inductive Effect (dictHash : CStr → UInt32) (s : BusState) :
    BusThread → BusState → List BusThread → Prop
  | silent {u : BusThread} (bus : EventBus) (created : List DomainListener)
      {ts : List BusThread} (hu : u.plain = true) (hts : ∀ v ∈ ts, v.plain = true)
      (hinactive : ∀ t, bus.Inactive t → s.bus.Inactive t) :
      Effect dictHash s u { s with bus := bus, created := created } ts
  | found (t : ℕ) (hinactive : s.bus.Inactive t) :
      Effect dictHash s (.off t) (s.observe (.offReturned t)) []
  | off (t : ℕ) {bus : EventBus} (hoff : offTokenLocked dictHash s.bus t = some bus) :
      Effect dictHash s (.offLocked t)
        (({ s with bus := bus } : BusState).observe (.offReturned t)) []
  | snapshot {u : BusThread} (e : Emission) (event : CStr)
      (hu : u = .emit e ∧ event = e.event ∨ u = .emitNomatch e ∧ event = eventNomatch) :
      Effect dictHash s u s [.fire e (s.bus.regs event e.binary)]
  | skip (e : Emission) (l : Listener) (ls : List Listener) :
      Effect dictHash s (.fire e (l :: ls)) s [.fire e ls]
  | call (e : Emission) (l : Listener) (ls : List Listener) (hd : l.dispatch = 0) :
      Effect dictHash s (.fire e (l :: ls)) (s.observe (.started l e)) [.fire e ls]
  | queue (e : Emission) (l : Listener) (ls : List Listener) :
      Effect dictHash s (.fire e (l :: ls)) s [.queued l (e.queued l), .fire e ls]
  | run (l : Listener) (e : Emission) :
      Effect dictHash s (.queued l e) (s.observe (.started l e)) []
  | turnedAway (l : MessageListener) (m : EventMessage) :
      Effect dictHash s (.deliver l m) (s.observe (.checked l false)) []
  | admitted (l : MessageListener) (m : EventMessage) (hactive : ¬ s.bus.Inactive l.token) :
      Effect dictHash s (.deliver l m)
        { s.observe (.checked l true) with
          executing := Function.update s.executing l.token (s.executing l.token + 1) }
        [.invoke l m]
  | invoked (l : MessageListener) (m : EventMessage) :
      Effect dictHash s (.invoke l m) (s.observe (.invoked l m)) [.running l]
  | returned (l : MessageListener) :
      Effect dictHash s (.running l)
        { s with executing := Function.update s.executing l.token (s.executing l.token - 1) } []
  | drained (t : ℕ) (hidle : IsMessage s.bus t → s.executing t = 0) :
      Effect dictHash s (.drain t) (s.observe (.drainReturned t)) []

/-- What a step of thread `u` does to the state, and what those it leaves may rely on. -/
structure StepOk (dictHash : CStr → UInt32) (s : BusState) (u : BusThread) (s' : BusState)
    (ts : List BusThread) : Prop where
  state : StateStep dictHash u s s'
  threads : ∀ v ∈ ts, ThreadInv s' v
  effect : Effect dictHash s u s' ts

/-! ## One step -/

/-- The last section of `event_on_domain_token` marks the listener it is about. -/
theorem marked_of_markListener {s s' : EventBus} {c : DomainListener} {event : CStr} {cb user : ℕ}
    {d : EventDomain}
    (hplace : ∀ ev b, ∀ l ∈ s.regs ev b, l.registration = c.registration → c.Is ev b l)
    (hc : c.event = event ∧ c.binary = false ∧ c.cb = cb ∧ c.user = user ∧ c.domain = d)
    (hregs : ∀ ev b, s'.regs ev b = if ev = event ∧ b = false
      then markDomain d cb user (s.regs event false) else s.regs ev b)
    {ev : CStr} {b : Bool} {l' : Listener} (hl' : l' ∈ s'.regs ev b)
    (hreg : l'.registration = c.registration) : l'.domainDelivery = true := by
  obtain ⟨rfl, hbinary, rfl, rfl, rfl⟩ := hc
  rw [hregs] at hl'
  split at hl'
  · obtain ⟨l, hl, rfl⟩ := List.mem_map.mp hl'
    have hlreg : l.registration = c.registration := by
      rw [← hreg]
      split <;> rfl
    have his := hplace _ _ l hl hlreg
    rw [if_pos ⟨his.cb, his.user, his.domain⟩]
  · rename_i hne
    have his := hplace ev b l' hl' hreg
    exact absurd ⟨his.event, his.binary.trans hbinary⟩ hne

theorem BusStep.refl (s : EventBus) : BusStep s s := .of_same rfl (.refl s)

theorem IsMessage.step {s s' : EventBus} (h : BusStep s s') {t : ℕ} (ht : IsMessage s t) :
    IsMessage s' t := by
  obtain ⟨token, ht, hmsg⟩ := ht
  obtain ⟨token', ht', hsurvives, -⟩ := h.tokens t token ht
  exact ⟨token', ht', by rw [hsurvives, hmsg]⟩

theorem EventBus.Inactive.step {s s' : EventBus} (h : BusStep s s') {t : ℕ} (ht : s.Inactive t) :
    s'.Inactive t := by
  obtain ⟨token, ht, hact⟩ := ht
  obtain ⟨token', ht', -, hinactive⟩ := h.tokens t token ht
  exact ⟨token', ht', hinactive hact⟩

/-- A listener registered for a domain stays the one it was. -/
theorem DomainListener.Is.survives {c : DomainListener} {ev : CStr} {b : Bool} {l l' : Listener}
    (h : c.Is ev b l) (hl : l.Survives l') : c.Is ev b l' :=
  ⟨h.event, h.binary, hl.cb.trans h.cb, hl.user.trans h.user, by
    rw [Listener.usesDomain, hl.dispatch, hl.dispatchUser]
    exact h.domain⟩

theorem Carried.step {s s' : BusState} {th : BusThread} (h : StateStep dictHash th s s')
    {e : Emission} {l : Listener}
    (hl : Carried s e l) : Carried s' e l := by
  refine ⟨Nat.lt_of_lt_of_le hl.fresh h.bus.next, fun c' hc' hreg ↦ ?_⟩
  rcases h.created c' hc' with ⟨c, hc, heq⟩ | ⟨hnew, -⟩
  · rw [heq] at hreg ⊢
    exact hl.created c hc hreg
  · exact absurd (hreg.trans hnew) (Nat.ne_of_lt hl.fresh)

/-- **No step takes from a thread what it relies on.** -/
theorem ThreadInv.step {s s' : BusState} {th : BusThread} (h : StateStep dictHash th s s')
    {u : BusThread}
    (hu : ThreadInv s u) : ThreadInv s' u := by
  cases u with
  | fire e ls => exact fun l hl ↦ (hu l hl).step h
  | queued l e => exact Carried.step h hu
  | onDomainMark mem event cb user d r =>
    refine ⟨Nat.lt_of_lt_of_le hu.1 h.bus.next, fun c' hc' hreg ↦ ?_⟩
    rcases h.created c' hc' with ⟨c, hc, heq⟩ | ⟨hnew, -⟩
    · rw [heq] at hreg ⊢
      exact hu.2 c hc hreg
    · exact absurd (hreg.symm.trans hnew) (Nat.ne_of_lt hu.1)
  | fireMessage m ls => exact fun l hl ↦ (hu l hl).step h.bus
  | deliver l m => exact IsMessage.step h.bus hu
  | invoke l m => exact IsMessage.step h.bus hu
  | running l => exact IsMessage.step h.bus hu
  | call c => exact hu
  | emitNomatch e => exact hu
  | onDomainInsert binary mem event cb user d => exact hu
  | _ => exact trivial

/-- **The invariant of the state**, from what a step does. -/
theorem BusInv.step {s s' : BusState} {th : BusThread} (hI : BusInv dictHash s)
    (h : StateStep dictHash th s s') :
    BusInv dictHash s' := by
  refine ⟨h.store, fun d hd ↦ ?_, fun ev b l' hl' ↦ ?_, fun t token' ht' ↦ ?_, fun l hl ↦ ?_,
    fun c' hc' ↦ ?_, fun t ht ↦ ?_, fun l e hl ↦ ?_⟩
  · exact (h.domains.dispatch d hd).elim (hI.domains d) id
  · rcases h.bus.regs ev b l' hl' with ⟨l, hl, hsurvives⟩ | ⟨hnew, hlt⟩
    · rw [hsurvives.registration]
      exact Nat.lt_of_lt_of_le (hI.fresh ev b l hl) h.bus.next
    · exact hnew ▸ hlt
  · cases ht : s.bus.eventTokens[t]? with
    | none =>
      obtain ⟨-, hnew, hlt, hplace⟩ := h.bus.issued t token' ht' ht
      exact ⟨hnew ▸ hlt, hplace⟩
    | some token =>
      obtain ⟨token₁, ht₁, hsurvives, -⟩ := h.bus.tokens t token ht
      obtain rfl : token' = token₁ := Option.some_inj.mp (ht'.symm.trans ht₁)
      obtain ⟨hlt, hplace⟩ := hI.issued t token ht
      rw [hsurvives]
      refine ⟨Nat.lt_of_lt_of_le hlt h.bus.next, fun hmsg ev b l' hl' hreg ↦ ?_⟩
      rcases h.bus.regs ev b l' hl' with ⟨l, hl, hl'⟩ | ⟨hnew, -⟩
      · exact hplace hmsg ev b l hl (hl'.registration.symm.trans hreg)
      · exact absurd (hreg.symm.trans hnew) (Nat.ne_of_lt hlt)
  · exact (h.bus.messages l hl).elim (fun hl ↦ (hI.messages l hl).step h.bus) id
  · rcases h.created c' hc' with ⟨c, hc, heq⟩ | ⟨hnew, hlt, hd, hplace, -⟩
    · obtain ⟨hlt, hd, hplace⟩ := hI.created c hc
      rw [heq]
      refine ⟨Nat.lt_of_lt_of_le hlt h.bus.next, hd, fun ev b l' hl' hreg ↦ ?_⟩
      rcases h.bus.regs ev b l' hl' with ⟨l, hl, hsurvives⟩ | ⟨hnew, -⟩
      · have his := (hplace ev b l hl (hsurvives.registration.symm.trans hreg)).survives hsurvives
        exact ⟨his.event, his.binary, his.cb, his.user, his.domain⟩
      · exact absurd (hreg.symm.trans hnew) (Nat.ne_of_lt hlt)
    · exact ⟨hnew ▸ hlt, hd, hplace⟩
  · exact (h.off t ht).elim (fun ht ↦ (hI.off t ht).step h.bus) id
  · exact Nat.lt_of_lt_of_le ((h.started l e hl).elim (hI.started l e) id) h.bus.next

@[simp] theorem Emission.queued_binary (e : Emission) (l : Listener) :
    (e.queued l).binary = e.binary := by
  rw [Emission.queued]
  split <;> rfl

/-- A snapshot is the listeners there are. -/
theorem eventSnapshot_spec {s : EventBus} (hs : StoreOk dictHash s) {binary : Bool} {event : CStr}
    {ls : List Listener} (h : eventSnapshot dictHash s binary event = some ls) :
    ls = s.regs event binary := by
  rw [eventSnapshot, Option.bind_eq_bind, Option.bind_eq_some_iff] at h
  obtain ⟨r, hr, h⟩ := h
  have haddr := eventLookup_eq hs hr
  cases r with
  | none =>
    rw [EventBus.regs, ← haddr]
    exact (Option.some_inj.mp h).symm
  | some a =>
    obtain ⟨entry, hentry, h⟩ := Option.bind_eq_some_iff.mp h
    rw [EventBus.regs_of_addrOf haddr.symm hentry]
    exact (Option.some_inj.mp h).symm

theorem DomainStep.of_same {s s' : EventBus} (hdomains : s'.eventDomains = s.eventDomains)
    (hmessages : ∀ l ∈ s'.messageListeners, l ∈ s.messageListeners) : DomainStep s s' := by
  refine ⟨fun d hd ↦ .inl (hdomains ▸ hd), fun name d hd ↦ .inl ?_, fun l hl ↦ .inl (hmessages l hl)⟩
  rwa [findDomain, hdomains]

/-- `event_domain_unregister` sees every listener there is. -/
theorem not_usesDomain_of_free {s : EventBus} {d : EventDomain} (h : domainInUse s d = false)
    {ev : CStr} {b : Bool} {l : Listener} (hl : l ∈ s.regs ev b) : l.usesDomain d = false := by
  rw [EventBus.regs, EventBus.addrOf] at hl
  rw [domainInUse] at h
  cases hstore : s.eventStore with
  | none => simp [hstore] at hl
  | some store =>
    rw [hstore, Option.bind_some] at hl
    rw [hstore] at h
    simp only [dictEnumerateAll_eq, List.any_eq_false] at h
    cases hkp : store.entryOf ev with
    | none => simp [Dict.toMap, hkp] at hl
    | some kp =>
      have hfree := h kp (List.mem_of_find?_eq_some hkp)
      rw [Dict.toMap, hkp, Option.map_some, Option.bind_some] at hl
      cases hv : kp.value with
      | ptr a =>
        rw [hv] at hl hfree
        cases he : s.entries a with
        | none => simp [DictValue.address, he] at hl
        | some e =>
          simp only [he, Bool.or_eq_true, List.any_eq_true, not_or, not_exists, not_and,
            Bool.not_eq_true] at hfree
          simp only [DictValue.address, Option.bind_some, he, Option.map_some,
            Option.getD_some] at hl
          cases b with
          | false => exact hfree.1 l hl
          | true => exact hfree.2 l hl
      | _ => simp [hv, DictValue.address] at hl

/-- Taking one domain off the list does not hide another. -/
theorem find?_eraseP_of_disjoint {α : Type} {f g : α → Bool} (h : ∀ a, f a = true → g a = false) :
    ∀ L : List α, (L.eraseP g).find? f = L.find? f
  | [] => rfl
  | a :: L => by
    cases hg : g a with
    | true =>
      have hf : ¬ f a = true := fun hf ↦ by simp [h a hf] at hg
      rw [List.eraseP_cons_of_pos hg, List.find?_cons_of_neg hf]
    | false =>
      rw [List.eraseP_cons_of_neg (by simp [hg]), List.find?_cons, List.find?_cons,
        find?_eraseP_of_disjoint h L]

theorem RegsStep.domainStep {s s' : EventBus} (h : RegsStep s s') : DomainStep s s' := by
  cases h with
  | dropped _ hframe hdomains => exact .of_same hdomains fun l hl ↦ hframe.messages ▸ hl
  | registered _ _ _ _ _ _ hmessages _ hdomains => exact .of_same hdomains fun l hl ↦ hmessages ▸ hl
  | message _ listener _ _ _ _ hdomain hmessages _ hdomains =>
    have hfind : findDomain s' = findDomain s := funext fun name ↦ by
      rw [findDomain, findDomain, hdomains]
    refine ⟨fun d hd ↦ .inl (hdomains ▸ hd), fun name d hd ↦ .inl (hfind ▸ hd), fun l hl ↦ ?_⟩
    rw [hmessages] at hl
    rcases List.mem_cons.mp hl with rfl | hl
    · exact .inr (hfind ▸ hdomain)
    · exact .inl hl
  | domainRegistered d _ hframe hdispatch hnew hdomains =>
    refine ⟨fun d' hd' ↦ ?_, fun name d' hd' ↦ .inl ?_, fun l hl ↦ .inl (hframe.messages ▸ hl)⟩
    · rw [hdomains] at hd'
      rcases List.mem_cons.mp hd' with rfl | hd'
      · exact .inr hdispatch
      · exact .inl hd'
    · have hne : d.name ≠ name := by
        rintro rfl
        rw [hnew] at hd'
        cases hd'
      rw [findDomain, hdomains, List.find?_cons_of_neg (by simpa using hne)]
      exact hd'
  | domainUnregistered d hregs hframe hfind hmessage hfree hdomains =>
    refine ⟨fun d' hd' ↦ .inl (List.mem_of_mem_eraseP (hdomains ▸ hd')), fun name d' hd' ↦ ?_,
      fun l hl ↦ .inl (hframe.messages ▸ hl)⟩
    by_cases hname : d.name = name
    · subst hname
      obtain rfl : d = d' := Option.some_inj.mp (hfind.symm.trans hd')
      refine .inr ⟨fun ev b l hl ↦ not_usesDomain_of_free hfree (hregs ▸ hl), ?_⟩
      rw [hframe.messages]
      exact hmessage
    · refine .inl ?_
      rw [findDomain, hdomains, find?_eraseP_of_disjoint]
      · exact hd'
      · intro a ha
        have : a.name = name := by simpa using ha
        simpa [this] using Ne.symm hname

theorem Frame.inactive {s s' : EventBus} (h : Frame s s') (t : ℕ) (ht : s'.Inactive t) :
    s.Inactive t := by
  obtain ⟨token, ht, hact⟩ := ht
  exact ⟨token, h.tokens ▸ ht, hact⟩

theorem RegsStep.inactive {s s' : EventBus} (h : RegsStep s s') (t : ℕ) (ht : s'.Inactive t) :
    s.Inactive t := by
  have hconcat : ∀ new : EventToken, new.active = true →
      s'.eventTokens = s.eventTokens ++ [new] → s.Inactive t := by
    intro new hnew htokens
    obtain ⟨token, ht, hact⟩ := ht
    rcases getElem?_concat_cases (htokens ▸ ht) with ht | rfl
    · exact ⟨token, ht, hact⟩
    · exact absurd (hnew.symm.trans hact) (by decide)
  cases h with
  | dropped _ hframe => exact hframe.inactive t ht
  | registered ev binary l hl hregs htokens =>
    rcases htokens with htokens | ⟨g, htokens⟩
    · obtain ⟨token, ht, hact⟩ := ht
      exact ⟨token, htokens ▸ ht, hact⟩
    · exact hconcat _ rfl htokens
  | message token listener hregs htoken htokens => exact hconcat token htoken.2.1 htokens
  | domainRegistered _ _ hframe => exact hframe.inactive t ht
  | domainUnregistered _ _ hframe => exact hframe.inactive t ht

@[simp] theorem BusState.mem_observe (s : BusState) (ev ev' : BusEvent) :
    ev' ∈ (s.observe ev).trace ↔ ev' ∈ s.trace ∨ ev' = ev := by
  rw [BusState.observe, List.mem_append, List.mem_singleton]

section Step

variable {s : BusState} (hI : BusInv dictHash s)
include hI

/-- A step that leaves the registry as it is. -/
theorem StateStep.quiet {th : BusThread} {s' : BusState} (hbus : s'.bus = s.bus)
    (hcreated : s'.created = s.created) (htrace : s'.trace = s.trace) :
    StateStep dictHash th s s' :=
  ⟨hbus ▸ hI.store, hbus ▸ .refl s.bus, .of_same (by rw [hbus]) fun _ hl ↦ hbus ▸ hl,
    fun c hc ↦ .inl ⟨c, hcreated ▸ hc, rfl⟩, fun _ hc _ _ ↦ .inl (hcreated ▸ hc),
    fun _ ht ↦ .inl (htrace ▸ ht), fun _ _ hl ↦ .inl (htrace ▸ hl)⟩

/-- A step that can be seen from outside. -/
theorem StateStep.observe {th : BusThread} {ev : BusEvent}
    (hoff : ∀ t, ev = .offReturned t → s.bus.Inactive t)
    (hstarted : ∀ l e, ev = .started l e → l.registration < s.bus.nextRegistration) :
    StateStep dictHash th s (s.observe ev) := by
  refine ⟨hI.store, .refl s.bus, .of_same rfl fun _ hl ↦ hl, fun c hc ↦ .inl ⟨c, hc, rfl⟩,
    fun _ hc _ _ ↦ .inl hc, fun t ht ↦ ?_,
    fun l e hl ↦ ?_⟩
  · exact ((s.mem_observe ev _).mp ht).imp_right fun h ↦ hoff t h.symm
  · exact ((s.mem_observe ev _).mp hl).imp_right fun h ↦ hstarted l e h.symm

/-- A step that changes nothing, of a thread that carries no listener. -/
theorem StepOk.silent {th : BusThread} {ts : List BusThread} (hth : th.plain = true)
    (hts : ∀ u ∈ ts, u.plain = true) (hT : ∀ u ∈ ts, ThreadInv s u) : StepOk dictHash s th s ts :=
  ⟨.quiet hI rfl rfl rfl, hT, .silent s.bus s.created hth hts fun _ ↦ id⟩

theorem carried_of_mem {ev : CStr} {b : Bool} {l : Listener} (hl : l ∈ s.bus.regs ev b)
    {e : Emission} (he : e.binary = b) : Carried s e l := by
  refine ⟨hI.fresh ev b l hl, fun c hc hreg ↦ ?_⟩
  obtain ⟨-, hd, hplace⟩ := hI.created c hc
  have his := hplace ev b l hl hreg
  refine ⟨he.trans his.binary, ?_⟩
  obtain ⟨hdispatch, -⟩ := by simpa [Listener.usesDomain] using his.domain
  exact hdispatch ▸ hd

/-- Registering for a domain. -/
theorem onDomainInsert_step {binary : Bool} {mem : StoreAlloc} {event : CStr} {cb user : ℕ}
    {d : EventDomain} (hd : d.dispatch ≠ 0) {s' : BusState} {ts : List BusThread}
    (h : busRun dictHash s (.onDomainInsert binary mem event cb user d) = some (s', ts)) :
    StepOk dictHash s (.onDomainInsert binary mem event cb user d) s' ts := by
  rw [busRun, Option.bind_eq_bind, Option.bind_eq_some_iff] at h
  obtain ⟨⟨token, bus⟩, htoken, h⟩ := h
  obtain ⟨hbus, hsection⟩ := onToken_section hI.store htoken
  have hstep := hsection.busStep hI.fresh
  obtain ⟨-, hdomains, hmessages, hcases⟩ := onToken_spec hI.store htoken
  have hdomain : DomainStep s.bus bus := .of_same hdomains fun l hl ↦ hmessages ▸ hl
  obtain ⟨rfl, -⟩ | ⟨ev, g, hev, rfl, hnext, -, hregs⟩ := hcases
  · obtain ⟨rfl, rfl⟩ : { s with bus := bus } = s' ∧ [] = ts := by simpa using h
    exact ⟨⟨hbus, hstep, hdomain, fun c hc ↦ .inl ⟨c, hc, rfl⟩, fun _ hc _ _ ↦ .inl hc,
      fun t ht ↦ .inl ht, fun l e hl ↦ .inl hl⟩, by simp,
      .silent bus s.created rfl (by simp) hsection.inactive⟩
  · obtain rfl := Option.some_inj.mp hev
    simp only [reduceCtorEq, if_false, Option.pure_def, Option.some.injEq, Prod.mk.injEq] at h
    obtain ⟨rfl, rfl⟩ := h
    have hlt : s.bus.nextRegistration < bus.nextRegistration := hnext ▸ Nat.lt_succ_self _
    refine ⟨⟨hbus, hstep, hdomain, fun c hc ↦ ?_, fun c hc hb hm ↦ .inl ?_, fun t ht ↦ .inl ht,
      fun l e hl ↦ .inl hl⟩, fun u hu ↦ ?_,
      .silent bus _ rfl (by cases binary <;> simp [BusThread.plain]) hsection.inactive⟩
    · rcases List.mem_append.mp hc with hc | hc
      · exact .inl ⟨c, hc, rfl⟩
      · obtain rfl := List.mem_singleton.mp hc
        refine .inr ⟨rfl, hlt, hd, fun ev b l hl hreg ↦ ?_, binary, mem, event, cb, user, rfl⟩
        rw [hregs] at hl
        have hold : l ∉ s.bus.regs ev b := fun hmem ↦
          Nat.ne_of_lt (hI.fresh ev b l hmem) hreg
        split at hl
        · rename_i heq
          obtain ⟨rfl, rfl⟩ := heq
          rcases List.mem_append.mp hl with hl | hl
          · exact absurd hl hold
          · obtain rfl := List.mem_singleton.mp hl
            exact ⟨rfl, rfl, rfl, rfl, by simp [Listener.usesDomain]⟩
        · exact absurd hl hold
    · rcases List.mem_append.mp hc with hc | hc
      · exact hc
      · obtain rfl := List.mem_singleton.mp hc
        exact absurd (hb.symm.trans hm) (by decide)
    · cases binary with
      | true => simp at hu
      | false =>
        obtain rfl : u = .onDomainMark mem event cb user d s.bus.nextRegistration := by
          simpa using hu
        refine ⟨hlt, fun c hc hreg ↦ ?_⟩
        rcases List.mem_append.mp hc with hc | hc
        · exact absurd hreg (Nat.ne_of_lt (hI.created c hc).1)
        · obtain rfl := List.mem_singleton.mp hc
          exact ⟨rfl, rfl, rfl, rfl, rfl⟩

section Threads

variable {s' : BusState} {ts : List BusThread}

/-- A call that is one section. -/
theorem call_step {c : EventCall} (hc : c.oneSection = true)
    (h : busRun dictHash s (.call c) = some (s', ts)) : StepOk dictHash s (.call c) s' ts := by
  obtain ⟨bus, hcall, h⟩ := Option.bind_eq_some_iff.mp h
  obtain ⟨rfl, rfl⟩ : { s with bus := bus } = s' ∧ [] = ts := by simpa using h
  obtain ⟨hbus, hsection⟩ := section_step hI.store hc hcall
  exact ⟨⟨hbus, hsection.busStep hI.fresh, hsection.domainStep,
    fun c hc ↦ .inl ⟨c, hc, rfl⟩, fun _ hc _ _ ↦ .inl hc, fun t ht ↦ .inl ht,
    fun l e hl ↦ .inl hl⟩, by simp, .silent bus s.created rfl (by simp) hsection.inactive⟩

/-- `event_off_token` looks whether the token is active. -/
theorem off_step {t : ℕ} (h : busRun dictHash s (.off t) = some (s', ts)) :
    StepOk dictHash s (.off t) s' ts := by
  obtain ⟨token, ht, h⟩ := Option.bind_eq_some_iff.mp h
  split at h
  · obtain ⟨rfl, rfl⟩ : s = s' ∧ [.offLocked t] = ts := by simpa using h
    exact .silent hI rfl (by simp [BusThread.plain]) (by simp [ThreadInv])
  · rename_i hact
    obtain ⟨rfl, rfl⟩ : s.observe (.offReturned t) = s' ∧ [] = ts := by simpa using h
    have hinactive : s.bus.Inactive t := ⟨token, ht, by simpa using hact⟩
    refine ⟨.observe hI (fun t' ht' ↦ ?_) (fun l e he ↦ by cases he), by simp,
      .found t hinactive⟩
    obtain rfl : t = t' := by simpa using ht'
    exact hinactive

/-- `event_off_token` takes its listener off. -/
theorem offLocked_step {t : ℕ} (h : busRun dictHash s (.offLocked t) = some (s', ts)) :
    StepOk dictHash s (.offLocked t) s' ts := by
  obtain ⟨bus, hoff, h⟩ := Option.bind_eq_some_iff.mp h
  obtain ⟨rfl, rfl⟩ :
      ({ s with bus := bus } : BusState).observe (.offReturned t) = s' ∧ [] = ts := by
    simpa using h
  obtain ⟨hbus, hstep⟩ := offTokenLocked_busStep hI.store hoff
  refine ⟨⟨hbus, hstep, .of_same (offTokenLocked_domains hoff) fun l hl ↦ ?_,
    fun c hc ↦ .inl ⟨c, hc, rfl⟩, fun _ hc _ _ ↦ .inl hc, fun t' ht' ↦ ?_, fun l e hl ↦ ?_⟩,
    by simp, .off t hoff⟩
  · obtain ⟨-, s₁, rfl, -, -, -, hmessages, -⟩ := offTokenLocked_step hI.store hoff
    exact hmessages.mem hl
  · refine ((BusState.mem_observe _ _ _).mp ht').imp_right fun heq ↦ ?_
    obtain rfl : t' = t := by simpa using heq
    exact offTokenLocked_inactive hI.store hoff
  · exact .inl (((BusState.mem_observe _ _ _).mp hl).resolve_right (by simp))

/-- An emission takes a snapshot of the listeners. -/
theorem emit_step {e : Emission} (h : busRun dictHash s (.emit e) = some (s', ts)) :
    StepOk dictHash s (.emit e) s' ts := by
  obtain ⟨ls, hls, h⟩ := Option.bind_eq_some_iff.mp h
  split at h
  · rename_i hnone
    obtain ⟨rfl, rfl⟩ : s = s' ∧ [.emitNomatch e] = ts := by simpa using h
    exact .silent hI rfl (by simp [BusThread.plain]) (by simpa [ThreadInv] using hnone.2)
  · obtain ⟨rfl, rfl⟩ : s = s' ∧ [.fire e ls] = ts := by simpa using h
    obtain rfl := eventSnapshot_spec hI.store hls
    refine ⟨.quiet hI rfl rfl rfl, fun u hu ↦ ?_, .snapshot e e.event (.inl ⟨rfl, rfl⟩)⟩
    obtain rfl := List.mem_singleton.mp hu
    exact fun l hl ↦ carried_of_mem hI hl rfl

/-- Nobody listens to the event, and the listeners of `event.nomatch` are told. -/
theorem emitNomatch_step {e : Emission} (hbinary : e.binary = false)
    (h : busRun dictHash s (.emitNomatch e) = some (s', ts)) :
    StepOk dictHash s (.emitNomatch e) s' ts := by
  obtain ⟨ls, hls, h⟩ := Option.bind_eq_some_iff.mp h
  obtain ⟨rfl, rfl⟩ : s = s' ∧ [.fire e ls] = ts := by simpa using h
  obtain rfl := eventSnapshot_spec hI.store hls
  refine ⟨.quiet hI rfl rfl rfl, fun u hu ↦ ?_, ?_⟩
  · obtain rfl := List.mem_singleton.mp hu
    exact fun l hl ↦ carried_of_mem hI hl hbinary
  · have heffect : Effect dictHash s (.emitNomatch e) s
        [.fire e (s.bus.regs eventNomatch e.binary)] := .snapshot e eventNomatch (.inr ⟨rfl, rfl⟩)
    rwa [hbinary] at heffect

/-- The first listener of a snapshot: it is called at once, or its domain is asked to. -/
theorem fire_step {e : Emission} {l : Listener} {ls : List Listener}
    (hT : ThreadInv s (.fire e (l :: ls)))
    (h : busRun dictHash s (.fire e (l :: ls)) = some (s', ts)) :
    StepOk dictHash s (.fire e (l :: ls)) s' ts := by
  have hrest : ThreadInv s (.fire e ls) := fun l' hl' ↦ hT l' (List.mem_cons_of_mem l hl')
  have hl := hT l List.mem_cons_self
  rw [busRun] at h
  split at h
  · obtain ⟨rfl, rfl⟩ : s = s' ∧ [.fire e ls] = ts := by simpa using h
    exact ⟨.quiet hI rfl rfl rfl, by simpa using hrest, .skip e l ls⟩
  · split at h
    · rename_i hd
      obtain ⟨rfl, rfl⟩ : s.observe (.started l e) = s' ∧ [.fire e ls] = ts := by simpa using h
      have hstep : StateStep dictHash (.fire e (l :: ls)) s (s.observe (.started l e)) :=
        .observe hI (fun t ht ↦ by cases ht) fun l' e' heq ↦ by cases heq; exact hl.fresh
      exact ⟨hstep, by simpa using hrest.step hstep, .call e l ls hd⟩
    · obtain ⟨rfl, rfl⟩ : s = s' ∧ [.queued l (e.queued l), .fire e ls] = ts := by
        simpa using h
      refine ⟨.quiet hI rfl rfl rfl, fun u hu ↦ ?_, .queue e l ls⟩
      rcases List.mem_cons.mp hu with rfl | hu
      · refine ⟨hl.fresh, fun c hc hreg ↦ ?_⟩
        rw [Emission.queued_binary]
        exact hl.created c hc hreg
      · exact List.mem_singleton.mp hu ▸ hrest

/-- `event_on_domain_token` looks its domain up. -/
theorem onDomain_step {binary : Bool} {mem : StoreAlloc} {event : CStr} {cb user : ℕ}
    {domain : CStr} (h : busRun dictHash s (.onDomain binary mem event cb user domain) =
      some (s', ts)) :
    StepOk dictHash s (.onDomain binary mem event cb user domain) s' ts := by
  rw [busRun] at h
  split at h
  · obtain ⟨rfl, rfl⟩ : s = s' ∧ [] = ts := by simpa using h
    exact .silent hI rfl (by simp) (by simp)
  · rename_i d _
    split at h
    · obtain ⟨rfl, rfl⟩ : s = s' ∧ [] = ts := by simpa using h
      exact .silent hI rfl (by simp) (by simp)
    · rename_i hd
      obtain ⟨rfl, rfl⟩ : s = s' ∧ [.onDomainInsert binary mem event cb user d] = ts := by
        simpa using h
      exact .silent hI rfl (by simp [BusThread.plain]) (by simpa [ThreadInv] using hd)

/-- `event_on_domain_token` marks the listener it has registered. -/
theorem onDomainMark_step {mem : StoreAlloc} {event : CStr} {cb user : ℕ} {d : EventDomain}
    {r : ℕ} (hT : ThreadInv s (.onDomainMark mem event cb user d r))
    (h : busRun dictHash s (.onDomainMark mem event cb user d r) = some (s', ts)) :
    StepOk dictHash s (.onDomainMark mem event cb user d r) s' ts := by
  obtain ⟨bus, hmark, h⟩ := Option.bind_eq_some_iff.mp h
  obtain ⟨rfl, rfl⟩ : { s with bus := bus, created := markCreated r s.created } = s' ∧
    [] = ts := by simpa using h
  obtain ⟨hbus, hstep⟩ := markListener_busStep hI.store hmark
  obtain ⟨-, hframe, hdomains, hregs⟩ := markListener_spec hI.store hmark
  refine ⟨⟨hbus, hstep, .of_same hdomains fun l hl ↦ hframe.messages ▸ hl, fun c' hc' ↦ .inl ?_,
    fun c' hc' hb hm ↦ ?_, fun t ht ↦ .inl ht, fun l e hl ↦ .inl hl⟩, by simp,
    .silent bus _ rfl (by simp) fun t ht ↦ hframe.inactive t ht⟩
  · obtain ⟨c, hc, rfl⟩ := List.mem_map.mp hc'
    refine ⟨c, hc, ?_⟩
    split <;> rfl
  · obtain ⟨c, hc, rfl⟩ := List.mem_map.mp hc'
    split
    · rename_i hreg
      refine .inr fun ev b l' hl' hreg' ↦ ?_
      exact marked_of_markListener (hI.created c hc).2.2 (hT.2 c hc hreg) hregs hl' hreg'
    · exact .inl hc

/-- The first message listener there is to deliver to. -/
theorem fireMessage_step {m : EventMessage} {l : MessageListener} {ls : List MessageListener}
    (hT : ThreadInv s (.fireMessage m (l :: ls)))
    (h : busRun dictHash s (.fireMessage m (l :: ls)) = some (s', ts)) :
    StepOk dictHash s (.fireMessage m (l :: ls)) s' ts := by
  obtain ⟨rfl, rfl⟩ : s = s' ∧ [.deliver l m.pending, .fireMessage m ls] = ts := by
    simpa [busRun] using h
  refine .silent hI rfl (by simp [BusThread.plain]) fun u hu ↦ ?_
  rcases List.mem_cons.mp hu with rfl | hu
  · exact hT l List.mem_cons_self
  · exact List.mem_singleton.mp hu ▸ fun l' hl' ↦ hT l' (List.mem_cons_of_mem l hl')

/-- A delivery looks whether the token is still active. -/
theorem deliver_step {l : MessageListener} {m : EventMessage}
    (hT : ThreadInv s (.deliver l m)) (h : busRun dictHash s (.deliver l m) = some (s', ts)) :
    StepOk dictHash s (.deliver l m) s' ts := by
  obtain ⟨token, ht, h⟩ := Option.bind_eq_some_iff.mp h
  have hstep : StateStep dictHash (.deliver l m) s (s.observe (.checked l token.active)) :=
    .observe hI (fun t ht ↦ by cases ht) fun l' e' heq ↦ by cases heq
  split at h
  · rename_i hact
    rw [hact] at hstep h
    obtain ⟨rfl, rfl⟩ := by
      simpa only [Option.pure_def, Option.some.injEq, Prod.mk.injEq] using h
    refine ⟨⟨hstep.store, hstep.bus, hstep.domains, hstep.created, hstep.marked, hstep.off,
      hstep.started⟩,
      fun u hu ↦ List.mem_singleton.mp hu ▸ hT, .admitted l m ?_⟩
    rintro ⟨token', ht', hinactive⟩
    obtain rfl : token = token' := Option.some_inj.mp (ht.symm.trans ht')
    exact absurd (hact.symm.trans hinactive) (by decide)
  · rename_i hact
    rw [show token.active = false by simpa using hact] at hstep h
    obtain ⟨rfl, rfl⟩ := by
      simpa only [Option.pure_def, Option.some.injEq, Prod.mk.injEq] using h
    exact ⟨hstep, by simp, .turnedAway l m⟩

/-- Whoever waits for a token goes on when none of its calls is running. -/
theorem drain_step {t : ℕ} (h : busRun dictHash s (.drain t) = some (s', ts)) :
    StepOk dictHash s (.drain t) s' ts := by
  obtain ⟨token, ht, h⟩ := Option.bind_eq_some_iff.mp h
  split at h
  · cases h
  · rename_i hidle
    obtain ⟨rfl, rfl⟩ : s.observe (.drainReturned t) = s' ∧ [] = ts := by simpa using h
    refine ⟨.observe hI (fun t ht ↦ by cases ht) (fun l' e' heq ↦ by cases heq), by simp,
      .drained t ?_⟩
    rintro ⟨token', ht', hmsg⟩
    obtain rfl : token = token' := Option.some_inj.mp (ht.symm.trans ht')
    by_contra hne
    exact hidle ⟨hmsg, hne⟩

/-- **One step of a thread**: what it does to the state, and what those it leaves may rely on. -/
theorem busRun_step {th : BusThread} (hT : ThreadInv s th)
    (h : busRun dictHash s th = some (s', ts)) : StepOk dictHash s th s' ts := by
  cases th with
  | call c => exact call_step hI hT h
  | off t => exact off_step hI h
  | offLocked t => exact offLocked_step hI h
  | emit e => exact emit_step hI h
  | emitNomatch e => exact emitNomatch_step hI hT h
  | fire e ls =>
    cases ls with
    | nil =>
      obtain ⟨rfl, rfl⟩ : s = s' ∧ [] = ts := by simpa [busRun] using h
      exact .silent hI rfl (by simp) (by simp)
    | cons l ls => exact fire_step hI hT h
  | queued l e =>
    obtain ⟨rfl, rfl⟩ : s.observe (.started l e) = s' ∧ [] = ts := by simpa [busRun] using h
    exact ⟨.observe hI (fun t ht ↦ by cases ht) (fun l' e' heq ↦ by cases heq; exact hT.fresh),
      by simp, .run l e⟩
  | onDomain binary mem event cb user domain => exact onDomain_step hI h
  | onDomainInsert binary mem event cb user d => exact onDomainInsert_step hI hT h
  | onDomainMark mem event cb user d r => exact onDomainMark_step hI hT h
  | emitMessage m =>
    obtain ⟨rfl, rfl⟩ := by simpa only [busRun, Option.some.injEq, Prod.mk.injEq] using h
    refine .silent hI rfl (by simp [BusThread.plain]) fun u hu ↦ ?_
    obtain rfl := List.mem_singleton.mp hu
    exact fun l hl ↦ hI.messages l (List.mem_filter.mp hl).1
  | fireMessage m ls =>
    cases ls with
    | nil =>
      obtain ⟨rfl, rfl⟩ : s = s' ∧ [] = ts := by simpa [busRun] using h
      exact .silent hI rfl (by simp) (by simp)
    | cons l ls => exact fireMessage_step hI hT h
  | deliver l m => exact deliver_step hI hT h
  | invoke l m =>
    obtain ⟨rfl, rfl⟩ : s.observe (.invoked l m) = s' ∧ [.running l] = ts := by
      simpa [busRun] using h
    exact ⟨.observe hI (fun t ht ↦ by cases ht) (fun l' e' heq ↦ by cases heq),
      fun u hu ↦ List.mem_singleton.mp hu ▸ hT, .invoked l m⟩
  | running l =>
    obtain ⟨rfl, rfl⟩ := by simpa only [busRun, Option.some.injEq, Prod.mk.injEq] using h
    exact ⟨.quiet hI rfl rfl rfl, by simp, .returned l⟩
  | drain t => exact drain_step hI h

end Threads

end Step

/-! ## Runs -/

/-- The invariant of the whole pool. -/
structure PoolInv (dictHash : CStr → UInt32) (p : Pool BusState BusThread) : Prop where
  state : BusInv dictHash p.shared
  threads : ∀ u ∈ p.threads, ThreadInv p.shared u

theorem busInv_busInit : BusInv dictHash busInit := by
  have hnil : ∀ ev b, busInit.bus.regs ev b = [] := fun _ _ ↦ rfl
  refine ⟨storeOk_eventInit, fun d hd ↦ ?_, fun ev b l hl ↦ ?_, fun t token ht ↦ ?_,
    fun l hl ↦ ?_, fun c hc ↦ ?_, fun t ht ↦ ?_, fun l e hl ↦ ?_⟩
  · cases hd
  · rw [hnil] at hl
    cases hl
  · simp [busInit, eventInit] at ht
  all_goals simp_all [busInit, eventInit]

theorem poolInv_idleBus : PoolInv dictHash idleBus :=
  ⟨busInv_busInit, fun u hu ↦ by cases hu⟩

theorem threadInv_of_start {s : BusState} {u : BusThread} (h : u.start = true) :
    ThreadInv s u := by
  cases u with
  | call c => exact h
  | _ => first | exact trivial | cases h

/-- **Whatever the threads do**, the invariants hold. -/
theorem PoolInv.step {p p' : Pool BusState BusThread} {a : Action BusThread}
    (hp : PoolInv dictHash p) (h : busStep dictHash p a = some p') : PoolInv dictHash p' := by
  obtain ⟨hI, hT⟩ := inv_of_step (I := BusInv dictHash) h hp.state hp.threads
    (fun u hu ↦ threadInv_of_start hu) fun i u s ts _ hu hrun ↦ by
      obtain ⟨hstep, hnew, -⟩ := busRun_step hp.state (hp.threads u (List.mem_of_getElem? hu)) hrun
      exact ⟨hp.state.step hstep, hnew, fun u' _ hu' ↦ hu'.step hstep⟩
  exact ⟨hI, hT⟩

end Rustyaxe
