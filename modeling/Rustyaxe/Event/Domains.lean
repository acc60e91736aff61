import Rustyaxe.Event.Sections

/-!
# Listeners of a domain

A listener registered with `event_on_domain_token` is to be called on the thread of its domain,
without a connection, and its domain is to stay as long as the listener does.  Both fail because
the registration is not one section.  An emission may take its snapshot between the one that
registers the listener and the one that marks it, and a domain may be unregistered between the one
that copies its dispatcher and the one that registers the listener.  `nullDelivered_of_noStep` and
`domainsKept_of_noStep` are that nothing else goes wrong.
-/

set_option autoImplicit false

namespace Rustyaxe

open Runs ThreadPool

variable {dictHash : CStr → UInt32}

/-! ## Connections -/

/-- What has been delivered to a text listener of a domain came without a connection. -/
def NullDelivered (p : Pool BusState BusThread) : Prop :=
  ∀ c ∈ p.shared.created, c.binary = false → ∀ l e, .started l e ∈ p.shared.trace →
    l.registration = c.registration → e.cptr = 0

/-- The emission has a connection, and would find a listener whose registration for a domain is
not complete. -/
def Emission.exposed (s : BusState) (e : Emission) (event : CStr) : Bool :=
  e.cptr != 0 && (s.bus.regs event e.binary).any fun l ↦ !l.domainDelivery &&
    s.created.any fun c ↦ c.registration == l.registration && !c.binary && !c.marked

/-- An emission is about to take a snapshot it should not. -/
def snapshotTooEarly (p : Pool BusState BusThread) : Action BusThread → Bool
  | .spawn _ => false
  | .run i =>
    match p.threads[i]? with
    | some (.emit e) => e.exposed p.shared e.event
    | some (.emitNomatch e) => e.exposed p.shared eventNomatch
    | _ => false

/-- The listener is not one of a text listener of a domain, or comes without a connection. -/
def NullFor (s : BusState) (l : Listener) (P : Prop) : Prop :=
  ∀ c ∈ s.created, c.binary = false → l.registration = c.registration → P

/-- A copy of a listener of a domain that is on its way is marked, or has no connection with it. -/
def NullThread (s : BusState) : BusThread → Prop
  | .fire e ls => ∀ l ∈ ls, NullFor s l (l.domainDelivery = true ∨ e.cptr = 0)
  | .queued l e => NullFor s l (e.cptr = 0)
  | _ => True

/-- Listeners of a domain are marked when their registration is complete. -/
structure NullInv (p : Pool BusState BusThread) : Prop where
  marked : ∀ c ∈ p.shared.created, c.binary = false → c.marked = true →
    ∀ ev b, ∀ l ∈ p.shared.bus.regs ev b, l.registration = c.registration →
      l.domainDelivery = true
  threads : ∀ u ∈ p.threads, NullThread p.shared u
  delivered : NullDelivered p

theorem NullThread.of_plain {s : BusState} {u : BusThread} (h : u.plain = true) :
    NullThread s u := by
  cases u with
  | fire e ls =>
    cases ls with
    | nil => exact fun l hl ↦ by cases hl
    | cons l ls => cases h
  | queued l e => cases h
  | _ => exact trivial

theorem NullThread.of_start {s : BusState} {u : BusThread} (h : u.start = true) :
    NullThread s u := by
  cases u with
  | fire e ls => cases h
  | queued l e => cases h
  | _ => exact trivial

/-- New listeners of a domain have new numbers. -/
theorem NullFor.step {th : BusThread} {s s' : BusState} (h : StateStep dictHash th s s')
    {l : Listener} (hl : l.registration < s.bus.nextRegistration) {P : Prop}
    (hP : NullFor s l P) : NullFor s' l P := by
  intro c' hc' hb hreg
  rcases h.created c' hc' with ⟨c, hc, heq⟩ | ⟨hnew, -⟩
  · rw [heq] at hb hreg
    exact hP c hc hb hreg
  · exact absurd (hreg.trans hnew) (Nat.ne_of_lt hl)

theorem NullThread.step {th : BusThread} {s s' : BusState} (h : StateStep dictHash th s s')
    {u : BusThread} (hu : ThreadInv s u) (hP : NullThread s u) : NullThread s' u := by
  cases u with
  | fire e ls => exact fun l hl ↦ (hP l hl).step h (hu l hl).fresh
  | queued l e => exact NullFor.step h hu.fresh hP
  | _ => exact trivial

section Step

variable {p p' : Pool BusState BusThread} (hp : NullInv p)
include hp

/-- A thread runs: what it leaves is safe, and so is what it has called. -/
theorem NullInv.run (hpool : PoolInv dictHash p) {i : ℕ} {u : BusThread} {ts : List BusThread}
    (hstep : StateStep dictHash u p.shared p'.shared)
    (hthreads : p'.threads = p.threads.eraseIdx i ++ ts)
    (hnew : ∀ v ∈ ts, NullThread p'.shared v)
    (htrace : p'.shared.trace = p.shared.trace ∨ ∃ ev, p'.shared.trace = p.shared.trace ++ [ev] ∧
      ∀ l e, ev = .started l e → NullFor p'.shared l (e.cptr = 0)) : NullInv p' := by
  refine ⟨fun c' hc' hb hm ev b l' hl' hreg ↦ ?_, fun v hv ↦ ?_, fun c' hc' hb l e hst hreg ↦ ?_⟩
  · rcases hstep.marked c' hc' hb hm with hc | hmarked
    · rcases hstep.bus.regs ev b l' hl' with ⟨l, hl, hsurvives⟩ | ⟨hnew, -⟩
      · refine hsurvives.marked (hp.marked c' hc hb hm ev b l hl ?_)
        exact hsurvives.registration.symm.trans hreg
      · exact absurd (hreg.symm.trans hnew) (Nat.ne_of_lt (hpool.state.created c' hc).1)
    · exact hmarked ev b l' hl' hreg
  · rw [hthreads] at hv
    rcases List.mem_append.mp hv with hv | hv
    · have hmem := List.mem_of_mem_eraseIdx hv
      exact (hp.threads v hmem).step hstep (hpool.threads v hmem)
    · exact hnew v hv
  · have hold : .started l e ∈ p.shared.trace → e.cptr = 0 := fun hst ↦ by
      have hP : NullFor p.shared l (e.cptr = 0) := fun c hc hb hreg ↦
        hp.delivered c hc hb l e hst hreg
      exact hP.step hstep (hpool.state.started l e hst) c' hc' hb hreg
    rcases htrace with htrace | ⟨ev, htrace, hev⟩
    · exact hold (htrace ▸ hst)
    · rw [htrace] at hst
      rcases List.mem_append.mp hst with hst | hst
      · exact hold hst
      · exact hev l e (List.mem_singleton.mp hst).symm c' hc' hb hreg

/-- A snapshot that is not too early is safe. -/
theorem nullThread_of_snapshot {e : Emission} {event : CStr}
    (hexposed : e.exposed p.shared event = false) :
    NullThread p.shared (.fire e (p.shared.bus.regs event e.binary)) := by
  intro l hl c hc hb hreg
  cases hm : c.marked with
  | true => exact .inl (hp.marked c hc hb hm event e.binary l hl hreg)
  | false =>
    by_contra hne
    obtain ⟨hd, hcptr⟩ := not_or.mp hne
    have hexp : e.exposed p.shared event = true := by
      rw [Emission.exposed, Bool.and_eq_true, List.any_eq_true]
      refine ⟨by simpa using hcptr, l, hl, ?_⟩
      rw [Bool.and_eq_true, List.any_eq_true]
      exact ⟨by simpa using hd, c, hc, by simp [hreg, hb, hm]⟩
    rw [hexposed] at hexp
    cases hexp

/-- **Every step but a snapshot that is too early** keeps connections from the listeners of a
domain. -/
theorem NullInv.step (hpool : PoolInv dictHash p) {a : Action BusThread}
    (hbad : snapshotTooEarly p a = false) (h : busStep dictHash p a = some p') : NullInv p' := by
  cases a with
  | spawn u =>
    obtain ⟨hstart, rfl⟩ := step_spawn h
    refine ⟨hp.marked, fun v hv ↦ ?_, hp.delivered⟩
    rcases List.mem_append.mp hv with hv | hv
    · exact hp.threads v hv
    · obtain rfl := List.mem_singleton.mp hv
      exact .of_start hstart
  | run i =>
    obtain ⟨u, ts, hu, hrun, hthreads⟩ := step_run h
    have hmem := List.mem_of_getElem? hu
    obtain ⟨hstep, -, heffect⟩ := busRun_step hpool.state (hpool.threads u hmem) hrun
    obtain ⟨s', threads⟩ := p'
    dsimp only at hthreads hstep heffect
    have hsafe := hp.threads u hmem
    cases heffect with
    | silent bus created hplain hts hinactive =>
      exact hp.run hpool hstep hthreads (fun v hv ↦ .of_plain (hts v hv)) (.inl rfl)
    | snapshot e event heq =>
      refine hp.run hpool hstep hthreads (fun v hv ↦ ?_) (.inl rfl)
      obtain rfl := List.mem_singleton.mp hv
      refine nullThread_of_snapshot hp ?_
      rcases heq with ⟨rfl, rfl⟩ | ⟨rfl, rfl⟩
      · simpa [snapshotTooEarly, hu] using hbad
      · simpa [snapshotTooEarly, hu] using hbad
    | skip e l ls =>
      refine hp.run hpool hstep hthreads (fun v hv ↦ ?_) (.inl rfl)
      exact List.mem_singleton.mp hv ▸ fun l' hl' ↦ hsafe l' (List.mem_cons_of_mem l hl')
    | call e l ls hd =>
      refine hp.run hpool hstep hthreads (fun v hv ↦ ?_) (.inr ⟨_, rfl, fun l' e' heq ↦ ?_⟩)
      · exact List.mem_singleton.mp hv ▸ fun l' hl' ↦ hsafe l' (List.mem_cons_of_mem l hl')
      · obtain ⟨rfl, rfl⟩ : l = l' ∧ e = e' := by simpa using heq
        intro c hc hb hreg
        have hcarried := hpool.threads _ hmem l List.mem_cons_self
        exact absurd hd (hcarried.created c hc hreg).2
    | queue e l ls =>
      refine hp.run hpool hstep hthreads (fun v hv ↦ ?_) (.inl rfl)
      rcases List.mem_cons.mp hv with rfl | hv
      · intro c hc hb hreg
        have hcarried := hpool.threads _ hmem l List.mem_cons_self
        have hbinary := (hcarried.created c hc hreg).1.trans hb
        rw [Emission.queued, hbinary]
        rcases hsafe l List.mem_cons_self c hc hb hreg with hd | hcptr
        · simp [hd]
        · simp [hcptr]
      · exact List.mem_singleton.mp hv ▸ fun l' hl' ↦ hsafe l' (List.mem_cons_of_mem l hl')
    | run l e =>
      refine hp.run hpool hstep hthreads (by simp) (.inr ⟨_, rfl, fun l' e' heq ↦ ?_⟩)
      obtain ⟨rfl, rfl⟩ : l = l' ∧ e = e' := by simpa using heq
      exact hsafe
    | found t hinactive =>
      exact hp.run hpool hstep hthreads (by simp) (.inr ⟨_, rfl, fun l e hl ↦ (by cases hl)⟩)
    | off t hoff =>
      exact hp.run hpool hstep hthreads (by simp) (.inr ⟨_, rfl, fun l e hl ↦ (by cases hl)⟩)
    | turnedAway l m =>
      exact hp.run hpool hstep hthreads (by simp) (.inr ⟨_, rfl, fun l e hl ↦ (by cases hl)⟩)
    | admitted l m hactive =>
      exact hp.run hpool hstep hthreads (by simp [NullThread])
        (.inr ⟨_, rfl, fun l e hl ↦ (by cases hl)⟩)
    | invoked l m =>
      exact hp.run hpool hstep hthreads (by simp [NullThread])
        (.inr ⟨_, rfl, fun l e hl ↦ (by cases hl)⟩)
    | returned l => exact hp.run hpool hstep hthreads (by simp) (.inl rfl)
    | drained t hidle =>
      exact hp.run hpool hstep hthreads (by simp) (.inr ⟨_, rfl, fun l e hl ↦ (by cases hl)⟩)

end Step

theorem nullInv_idleBus : NullInv idleBus := by
  refine ⟨fun c hc ↦ ?_, fun u hu ↦ ?_, fun c hc ↦ ?_⟩
  all_goals simp [idleBus, busInit] at *

/-- **When no connection crosses.**  In a run in which no emission with a connection takes its
snapshot while it has a listener in it whose registration for a domain is not complete, everything
delivered to the text listeners of a domain comes without a connection. -/
theorem nullDelivered_of_noStep (cs : List (Action BusThread))
    (h : NoStep (busStep dictHash) idleBus cs fun p a ↦ snapshotTooEarly p a = true) :
    Always (busStep dictHash) idleBus cs NullDelivered := by
  have hinv := inv_of_noStep (I := fun p ↦ PoolInv dictHash p ∧ NullInv p)
    ⟨poolInv_idleBus, nullInv_idleBus⟩
    (fun _ _ _ hp hbad hstep ↦
      ⟨hp.1.step hstep, hp.2.step hp.1 (Bool.eq_false_of_not_eq_true hbad) hstep⟩) h
  exact fun cs' p hpre hp ↦ (hinv cs' p hpre hp).2.delivered

/-- An emission with connection 5 to a listener of a domain, after the listener is marked. -/
def emitAfterMark : List (Action BusThread) :=
  [.spawn (.call (.domainRegister (some [100]) 9 90)), .run 0,
    .spawn (.onDomain false .ok [101] 1 10 [100]), .run 0, .run 0, .run 0,
    .spawn (.emit ⟨false, [101], 5, none, 0⟩), .run 0, .run 0, .run 0]

theorem nullDelivered_emitAfterMark :
    Always (busStep dictHashMurmur) idleBus emitAfterMark NullDelivered :=
  nullDelivered_of_noStep emitAfterMark (noStep_of_checkSteps (by decide))

/-- The same, before it is. -/
def emitBeforeMark : List (Action BusThread) :=
  [.spawn (.call (.domainRegister (some [100]) 9 90)), .run 0,
    .spawn (.onDomain false .ok [101] 1 10 [100]), .run 0, .run 0,
    .spawn (.emit ⟨false, [101], 5, none, 0⟩), .run 1, .run 1, .run 1]

theorem not_nullDelivered_emitBeforeMark : ∃ p,
    runSteps (busStep dictHashMurmur) idleBus emitBeforeMark = some p ∧ ¬ NullDelivered p := by
  have hrun : (runSteps (busStep dictHashMurmur) idleBus emitBeforeMark).map
      (fun p ↦ (p.shared.created, p.shared.trace))
        = some ([⟨0, [101], false, 1, 10, ⟨[100], 9, 90⟩, false⟩],
          [.started ⟨1, 10, 9, 90, false, 0⟩ ⟨false, [101], 5, none, 0⟩]) := by
    decide
  obtain ⟨p, hp, hseen⟩ := Option.map_eq_some_iff.mp hrun
  obtain ⟨hcreated, htrace⟩ := Prod.mk.injEq .. ▸ hseen
  refine ⟨p, hp, fun h ↦ ?_⟩
  have hnull := h _ (hcreated ▸ List.mem_singleton_self _) rfl _ _
    (htrace ▸ List.mem_singleton_self _) rfl
  cases hnull

/-! ## Domains -/

/-- Every listener that was registered for a domain is delivered through its dispatcher, and the
domain is still there, with the same dispatcher and user pointer. -/
structure DomainsKept (p : Pool BusState BusThread) : Prop where
  listeners : ∀ c ∈ p.shared.created, ∀ ev b, ∀ l ∈ p.shared.bus.regs ev b,
    l.registration = c.registration →
      l.usesDomain c.domain = true ∧ findDomain p.shared.bus c.domain.name = some c.domain
  messages : ∀ l ∈ p.shared.bus.messageListeners, ∀ name, l.domain = some name →
    findDomain p.shared.bus name = some ⟨name, l.dispatch, l.dispatchUser⟩

/-- A listener is about to be registered for a domain that has been unregistered since it was
looked up, or registered anew with another dispatcher. -/
def insertTooLate (p : Pool BusState BusThread) : Action BusThread → Bool
  | .spawn _ => false
  | .run i =>
    match p.threads[i]? with
    | some (.onDomainInsert _ _ _ _ _ d) => findDomain p.shared.bus d.name != some d
    | _ => false

/-- **Every step but a registration that is too late** leaves the listeners their domains. -/
theorem DomainsKept.step {p p' : Pool BusState BusThread} (hp : DomainsKept p)
    (hpool : PoolInv dictHash p) {a : Action BusThread} (hbad : insertTooLate p a = false)
    (h : busStep dictHash p a = some p') : DomainsKept p' := by
  cases a with
  | spawn u =>
    obtain ⟨-, rfl⟩ := step_spawn h
    exact ⟨hp.listeners, hp.messages⟩
  | run i =>
    obtain ⟨u, ts, hu, hrun, -⟩ := step_run h
    have hmem := List.mem_of_getElem? hu
    obtain ⟨hstep, -⟩ := busRun_step hpool.state (hpool.threads u hmem) hrun
    have hkept : ∀ {ev b l d}, l ∈ p'.shared.bus.regs ev b → l.usesDomain d = true →
        findDomain p.shared.bus d.name = some d → findDomain p'.shared.bus d.name = some d := by
      intro ev b l d hl huses hfind
      refine (hstep.domains.kept _ d hfind).resolve_right fun hfree ↦ ?_
      rw [hfree.1 ev b l hl] at huses
      cases huses
    refine ⟨fun c' hc' ev b l' hl' hreg ↦ ?_, fun l hl name hname ↦ ?_⟩
    · rcases hstep.created c' hc' with ⟨c, hc, heq⟩ | ⟨-, -, -, hplace, _, _, _, _, _, rfl⟩
      · rw [heq] at hreg ⊢
        rcases hstep.bus.regs ev b l' hl' with ⟨l, hl, hsurvives⟩ | ⟨hnew, -⟩
        · obtain ⟨huses, hfind⟩ :=
            hp.listeners c hc ev b l hl (hsurvives.registration.symm.trans hreg)
          have huses' : l'.usesDomain c.domain = true := by
            rwa [Listener.usesDomain, hsurvives.dispatch, hsurvives.dispatchUser]
          exact ⟨huses', hkept hl' huses' hfind⟩
        · exact absurd (hreg.symm.trans hnew) (Nat.ne_of_lt (hpool.state.created c hc).1)
      · have huses := (hplace ev b l' hl' hreg).domain
        have hfind : findDomain p.shared.bus c'.domain.name = some c'.domain := by
          simpa [insertTooLate, hu] using hbad
        exact ⟨huses, hkept hl' huses hfind⟩
    · rcases hstep.domains.messages l hl with hold | hnew
      · exact (hstep.domains.kept _ _ (hp.messages l hold name hname)).resolve_right fun hfree ↦
          hfree.2 l hl hname
      · exact hnew name hname

theorem domainsKept_idleBus : DomainsKept idleBus := by
  refine ⟨fun c hc ↦ ?_, fun l hl ↦ ?_⟩
  · cases hc
  · cases hl

/-- **When domains stay.**  In a run in which every listener that is registered for a domain finds
the domain as it was looked up, every listener of a domain has its domain in every state. -/
theorem domainsKept_of_noStep (cs : List (Action BusThread))
    (h : NoStep (busStep dictHash) idleBus cs fun p a ↦ insertTooLate p a = true) :
    Always (busStep dictHash) idleBus cs DomainsKept := by
  have hinv := inv_of_noStep (I := fun p ↦ PoolInv dictHash p ∧ DomainsKept p)
    ⟨poolInv_idleBus, domainsKept_idleBus⟩
    (fun _ _ _ hp hbad hstep ↦
      ⟨hp.1.step hstep, hp.2.step hp.1 (Bool.eq_false_of_not_eq_true hbad) hstep⟩) h
  exact fun cs' p hpre hp ↦ (hinv cs' p hpre hp).2

/-- A listener is registered for a domain, and then the domain is to be unregistered. -/
def unregisterAfter : List (Action BusThread) :=
  [.spawn (.call (.domainRegister (some [100]) 9 90)), .run 0,
    .spawn (.onDomain false .ok [101] 1 10 [100]), .run 0, .run 0, .run 0,
    .spawn (.call (.domainUnregister (some [100]))), .run 0]

theorem domainsKept_unregisterAfter :
    Always (busStep dictHashMurmur) idleBus unregisterAfter DomainsKept :=
  domainsKept_of_noStep unregisterAfter (noStep_of_checkSteps (by decide))

/-- The domain is unregistered while its dispatcher has been copied, and the listener is not there
yet. -/
def unregisterBetween : List (Action BusThread) :=
  [.spawn (.call (.domainRegister (some [100]) 9 90)), .run 0,
    .spawn (.onDomain false .ok [101] 1 10 [100]), .run 0,
    .spawn (.call (.domainUnregister (some [100]))), .run 1, .run 0]

theorem not_domainsKept_unregisterBetween : ∃ p,
    runSteps (busStep dictHashMurmur) idleBus unregisterBetween = some p ∧ ¬ DomainsKept p := by
  have hrun : (runSteps (busStep dictHashMurmur) idleBus unregisterBetween).map
      (fun p ↦ (p.shared.created, p.shared.bus.regs [101] false, p.shared.bus.eventDomains))
        = some ([⟨0, [101], false, 1, 10, ⟨[100], 9, 90⟩, false⟩],
          [⟨1, 10, 9, 90, false, 0⟩], []) := by
    decide
  obtain ⟨p, hp, hseen⟩ := Option.map_eq_some_iff.mp hrun
  obtain ⟨hcreated, hseen⟩ := Prod.mk.injEq .. ▸ hseen
  obtain ⟨hregs, hdomains⟩ := Prod.mk.injEq .. ▸ hseen
  refine ⟨p, hp, fun h ↦ ?_⟩
  have hfind := (h.listeners _ (hcreated ▸ List.mem_singleton_self _) [101] false _
    (hregs ▸ List.mem_singleton_self _) rfl).2
  rw [findDomain, hdomains] at hfind
  cases hfind

end Rustyaxe
