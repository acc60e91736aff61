import Rustyaxe.Event.Sections

/-!
# Whether unregistering is final

For a message listener it is: `deliver_message` looks at the token under the lock and counts
itself in before it calls the callback, so that whoever unregisters the listener and then waits for
the count to be zero has seen the last of it.  `unsubscribed_of_runSteps` says so.

For the other listeners it is not.  An emission works through its snapshot, and a dispatcher
through its queue, and neither looks at the token again.  `finished_of_noStep` says which runs are
all right: those in which no token is unregistered while a copy of its registration is on its way,
and each takes its own registration off the list.
-/

set_option autoImplicit false

namespace Rustyaxe

open Runs ThreadPool

variable {dictHash : CStr → UInt32}

/-! ## Messages -/

/-- A thread that has been let through to the callback of the token. -/
def BusThread.executes (t : ℕ) : BusThread → Bool
  | .invoke l _ | .running l => l.token == t
  | _ => false

/-- The token was unregistered, and after that `event_message_token_drain` returned for it. -/
def Drained (t : ℕ) (tr : List BusEvent) : Prop :=
  ∃ pre post, tr = pre ++ .drainReturned t :: post ∧ .offReturned t ∈ pre

/-- Neither lets a delivery through to its callback, nor says that there are none. -/
def BusEvent.aside : BusEvent → Bool
  | .drainReturned _ | .checked _ true | .invoked _ _ => false
  | _ => true

/-- `executing` counts, and it is zero when the token has been drained. -/
structure MessageInv (p : Pool BusState BusThread) : Prop where
  executing : ∀ t, p.shared.executing t = p.threads.countP (·.executes t)
  checks : ∀ t, NeverAfter p.shared.trace (.offReturned t ∈ ·)
    fun ev ↦ ∃ l, l.token = t ∧ ev = .checked l true
  drained : ∀ t, Drained t p.shared.trace → p.shared.executing t = 0
  starts : ∀ t, NeverAfter p.shared.trace (Drained t) fun ev ↦ ∃ l m, l.token = t ∧ ev = .invoked l m

theorem Drained.append {t : ℕ} {tr : List BusEvent} (h : Drained t tr) (tr' : List BusEvent) :
    Drained t (tr ++ tr') := by
  obtain ⟨pre, post, rfl, hoff⟩ := h
  exact ⟨pre, post ++ tr', by simp, hoff⟩

/-- What drains a token is `event_message_token_drain`. -/
theorem drained_concat {t : ℕ} {tr : List BusEvent} {ev : BusEvent} (h : Drained t (tr ++ [ev])) :
    Drained t tr ∨ ev = .drainReturned t ∧ .offReturned t ∈ tr := by
  obtain ⟨pre, post, htr, hoff⟩ := h
  rcases List.eq_nil_or_concat post with rfl | ⟨post, ev', rfl⟩
  · obtain ⟨rfl, hev⟩ := List.append_inj' htr rfl
    exact .inr ⟨List.singleton_inj.mp hev, hoff⟩
  · rw [List.concat_eq_append, ← List.cons_append, ← List.append_assoc] at htr
    obtain ⟨rfl, -⟩ := List.append_inj' htr rfl
    exact .inl ⟨pre, post, rfl, hoff⟩

theorem BusThread.executes_of_plain {u : BusThread} (h : u.plain = true) (t : ℕ) :
    u.executes t = false := by
  cases u <;> first | rfl | cases h

theorem BusThread.executes_of_start {u : BusThread} (h : u.start = true) (t : ℕ) :
    u.executes t = false := by
  cases u <;> first | rfl | cases h

theorem Drained.off {t : ℕ} {tr : List BusEvent} (h : Drained t tr) : .offReturned t ∈ tr := by
  obtain ⟨pre, post, rfl, hoff⟩ := h
  exact List.mem_append_left _ hoff

/-- Only the callbacks of message listeners are executed this way. -/
theorem isMessage_of_executes {s : BusState} {u : BusThread} (hu : ThreadInv s u) {t : ℕ}
    (h : u.executes t = true) : IsMessage s.bus t := by
  cases u with
  | invoke l m => exact beq_iff_eq.mp h ▸ hu
  | running l => exact beq_iff_eq.mp h ▸ hu
  | _ => cases h

section Step

variable {p p' : Pool BusState BusThread} (hp : MessageInv p)
include hp

/-- Whoever executes has been counted in. -/
theorem MessageInv.pos {u : BusThread} (hu : u ∈ p.threads) {t : ℕ} (h : u.executes t = true) :
    0 < p.shared.executing t := by
  rw [hp.executing]
  exact List.countP_pos_iff.mpr ⟨u, hu, h⟩

/-- A thread runs: it is counted for what it becomes, and what it adds to the trace is no
invocation or admission that comes too late. -/
theorem MessageInv.run {i : ℕ} {u : BusThread} {ts : List BusThread}
    (hu : p.threads[i]? = some u) (hthreads : p'.threads = p.threads.eraseIdx i ++ ts)
    (hexec : ∀ t, p'.shared.executing t + [u].countP (·.executes t)
      = p.shared.executing t + ts.countP (·.executes t))
    (htrace : p'.shared.trace = p.shared.trace ∨ ∃ ev, p'.shared.trace = p.shared.trace ++ [ev] ∧
      (∀ l, ev = .checked l true → .offReturned l.token ∉ p.shared.trace) ∧
      ∀ l m, ev = .invoked l m → ¬ Drained l.token p.shared.trace)
    (hdrained : ∀ t, Drained t p'.shared.trace → p'.shared.executing t = 0) : MessageInv p' := by
  refine ⟨fun t ↦ ?_, fun t ↦ ?_, hdrained, fun t ↦ ?_⟩
  · have hcount := countP_of_run (·.executes t) ts hu
    have := hexec t
    have := hp.executing t
    rw [hthreads]
    omega
  · rcases htrace with htrace | ⟨ev, htrace, hcheck, -⟩
    · exact htrace ▸ hp.checks t
    · rw [htrace]
      refine (hp.checks t).concat (fun l l' ↦ List.mem_append_left l') ?_
      rintro hoff ⟨l, rfl, hev⟩
      exact hcheck l hev hoff
  · rcases htrace with htrace | ⟨ev, htrace, -, hinvoke⟩
    · exact htrace ▸ hp.starts t
    · rw [htrace]
      refine (hp.starts t).concat (fun l l' h ↦ h.append l') ?_
      rintro hdrained ⟨l, m, rfl, hev⟩
      exact hinvoke l m hev hdrained

/-- What a thread adds to the trace is of no concern to the deliveries. -/
theorem MessageInv.observe {i : ℕ} {u : BusThread} {ts : List BusThread} {ev : BusEvent}
    (hu : p.threads[i]? = some u) (hthreads : p'.threads = p.threads.eraseIdx i ++ ts)
    (hcount : ∀ t, [u].countP (·.executes t) = ts.countP (·.executes t))
    (hexec : p'.shared.executing = p.shared.executing)
    (htrace : p'.shared.trace = p.shared.trace ++ [ev]) (hev : ev.aside = true) :
    MessageInv p' := by
  refine hp.run hu hthreads (fun t ↦ by rw [hexec, hcount]) (.inr ⟨ev, htrace, ?_, ?_⟩) fun t ht ↦ ?_
  · rintro l rfl
    cases hev
  · rintro l m rfl
    cases hev
  · rw [hexec]
    rw [htrace] at ht
    refine hp.drained t ((drained_concat ht).resolve_right ?_)
    rintro ⟨rfl, -⟩
    cases hev

/-- **Every step keeps the count**, and lets nobody through to a callback that was unregistered. -/
theorem MessageInv.step (hpool : PoolInv dictHash p) {a : Action BusThread}
    (h : busStep dictHash p a = some p') : MessageInv p' := by
  cases a with
  | spawn u =>
    obtain ⟨hstart, rfl⟩ := step_spawn h
    refine ⟨fun t ↦ ?_, hp.checks, hp.drained, hp.starts⟩
    rw [List.countP_append, List.countP_singleton, u.executes_of_start hstart t, hp.executing]
    rfl
  | run i =>
    obtain ⟨u, ts, hu, hrun, hthreads⟩ := step_run h
    have hmem := List.mem_of_getElem? hu
    obtain ⟨-, -, heffect⟩ := busRun_step hpool.state (hpool.threads u hmem) hrun
    obtain ⟨s', threads⟩ := p'
    dsimp only at hthreads heffect
    cases heffect with
    | silent bus created hplain hts hinactive =>
      refine hp.run hu hthreads (fun t ↦ ?_) (.inl rfl) hp.drained
      rw [List.countP_singleton, u.executes_of_plain hplain t,
        List.countP_eq_zero.mpr fun v hv ↦ by simp [v.executes_of_plain (hts v hv) t]]
      rfl
    | found t hinactive => exact hp.observe hu hthreads (fun _ ↦ rfl) rfl rfl rfl
    | off t hoff => exact hp.observe hu hthreads (fun _ ↦ rfl) rfl rfl rfl
    | snapshot e event heq =>
      refine hp.run hu hthreads (fun t ↦ ?_) (.inl rfl) hp.drained
      rcases heq with ⟨rfl, -⟩ | ⟨rfl, -⟩ <;> rfl
    | skip e l ls => exact hp.run hu hthreads (fun _ ↦ rfl) (.inl rfl) hp.drained
    | call e l ls hd => exact hp.observe hu hthreads (fun _ ↦ rfl) rfl rfl rfl
    | queue e l ls => exact hp.run hu hthreads (fun _ ↦ rfl) (.inl rfl) hp.drained
    | run l e => exact hp.observe hu hthreads (fun _ ↦ rfl) rfl rfl rfl
    | turnedAway l m => exact hp.observe hu hthreads (fun _ ↦ rfl) rfl rfl rfl
    | admitted l m hactive =>
      refine hp.run hu hthreads (fun t ↦ ?_)
        (.inr ⟨_, rfl, fun l' hl' hoff ↦ ?_, fun l m hl ↦ (by cases hl)⟩) fun t ht ↦ ?_
      · by_cases ht : t = l.token
        · subst ht
          simp [BusThread.executes]
        · simp [BusThread.executes, Function.update_of_ne ht, Ne.symm ht]
      · obtain rfl : l = l' := by simpa using hl'
        exact hactive (hpool.state.off _ hoff)
      · have hd := (drained_concat ht).resolve_right fun h ↦ by cases h.1
        have hne : t ≠ l.token := by
          rintro rfl
          exact hactive (hpool.state.off _ hd.off)
        exact (Function.update_of_ne hne _ _).trans (hp.drained t hd)
    | invoked l m =>
      refine hp.run hu hthreads (fun _ ↦ rfl)
        (.inr ⟨_, rfl, fun l hl ↦ (by cases hl), fun l' m' hl' hd ↦ ?_⟩) fun t ht ↦
          hp.drained t ((drained_concat ht).resolve_right fun h ↦ by cases h.1)
      obtain ⟨rfl, rfl⟩ : l = l' ∧ m = m' := by simpa using hl'
      have hpos := hp.pos hmem (t := l.token) (by simp [BusThread.executes])
      exact absurd (hp.drained _ hd) (Nat.ne_of_gt hpos)
    | returned l =>
      have hpos := hp.pos hmem (t := l.token) (by simp [BusThread.executes])
      refine hp.run hu hthreads (fun t ↦ ?_) (.inl rfl) fun t ht ↦ ?_
      · by_cases ht : t = l.token
        · subst ht
          simp only [Function.update_self, BusThread.executes, beq_self_eq_true,
            List.countP_singleton, if_true, List.countP_nil]
          omega
        · simp [BusThread.executes, Function.update_of_ne ht, Ne.symm ht]
      · have hzero := hp.drained t ht
        show Function.update p.shared.executing l.token _ t = 0
        rw [Function.update_apply]
        split
        · rename_i heq
          rw [← heq, hzero]
        · exact hzero
    | drained t hidle =>
      refine hp.run hu hthreads (fun _ ↦ rfl)
        (.inr ⟨_, rfl, fun l hl ↦ (by cases hl), fun l m hl ↦ (by cases hl)⟩) fun t' ht' ↦ ?_
      rcases drained_concat ht' with ht' | ⟨heq, -⟩
      · exact hp.drained t' ht'
      · obtain rfl : t = t' := by simpa using heq
        by_contra hne
        have hpos : 0 < p.threads.countP (·.executes t) :=
          hp.executing t ▸ Nat.pos_of_ne_zero hne
        obtain ⟨v, hv, hexec⟩ := List.countP_pos_iff.mp hpos
        exact hne (hidle (isMessage_of_executes (hpool.threads v hv) hexec))

end Step

theorem messageInv_idleBus : MessageInv idleBus := by
  have hnil : ∀ t, ¬ Drained t [] := by
    rintro t ⟨pre, post, h, -⟩
    simp at h
  exact ⟨fun _ ↦ rfl, fun _ ↦ neverAfter_nil, fun t ht ↦ absurd ht (hnil t), fun _ ↦ neverAfter_nil⟩

theorem busRun_deliver_of_inactive {s : BusState} {l : MessageListener} {m : EventMessage}
    (h : s.bus.Inactive l.token) :
    busRun dictHash s (.deliver l m) = some (s.observe (.checked l false), []) := by
  obtain ⟨token, ht, hact⟩ := h
  simp [busRun, ht, hact]

/-- What unregistering a message listener is meant to achieve. -/
structure Unsubscribed (dictHash : CStr → UInt32) (p : Pool BusState BusThread) (t : ℕ) : Prop where
  /-- After `event_off_token` has returned, a delivery that looks at the token ends there. -/
  ends : .offReturned t ∈ p.shared.trace → ∀ i l m p', p.threads[i]? = some (.deliver l m) →
    l.token = t → busStep dictHash p (.run i) = some p' →
      p' = ⟨p.shared.observe (.checked l false), p.threads.eraseIdx i⟩
  /-- None has found it active since. -/
  checks : NeverAfter p.shared.trace (.offReturned t ∈ ·)
    fun ev ↦ ∃ l, l.token = t ∧ ev = .checked l true
  /-- After `event_message_token_drain` has returned as well, no callback has been called. -/
  starts : NeverAfter p.shared.trace (Drained t) fun ev ↦ ∃ l m, l.token = t ∧ ev = .invoked l m
  /-- None is running, or about to. -/
  idle : Drained t p.shared.trace → ∀ u ∈ p.threads, u.executes t = false

/-- **Unregistering a message listener is final**, in every interleaving of the calls of any number
of threads. -/
theorem unsubscribed_of_runSteps (cs : List (Action BusThread)) (p : Pool BusState BusThread)
    (h : runSteps (busStep dictHash) idleBus cs = some p) (t : ℕ) : Unsubscribed dictHash p t := by
  obtain ⟨hpool, hmessage⟩ : PoolInv dictHash p ∧ MessageInv p :=
    inv_of_runSteps (I := fun p ↦ PoolInv dictHash p ∧ MessageInv p)
      ⟨poolInv_idleBus, messageInv_idleBus⟩
      (fun _ _ _ hp hstep ↦ ⟨hp.1.step hstep, hp.2.step hp.1 hstep⟩) cs p h
  refine ⟨fun hoff i l m p' hi hl hstep ↦ ?_, hmessage.checks t, hmessage.starts t,
    fun hdrained u hu ↦ ?_⟩
  · obtain ⟨u, ts, hu, hrun, hthreads⟩ := step_run hstep
    obtain rfl : u = .deliver l m := Option.some_inj.mp (hu.symm.trans hi)
    rw [busRun_deliver_of_inactive (hl ▸ hpool.state.off t hoff), Option.some_inj,
      Prod.mk.injEq] at hrun
    obtain ⟨hshared, rfl⟩ := hrun
    rw [List.append_nil] at hthreads
    rw [hshared, ← hthreads]
  · cases hexec : u.executes t with
    | false => rfl
    | true =>
      have hpos := hmessage.pos hu hexec
      exact absurd (hmessage.drained t hdrained) (Nat.ne_of_gt hpos)

/-- A message is on its way to its listener when the listener is unregistered. -/
def lateDelivery : List (Action BusThread) :=
  [.spawn (.call (.onMessageToken (some [109]) 7 3 9 0)), .run 0,
    .spawn (.emitMessage ⟨[109], none, [1, 2], 0⟩), .run 0, .run 0, .run 1,
    .spawn (.off 0), .run 1, .run 1, .spawn (.drain 0), .run 1]

theorem unsubscribed_lateDelivery : ∃ p,
    runSteps (busStep dictHashMurmur) idleBus lateDelivery = some p ∧
      p.shared.trace = [.offReturned 0, .drainReturned 0] ∧ p.threads.length = 1 ∧
      Unsubscribed dictHashMurmur p 0 := by
  have hrun : (runSteps (busStep dictHashMurmur) idleBus lateDelivery).map
      (fun p ↦ (p.shared.trace, p.threads.length)) = some ([.offReturned 0, .drainReturned 0], 1) := by
    decide
  obtain ⟨p, hp, hseen⟩ := Option.map_eq_some_iff.mp hrun
  obtain ⟨htrace, hlen⟩ := Prod.mk.injEq .. ▸ hseen
  exact ⟨p, hp, htrace, hlen, unsubscribed_of_runSteps lateDelivery p hp 0⟩

/-! ## Other listeners -/

/-- The listeners a thread carries a copy of. -/
def BusThread.carried : BusThread → List Listener
  | .fire _ ls => ls
  | .queued l _ => [l]
  | _ => []

/-- Once `event_off_token` has returned for a token, its callback is not called again. -/
def Finished (p : Pool BusState BusThread) : Prop :=
  ∀ (t : ℕ) (token : EventToken), p.shared.bus.eventTokens[t]? = some token →
    token.message = false → NeverAfter p.shared.trace (.offReturned t ∈ ·)
      fun ev ↦ ∃ l e, l.registration = token.registration ∧ ev = .started l e

/-- An active token for a listener is about to be unregistered, but a thread has a copy of the
listener with it, or it is not the token's own that will come off the list. -/
def offTooEarly (p : Pool BusState BusThread) : Action BusThread → Bool
  | .spawn _ => false
  | .run i =>
    match p.threads[i]? with
    | some (.offLocked t) => (p.shared.bus.eventTokens[t]?).any fun token ↦
        token.active && !token.message &&
          (p.threads.any (fun u ↦ u.carried.any (·.registration == token.registration)) ||
            ((p.shared.bus.regs token.event token.binary).eraseP token.looksLike).any
              (·.registration == token.registration))
    | _ => false

/-- The number of a registration whose token has been unregistered. -/
def EventBus.Dead (s : EventBus) (r : ℕ) : Prop :=
  ∃ (t : ℕ) (token : EventToken), s.eventTokens[t]? = some token ∧ token.message = false ∧
    token.active = false ∧ token.registration = r

/-- What is dead is neither on a list nor on its way. -/
structure FinishedInv (p : Pool BusState BusThread) : Prop where
  regs : ∀ r, p.shared.bus.Dead r → ∀ ev b, ∀ l ∈ p.shared.bus.regs ev b, l.registration ≠ r
  threads : ∀ u ∈ p.threads, ∀ l ∈ u.carried, ¬ p.shared.bus.Dead l.registration
  finished : Finished p

theorem BusThread.carried_of_plain {u : BusThread} (h : u.plain = true) : u.carried = [] := by
  cases u with
  | fire e ls => cases ls <;> first | rfl | cases h
  | queued l e => cases h
  | _ => rfl

theorem BusThread.carried_of_start {u : BusThread} (h : u.start = true) : u.carried = [] := by
  cases u <;> first | rfl | cases h

/-- A section that deactivates no token kills no registration. -/
theorem EventBus.Dead.of_step {s s' : EventBus} (h : BusStep s s')
    (hinactive : ∀ t, s'.Inactive t → s.Inactive t) {r : ℕ} (hr : s'.Dead r) : s.Dead r := by
  obtain ⟨t, token', ht', hmsg, hact, rfl⟩ := hr
  obtain ⟨token, ht, hact'⟩ := hinactive t ⟨token', ht', hact⟩
  obtain ⟨token₁, ht₁, hsurvives, -⟩ := h.tokens t token ht
  obtain rfl : token' = token₁ := Option.some_inj.mp (ht'.symm.trans ht₁)
  rw [hsurvives] at hmsg ⊢
  exact ⟨t, token, ht, hmsg, hact', rfl⟩

/-- `event_off_token` kills one. -/
theorem EventBus.Dead.of_off {s s' : EventBus} (hs : StoreOk dictHash s) {t : ℕ}
    (h : offTokenLocked dictHash s t = some s') {r : ℕ} (hr : s'.Dead r) :
    s.Dead r ∨ ∃ token, s.eventTokens[t]? = some token ∧ token.message = false ∧
      token.active = true ∧ token.registration = r := by
  obtain ⟨-, s₁, rfl, -, htokens, -⟩ := offTokenLocked_step hs h
  obtain ⟨t', token', ht', hmsg, hact, rfl⟩ := hr
  rw [getElem?_modify_deactivate, htokens] at ht'
  obtain ⟨token, ht, rfl⟩ := Option.map_eq_some_iff.mp ht'
  by_cases htt : t = t'
  · subst htt
    rw [if_pos rfl] at hmsg ⊢
    cases hact' : token.active with
    | false => exact .inl ⟨t, token, ht, hmsg, hact', rfl⟩
    | true => exact .inr ⟨token, ht, hmsg, hact', rfl⟩
  · rw [if_neg htt] at hmsg hact ⊢
    exact .inl ⟨t', token, ht, hmsg, hact, rfl⟩

/-- What a call of `event_off_token` that is not too early kills is nowhere. -/
theorem gone_of_off {p : Pool BusState BusThread} (hpool : PoolInv dictHash p) {i t : ℕ}
    (hu : p.threads[i]? = some (.offLocked t))
    (hbad : offTooEarly p (.run i) = false) {bus : EventBus}
    (hoff : offTokenLocked dictHash p.shared.bus t = some bus) {r : ℕ} (hr : bus.Dead r) :
    p.shared.bus.Dead r ∨ (∀ ev b, ∀ l ∈ bus.regs ev b, l.registration ≠ r) ∧
      ∀ v ∈ p.threads, ∀ l ∈ v.carried, l.registration ≠ r := by
  rcases hr.of_off hpool.state.store hoff with hr | ⟨token, ht, hmsg, hact, rfl⟩
  · exact .inl hr
  · obtain ⟨hcarried, hkept⟩ := by simpa [offTooEarly, hu, ht, hmsg, hact] using hbad
    refine .inr ⟨fun ev b l hl hreg ↦ ?_, hcarried⟩
    rcases offTokenLocked_spec hpool.state.store ht hmsg with
      ⟨-, hnone⟩ | ⟨-, s₁, hs₁, -, -, hregs⟩
    · rw [hnone] at hoff
      cases hoff
    · obtain rfl : deactivate s₁ t = bus := Option.some_inj.mp (hs₁.symm.trans hoff)
      rw [deactivate_regs, hregs] at hl
      split at hl
      · exact hkept l hl hreg
      · rename_i hne
        exact hne ((hpool.state.issued t token ht).2 hmsg ev b l hl hreg)

section Step

variable {p p' : Pool BusState BusThread} (hp : FinishedInv p)
include hp

/-- A thread runs: what it kills is nowhere, and what it has called it had with it. -/
theorem FinishedInv.run (hI : BusInv dictHash p.shared)
    {i : ℕ} {u : BusThread} {ts : List BusThread}
    (hstep : StateStep dictHash u p.shared p'.shared) (hu : p.threads[i]? = some u)
    (hthreads : p'.threads = p.threads.eraseIdx i ++ ts)
    (hdead : ∀ r, p'.shared.bus.Dead r → p.shared.bus.Dead r ∨
      (∀ ev b, ∀ l ∈ p'.shared.bus.regs ev b, l.registration ≠ r) ∧
        ∀ v ∈ p.threads, ∀ l ∈ v.carried, l.registration ≠ r)
    (hnew : ∀ v ∈ ts, ∀ l ∈ v.carried, ¬ p'.shared.bus.Dead l.registration)
    (htrace : p'.shared.trace = p.shared.trace ∨ ∃ ev, p'.shared.trace = p.shared.trace ++ [ev] ∧
      ∀ l e, ev = .started l e → l ∈ u.carried) : FinishedInv p' := by
  refine ⟨fun r hr ev b l' hl' ↦ ?_, fun v hv l hl hdead' ↦ ?_, fun t token' ht' hmsg ↦ ?_⟩
  · rcases hdead r hr with hr | ⟨hgone, -⟩
    · rcases hstep.bus.regs ev b l' hl' with ⟨l, hl, hsurvives⟩ | ⟨hnew, -⟩
      · exact hsurvives.registration ▸ hp.regs r hr ev b l hl
      · obtain ⟨t, token, ht, -, -, rfl⟩ := hr
        exact hnew ▸ Nat.ne_of_gt (hI.issued t token ht).1
    · exact hgone ev b l' hl'
  · rw [hthreads] at hv
    rcases List.mem_append.mp hv with hv | hv
    · have hmem := List.mem_of_mem_eraseIdx hv
      rcases hdead _ hdead' with hr | ⟨-, hgone⟩
      · exact hp.threads v hmem l hl hr
      · exact hgone v hmem l hl rfl
    · exact hnew v hv l hl hdead'
  · have hold : NeverAfter p.shared.trace (.offReturned t ∈ ·)
        fun ev ↦ ∃ l e, l.registration = token'.registration ∧ ev = .started l e := by
      cases ht : p.shared.bus.eventTokens[t]? with
      | some token =>
        obtain ⟨token₁, ht₁, hsurvives, -⟩ := hstep.bus.tokens t token ht
        obtain rfl : token' = token₁ := Option.some_inj.mp (ht'.symm.trans ht₁)
        rw [hsurvives] at hmsg ⊢
        exact hp.finished t token ht hmsg
      | none =>
        -- no call has returned for a token that has only just been issued
        rintro pre post htr hoff
        obtain ⟨token, ht₁, -⟩ := hI.off t (htr ▸ List.mem_append_left post hoff)
        rw [ht] at ht₁
        cases ht₁
    rcases htrace with htrace | ⟨ev, htrace, hev⟩
    · exact htrace ▸ hold
    · rw [htrace]
      refine hold.concat (fun l l' ↦ List.mem_append_left l') ?_
      rintro hoff ⟨l, e, hreg, hst⟩
      obtain ⟨token, ht, hact⟩ := hI.off t hoff
      obtain ⟨token₁, ht₁, hsurvives, -⟩ := hstep.bus.tokens t token ht
      obtain rfl : token' = token₁ := Option.some_inj.mp (ht'.symm.trans ht₁)
      rw [hsurvives] at hmsg hreg
      exact hp.threads u (List.mem_of_getElem? hu) l (hev l e hst)
        ⟨t, token, ht, hmsg, hact, hreg.symm⟩

/-- **Every step but a call of `event_off_token` that is too early** keeps the dead out. -/
theorem FinishedInv.step (hpool : PoolInv dictHash p) {a : Action BusThread}
    (hbad : offTooEarly p a = false) (h : busStep dictHash p a = some p') : FinishedInv p' := by
  cases a with
  | spawn u =>
    obtain ⟨hstart, rfl⟩ := step_spawn h
    refine ⟨hp.regs, fun v hv ↦ ?_, hp.finished⟩
    rcases List.mem_append.mp hv with hv | hv
    · exact hp.threads v hv
    · obtain rfl := List.mem_singleton.mp hv
      simp [v.carried_of_start hstart]
  | run i =>
    obtain ⟨u, ts, hu, hrun, hthreads⟩ := step_run h
    have hmem := List.mem_of_getElem? hu
    obtain ⟨hstep, -, heffect⟩ := busRun_step hpool.state (hpool.threads u hmem) hrun
    obtain ⟨s', threads⟩ := p'
    dsimp only at hthreads hstep heffect
    have hcarried := hp.threads u hmem
    cases heffect with
    | silent bus created hplain hts hinactive =>
      refine hp.run hpool.state hstep hu hthreads (fun r hr ↦ .inl (hr.of_step hstep.bus hinactive))
        (fun v hv l hl ↦ ?_) (.inl rfl)
      rw [v.carried_of_plain (hts v hv)] at hl
      cases hl
    | found t hinactive =>
      exact hp.run hpool.state hstep hu hthreads (fun r hr ↦ .inl hr) (by simp)
        (.inr ⟨_, rfl, fun l e hl ↦ (by cases hl)⟩)
    | off t hoff =>
      exact hp.run hpool.state hstep hu hthreads (fun r hr ↦ gone_of_off hpool hu hbad hoff hr)
        (by simp) (.inr ⟨_, rfl, fun l e hl ↦ (by cases hl)⟩)
    | snapshot e event heq =>
      refine hp.run hpool.state hstep hu hthreads (fun r hr ↦ .inl hr) (fun v hv l hl hr ↦ ?_)
        (.inl rfl)
      obtain rfl := List.mem_singleton.mp hv
      exact hp.regs _ hr _ _ l hl rfl
    | skip e l ls =>
      refine hp.run hpool.state hstep hu hthreads (fun r hr ↦ .inl hr) (fun v hv l' hl' ↦ ?_)
        (.inl rfl)
      obtain rfl := List.mem_singleton.mp hv
      exact hcarried l' (List.mem_cons_of_mem l hl')
    | call e l ls hd =>
      refine hp.run hpool.state hstep hu hthreads (fun r hr ↦ .inl hr) (fun v hv l' hl' ↦ ?_)
        (.inr ⟨_, rfl, fun l' e' heq ↦ ?_⟩)
      · obtain rfl := List.mem_singleton.mp hv
        exact hcarried l' (List.mem_cons_of_mem l hl')
      · obtain ⟨rfl, rfl⟩ : l = l' ∧ e = e' := by simpa using heq
        exact List.mem_cons_self
    | queue e l ls =>
      refine hp.run hpool.state hstep hu hthreads (fun r hr ↦ .inl hr) (fun v hv l' hl' ↦ ?_)
        (.inl rfl)
      rcases List.mem_cons.mp hv with rfl | hv
      · exact List.mem_singleton.mp hl' ▸ hcarried l List.mem_cons_self
      · obtain rfl := List.mem_singleton.mp hv
        exact hcarried l' (List.mem_cons_of_mem l hl')
    | run l e =>
      refine hp.run hpool.state hstep hu hthreads (fun r hr ↦ .inl hr) (by simp)
        (.inr ⟨_, rfl, fun l' e' heq ↦ ?_⟩)
      obtain ⟨rfl, rfl⟩ : l = l' ∧ e = e' := by simpa using heq
      exact List.mem_cons_self
    | turnedAway l m =>
      exact hp.run hpool.state hstep hu hthreads (fun r hr ↦ .inl hr) (by simp)
        (.inr ⟨_, rfl, fun l e hl ↦ (by cases hl)⟩)
    | admitted l m hactive =>
      exact hp.run hpool.state hstep hu hthreads (fun r hr ↦ .inl hr)
        (by simp [BusThread.carried]) (.inr ⟨_, rfl, fun l e hl ↦ (by cases hl)⟩)
    | invoked l m =>
      exact hp.run hpool.state hstep hu hthreads (fun r hr ↦ .inl hr)
        (by simp [BusThread.carried]) (.inr ⟨_, rfl, fun l e hl ↦ (by cases hl)⟩)
    | returned l =>
      exact hp.run hpool.state hstep hu hthreads (fun r hr ↦ .inl hr) (by simp) (.inl rfl)
    | drained t hidle =>
      exact hp.run hpool.state hstep hu hthreads (fun r hr ↦ .inl hr) (by simp)
        (.inr ⟨_, rfl, fun l e hl ↦ (by cases hl)⟩)

end Step

theorem finishedInv_idleBus : FinishedInv idleBus := by
  refine ⟨fun r _ ev b l hl ↦ ?_, fun u hu ↦ ?_, fun t token _ _ ↦ neverAfter_nil⟩
  · cases hl
  · cases hu

/-- **When unregistering is final.**  In a run in which no token is unregistered while a thread has
a copy of its listener, and each takes its own listener off the list, no callback is called once
`event_off_token` has returned for its token. -/
theorem finished_of_noStep (cs : List (Action BusThread))
    (h : NoStep (busStep dictHash) idleBus cs fun p a ↦ offTooEarly p a = true) :
    Always (busStep dictHash) idleBus cs Finished := by
  have hinv := inv_of_noStep (I := fun p ↦ PoolInv dictHash p ∧ FinishedInv p)
    ⟨poolInv_idleBus, finishedInv_idleBus⟩
    (fun _ _ _ hp hbad hstep ↦
      ⟨hp.1.step hstep, hp.2.step hp.1 (Bool.eq_false_of_not_eq_true hbad) hstep⟩) h
  exact fun cs' p hpre hp ↦ (hinv cs' p hpre hp).2.finished

/-- A listener is emitted to, and unregistered when that is over. -/
def orderlyOff : List (Action BusThread) :=
  [.spawn (.call (.onToken .ok (some [101]) 1 10 0 0)), .run 0,
    .spawn (.emit ⟨false, [101], 0, none, 0⟩), .run 0, .run 0, .run 0,
    .spawn (.off 0), .run 0, .run 0, .spawn (.emit ⟨false, [101], 0, none, 0⟩), .run 0, .run 0]

theorem finished_orderlyOff : Always (busStep dictHashMurmur) idleBus orderlyOff Finished :=
  finished_of_noStep orderlyOff (noStep_of_checkSteps (by decide))

/-- Two listeners of one event.  While the first one's callback is running, the second is
unregistered. -/
def offInCallback : List (Action BusThread) :=
  [.spawn (.call (.onToken .ok (some [101]) 1 10 0 0)), .run 0,
    .spawn (.call (.onToken .ok (some [101]) 2 20 0 0)), .run 0,
    .spawn (.emit ⟨false, [101], 0, none, 0⟩), .run 0, .run 0,
    .spawn (.off 1), .run 1, .run 1, .run 0]

theorem not_finished_offInCallback : ∃ p,
    runSteps (busStep dictHashMurmur) idleBus offInCallback = some p ∧ ¬ Finished p := by
  have hrun : (runSteps (busStep dictHashMurmur) idleBus offInCallback).map
      (fun p ↦ (p.shared.trace, p.shared.bus.eventTokens[1]?))
        = some ([.started ⟨1, 10, 0, 0, false, 0⟩ ⟨false, [101], 0, none, 0⟩, .offReturned 1,
            .started ⟨2, 20, 0, 0, false, 1⟩ ⟨false, [101], 0, none, 0⟩],
          some ⟨[101], false, 2, 20, 2, false, false, 1⟩) := by
    decide
  obtain ⟨p, hp, hseen⟩ := Option.map_eq_some_iff.mp hrun
  obtain ⟨htrace, htoken⟩ := Prod.mk.injEq .. ▸ hseen
  refine ⟨p, hp, fun h ↦ ?_⟩
  refine h 1 _ htoken rfl [_, .offReturned 1] [_] htrace (by simp) _ (List.mem_singleton_self _) ?_
  exact ⟨_, _, rfl, rfl⟩

end Rustyaxe
