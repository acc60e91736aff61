import Rustyaxe.Event.Calls
import Rustyaxe.Lib.Activations

/-!
# Emissions whose callbacks use the bus

`event_emit` takes its snapshot and calls back; a callback may register and unregister, and it may
emit, so that emissions nest.  Here one thread runs as a stack of the emissions that are in progress
and of the callbacks they have called.  What a callback does is not fixed in advance: while one is
on top of the stack, or nothing is, any call may come next.

A dispatcher is a function as well, and when it is handed an event it may do whatever a callback
may.  What it is handed goes into `deliveries` like what a callback is called with.  `calls` is not
the source's: it has what each emission was called with, and the registry at that moment.
-/

set_option autoImplicit false

namespace Rustyaxe

open Runs Activations

/-! ## The thread -/

/-- What a listener is called with, or what its dispatcher is handed. -/
def Emission.handedTo (e : Emission) (l : Listener) : Emission :=
  if l.dispatch = 0 then e else e.queued l

/-- What is on the stack. -/
inductive EmitFrame where
  /-- `event_emit`, in one of its loops, with what is left of the snapshot. -/
  | firing (n : ℕ) (e : Emission) (rest : List Listener)
  /-- A callback or a dispatcher. -/
  | callback

/-- `stuck` says that the thread is in a lookup that never returns. -/
structure EmitState where
  bus : EventBus
  stack : List EmitFrame
  calls : List (EventBus × Emission)
  deliveries : List (ℕ × Listener × Emission)
  stuck : Bool

/-- What the thread does next. -/
inductive EmitAction where
  /-- A callback, or the program outside of all emissions, calls the registry. -/
  | call (c : EventCall)
  /-- It calls `event_emit`. -/
  | emit (event : Option CStr) (cptr : ℕ) (data : Option CStr)
  /-- `event_emit` goes on, with the next listener or by returning. -/
  | fire
  /-- The callback returns. -/
  | done

/-- Before any emission. -/
def emitStart (s : EventBus) : EmitState := ⟨s, [], [], [], false⟩

/-- The thread runs code that is not `event_emit`. -/
def EmitState.free (s : EmitState) : Bool :=
  !s.stuck && match s.stack with
    | .firing .. :: _ => false
    | _ => true

section Emit

variable (dictHash : CStr → UInt32)

/-- The two sections of `event_emit`.  Nothing of the thread comes between them. -/
def eventEmitSnapshot (s : EventBus) (event : CStr) : Option (List Listener) := do
  let snapshot ← eventSnapshot dictHash s false event
  if snapshot ≠ [] then return snapshot
  eventSnapshot dictHash s false eventNomatch

/-- One step of the thread; `none` is an action that is not possible. -/
def emitStep (s : EmitState) : EmitAction → Option EmitState
  | .call c =>
    if s.free = true ∧ c.issued s.bus = true then
      match eventCall dictHash s.bus c with
      | none => some { s with stuck := true }
      | some bus => some { s with bus := bus }
    else none
  | .emit event cptr data =>
    if s.free = true then
      match event with
      | none => some s
      | some event =>
        let e : Emission := ⟨false, event, cptr, data, 0⟩
        let calls := s.calls ++ [(s.bus, e)]
        match eventEmitSnapshot dictHash s.bus event with
        | none => some { s with calls := calls, stuck := true }
        | some snapshot =>
          some { s with calls := calls, stack := .firing s.calls.length e snapshot :: s.stack }
    else none
  | .fire =>
    if s.stuck then none
    else match s.stack with
      | .firing _ _ [] :: fs => some { s with stack := fs }
      | .firing n e (l :: ls) :: fs =>
        if l.cb = 0 then some { s with stack := .firing n e ls :: fs }
        else some { s with
          stack := .callback :: .firing n e ls :: fs
          deliveries := s.deliveries ++ [(n, l, e.handedTo l)] }
      | _ => none
  | .done =>
    if s.stuck then none
    else match s.stack with
      | .callback :: fs => some { s with stack := fs }
      | _ => none

end Emit

/-! ## What is delivered -/

/-- Whom an emission of the event owes a delivery: its text listeners, or if there are none those of
`EVENT_NOMATCH`. -/
def EventBus.notified (s : EventBus) (event : CStr) : List Listener :=
  if s.regs event false ≠ [] then s.regs event false else s.regs eventNomatch false

/-- What a call of `event_emit` owes, in order. -/
def owed (c : EventBus × Emission) : List (Listener × Emission) :=
  (c.1.notified c.2.event).map fun l ↦ (l, c.2.handedTo l)

/-- What an emission on the stack still has to deliver. -/
def EmitFrame.activation : EmitFrame → Option (ℕ × List (Listener × Emission))
  | .firing n e rest => some (n, rest.map fun l ↦ (l, e.handedTo l))
  | .callback => none

/-- What emission `n` is going to deliver: nothing once it has returned, or when the thread is
stuck. -/
def EmitState.pending (s : EmitState) (n : ℕ) : List (Listener × Emission) :=
  if s.stuck then [] else left (s.stack.filterMap EmitFrame.activation) n

/-- What each emission has delivered, followed by what it is going to deliver, is what it owed at
the moment of its call. -/
def EmitState.DeliversSnapshots (s : EmitState) : Prop :=
  ∀ n c, s.calls[n]? = some c → handed s.deliveries n ++ s.pending n = owed c

/-- An emission in progress has listeners left. -/
def EmitState.Waiting (s : EmitState) : Prop :=
  ∃ n e rest, .firing n e rest ∈ s.stack ∧ rest ≠ []

/-- The step gets lost in the store while a delivery is owed. -/
def EmitState.LosesDelivery (s : EmitState) : EmitAction → Prop
  | .call c => s.free = true ∧ c.issued s.bus = true ∧ s.Waiting ∧
      ∃ event, c.looksUp s.bus = some event ∧ s.bus.Lost event
  | .emit (some event) _ _ => s.free = true ∧ s.bus.regs event false = [] ∧
      (s.bus.Lost event ∨ s.bus.Lost eventNomatch) ∧
      (s.bus.regs eventNomatch false ≠ [] ∨ s.Waiting)
  | _ => False

variable {dictHash : CStr → UInt32}

/-! ## The snapshot -/

theorem eventSnapshot_none_iff {s : EventBus} (hs : StoreOk dictHash s) (binary : Bool)
    (event : CStr) : eventSnapshot dictHash s binary event = none ↔ s.Lost event := by
  rw [← eventLookup_none_iff hs, eventSnapshot]
  cases hl : eventLookup dictHash s event with
  | none => exact iff_of_true rfl rfl
  | some r =>
    refine iff_of_false ?_ (by simp)
    cases r with
    | none => simp
    | some a =>
      obtain ⟨entry, hentry⟩ := hs.alloc event a (eventLookup_eq hs hl).symm
      simp [hentry]

/-- A lost event has no listeners. -/
theorem regs_of_lost {s : EventBus} (hs : StoreOk dictHash s) {event : CStr} (h : s.Lost event)
    (binary : Bool) : s.regs event binary = [] := by
  by_contra hne
  obtain ⟨l, hl⟩ := List.exists_mem_of_ne_nil _ hne
  obtain ⟨a, ha⟩ := addrOf_of_mem_regs hl
  exact not_lost_of_addrOf hs ha h

/-- **The snapshot of `event_emit`** is taken unless a lookup gets lost, and has the listeners that
the emission owes a delivery. -/
theorem eventEmitSnapshot_cases {s : EventBus} (hs : StoreOk dictHash s) (event : CStr) :
    (s.regs event false = [] ∧ (s.Lost event ∨ s.Lost eventNomatch) ∧
        eventEmitSnapshot dictHash s event = none) ∨
      (¬ (s.regs event false = [] ∧ (s.Lost event ∨ s.Lost eventNomatch)) ∧
        eventEmitSnapshot dictHash s event = some (s.notified event)) := by
  have hsnap : ∀ ev, ¬ s.Lost ev → eventSnapshot dictHash s false ev = some (s.regs ev false) := by
    intro ev hlost
    rw [← eventSnapshot_none_iff hs false] at hlost
    obtain ⟨ls, hls⟩ := Option.ne_none_iff_exists'.mp hlost
    rw [hls, eventSnapshot_spec hs hls]
  rw [eventEmitSnapshot, EventBus.notified]
  by_cases hlost : s.Lost event
  · refine .inl ⟨regs_of_lost hs hlost false, .inl hlost, ?_⟩
    rw [(eventSnapshot_none_iff hs false event).mpr hlost]
    rfl
  · rw [hsnap event hlost, Option.bind_eq_bind, Option.bind_some]
    by_cases hregs : s.regs event false = []
    · by_cases hnomatch : s.Lost eventNomatch
      · refine .inl ⟨hregs, .inr hnomatch, ?_⟩
        simpa [hregs] using (eventSnapshot_none_iff hs false eventNomatch).mpr hnomatch
      · refine .inr ⟨by simp [hlost, hnomatch], ?_⟩
        simpa [hregs] using hsnap eventNomatch hnomatch
    · exact .inr ⟨fun h ↦ hregs h.1, by simp [hregs]⟩

/-! ## The invariant -/

/-- The frames as activations. -/
def EmitState.activations (s : EmitState) : List (ℕ × List (Listener × Emission)) :=
  s.stack.filterMap EmitFrame.activation

variable (dictHash) in
/-- The registry is sound, snapshots have no listener without a callback, and a thread that is not
stuck keeps its accounts. -/
structure EmitOk (s : EmitState) : Prop where
  registry : RegistryOk dictHash s.bus
  callback : ∀ n e rest, .firing n e rest ∈ s.stack → ∀ l ∈ rest, l.cb ≠ 0
  balanced : s.stuck = false → Balanced (s.calls.map owed) s.activations s.deliveries

theorem emitOk_emitStart {s : EventBus} (hs : RegistryOk dictHash s) :
    EmitOk dictHash (emitStart s) :=
  ⟨hs, fun _ _ _ h ↦ absurd h List.not_mem_nil, fun _ ↦ .nil⟩

theorem EmitState.not_stuck_of_free {s : EmitState} (h : s.free = true) : s.stuck = false := by
  rw [EmitState.free, Bool.and_eq_true, Bool.not_eq_true'] at h
  exact h.1

/-- Every listener that is owed a delivery has a callback. -/
theorem RegistryOk.notified_callback {s : EventBus} (hs : RegistryOk dictHash s) (event : CStr) :
    ∀ l ∈ s.notified event, l.cb ≠ 0 := by
  intro l hl
  rw [EventBus.notified] at hl
  split at hl
  · exact hs.callback event false l hl
  · exact hs.callback eventNomatch false l hl

section Step

variable {s s' : EmitState}

theorem EmitOk.call (hs : EmitOk dictHash s) {c : EventCall}
    (h : emitStep dictHash s (.call c) = some s') : EmitOk dictHash s' := by
  rw [emitStep] at h
  split at h
  · split at h
    · obtain rfl := Option.some_inj.mp h
      exact ⟨hs.registry, hs.callback, fun h ↦ by simp at h⟩
    · rename_i bus hbus
      obtain rfl := Option.some_inj.mp h
      exact ⟨hs.registry.eventCall hbus, hs.callback, hs.balanced⟩
  · simp at h

/-- An emission owes what its snapshot holds. -/
theorem EmitOk.emit (hs : EmitOk dictHash s) {event : Option CStr} {cptr : ℕ}
    {data : Option CStr}
    (h : emitStep dictHash s (.emit event cptr data) = some s') : EmitOk dictHash s' := by
  cases event with
  | none =>
    obtain ⟨-, rfl⟩ : s.free = true ∧ s = s' := by simpa [emitStep] using h
    exact hs
  | some event =>
    rw [emitStep] at h
    split at h
    · rename_i hfree
      rcases eventEmitSnapshot_cases hs.registry.store event with ⟨-, -, hnone⟩ | ⟨-, hsome⟩
      · simp only [hnone, Option.some.injEq] at h
        obtain rfl := h
        exact ⟨hs.registry, hs.callback, fun h ↦ by simp at h⟩
      · simp only [hsome, Option.some.injEq] at h
        obtain rfl := h
        refine ⟨hs.registry, fun n e rest hmem ↦ ?_, fun _ ↦ ?_⟩
        · rcases List.mem_cons.mp hmem with heq | hmem
          · obtain ⟨-, -, rfl⟩ := EmitFrame.firing.inj heq
            exact hs.registry.notified_callback event
          · exact hs.callback n e rest hmem
        · have hbal := (hs.balanced (EmitState.not_stuck_of_free hfree)).call
            (owed (s.bus, ⟨false, event, cptr, data, 0⟩))
          rw [List.length_map] at hbal
          rw [List.map_append]
          exact hbal
    · simp at h

/-- A listener that is handed its delivery is owed none any more. -/
theorem EmitOk.fire (hs : EmitOk dictHash s) (h : emitStep dictHash s .fire = some s') :
    EmitOk dictHash s' := by
  rw [emitStep] at h
  split at h
  · simp at h
  · rename_i hstuck
    have hbal := hs.balanced (by simpa using hstuck)
    rw [EmitState.activations] at hbal
    split at h
    · rename_i n e fs hstack
      obtain rfl := Option.some_inj.mp h
      rw [hstack] at hbal
      refine ⟨hs.registry, fun m e' rest hmem ↦ hs.callback m e' rest ?_, fun _ ↦ hbal.finish⟩
      rw [hstack]
      exact List.mem_cons_of_mem _ hmem
    · rename_i n e l ls fs hstack
      have hcb := hs.callback n e (l :: ls) (by rw [hstack]; exact List.mem_cons_self)
      rw [if_neg (hcb l List.mem_cons_self)] at h
      obtain rfl := Option.some_inj.mp h
      rw [hstack] at hbal
      refine ⟨hs.registry, fun m e' rest hmem ↦ ?_, fun _ ↦ hbal.handOut⟩
      rcases List.mem_cons.mp hmem with heq | hmem
      · cases heq
      rcases List.mem_cons.mp hmem with heq | hmem
      · obtain ⟨-, -, rfl⟩ := EmitFrame.firing.inj heq
        exact fun l hl ↦ hcb l (List.mem_cons_of_mem _ hl)
      · refine hs.callback m e' rest ?_
        rw [hstack]
        exact List.mem_cons_of_mem _ hmem
    · simp at h

theorem EmitOk.done (hs : EmitOk dictHash s) (h : emitStep dictHash s .done = some s') :
    EmitOk dictHash s' := by
  rw [emitStep] at h
  split at h
  · simp at h
  · rename_i hstuck
    have hbal := hs.balanced (by simpa using hstuck)
    rw [EmitState.activations] at hbal
    split at h
    · rename_i fs hstack
      obtain rfl := Option.some_inj.mp h
      rw [hstack] at hbal
      refine ⟨hs.registry, fun m e' rest hmem ↦ hs.callback m e' rest ?_, fun _ ↦ hbal⟩
      rw [hstack]
      exact List.mem_cons_of_mem _ hmem
    · simp at h

/-- **Every step keeps the invariant.** -/
theorem EmitOk.step (hs : EmitOk dictHash s) {a : EmitAction}
    (h : emitStep dictHash s a = some s') : EmitOk dictHash s' := by
  cases a with
  | call c => exact hs.call h
  | emit event cptr data => exact hs.emit h
  | fire => exact hs.fire h
  | done => exact hs.done h

end Step

/-! ## Every emission delivers its snapshot -/

theorem getD_owed {s : EmitState} {n : ℕ} {c : EventBus × Emission} (h : s.calls[n]? = some c) :
    (s.calls.map owed).getD n [] = owed c := by
  rw [List.getD_eq_getElem?_getD, List.getElem?_map, h, Option.map_some, Option.getD_some]

/-- As long as the thread is not stuck, every delivery is made or still to be made. -/
theorem EmitOk.delivers {s : EmitState} (hs : EmitOk dictHash s) (hstuck : s.stuck = false) :
    s.DeliversSnapshots := by
  intro n c hc
  rw [EmitState.pending, hstuck, if_neg Bool.false_ne_true, ← getD_owed hc]
  exact hs.balanced hstuck n

/-- A stuck thread has delivered everything exactly when it had nothing left to deliver. -/
theorem deliversSnapshots_iff_of_stuck {s : EmitState} (hstuck : s.stuck = true)
    {stack : List (ℕ × List (Listener × Emission))}
    (hbal : Balanced (s.calls.map owed) stack s.deliveries) :
    s.DeliversSnapshots ↔ ∀ x ∈ stack, x.2 = [] := by
  have hleft : (∀ x ∈ stack, x.2 = []) ↔ ∀ n, left stack n = [] := by
    rw [← not_iff_not]
    simpa using left_ne_nil_iff.symm
  rw [hleft]
  constructor
  · intro h n
    rw [← hbal.handed_eq_iff n]
    cases hc : s.calls[n]? with
    | none =>
      have hle : (s.calls.map owed).length ≤ n := by
        rw [List.length_map]
        exact List.getElem?_eq_none_iff.mp hc
      rw [(hbal.fresh hle).1, List.getD_eq_default _ _ hle]
    | some c =>
      have hn := h n c hc
      rwa [EmitState.pending, hstuck, if_pos rfl, List.append_nil, ← getD_owed hc] at hn
  · intro h n c hc
    rw [EmitState.pending, hstuck, if_pos rfl, List.append_nil, (hbal.handed_eq_iff n).mpr (h n),
      getD_owed hc]

theorem waiting_iff (s : EmitState) : s.Waiting ↔ ¬ ∀ x ∈ s.activations, x.2 = [] := by
  rw [EmitState.Waiting]
  push Not
  constructor
  · rintro ⟨n, e, rest, hmem, hne⟩
    exact ⟨_, List.mem_filterMap.mpr ⟨_, hmem, rfl⟩, by simpa using hne⟩
  · rintro ⟨x, hx, hne⟩
    obtain ⟨f, hf, hx⟩ := List.mem_filterMap.mp hx
    cases f with
    | firing n e rest =>
      obtain rfl := Option.some_inj.mp hx
      exact ⟨n, e, rest, hf, by simpa using hne⟩
    | callback => cases hx

theorem owed_eq_nil_iff (c : EventBus × Emission) : owed c = [] ↔ c.1.notified c.2.event = [] := by
  rw [owed, List.map_eq_nil_iff]

/-- How a thread gets stuck: in a lookup of a call, or in one of those of `event_emit`. -/
theorem EmitOk.stuck_cases {s s' : EmitState} (hs : EmitOk dictHash s) {a : EmitAction}
    (h : emitStep dictHash s a = some s') (hstuck : s'.stuck = true) : s.free = true ∧
      ((∃ c, a = .call c ∧ c.issued s.bus = true ∧
          (∃ event, c.looksUp s.bus = some event ∧ s.bus.Lost event) ∧
          s' = { s with stuck := true }) ∨
        ∃ event cptr data, a = .emit (some event) cptr data ∧ s.bus.regs event false = [] ∧
          (s.bus.Lost event ∨ s.bus.Lost eventNomatch) ∧
          s' = { s with
            calls := s.calls ++ [(s.bus, ⟨false, event, cptr, data, 0⟩)]
            stuck := true }) := by
  have hfree : s.free = true → s.stuck = true → False := fun hfree hst ↦ by
    rw [EmitState.not_stuck_of_free hfree] at hst
    cases hst
  cases a with
  | call c =>
    rw [emitStep] at h
    split at h
    · rename_i hcan
      split at h
      · rename_i hnone
        exact ⟨hcan.1, .inl ⟨c, rfl, hcan.2, (eventCall_none_iff hs.registry.store hcan.2).mp hnone,
          (Option.some_inj.mp h).symm⟩⟩
      · obtain rfl := Option.some_inj.mp h
        exact (hfree hcan.1 hstuck).elim
    · simp at h
  | emit event cptr data =>
    cases event with
    | none =>
      obtain ⟨hcan, rfl⟩ : s.free = true ∧ s = s' := by simpa [emitStep] using h
      exact (hfree hcan hstuck).elim
    | some event =>
      rw [emitStep] at h
      split at h
      · rename_i hcan
        rcases eventEmitSnapshot_cases hs.registry.store event with
          ⟨hregs, hlost, hnone⟩ | ⟨-, hsome⟩
        · simp only [hnone, Option.some.injEq] at h
          exact ⟨hcan, .inr ⟨event, cptr, data, rfl, hregs, hlost, h.symm⟩⟩
        · simp only [hsome, Option.some.injEq] at h
          obtain rfl := h
          exact (hfree hcan hstuck).elim
      · simp at h
  | fire =>
    rw [emitStep] at h
    split at h
    · simp at h
    · rename_i hst
      split at h
      · obtain rfl := Option.some_inj.mp h
        exact absurd hstuck hst
      · split at h <;> obtain rfl := Option.some_inj.mp h <;> exact absurd hstuck hst
      · simp at h
  | done =>
    rw [emitStep] at h
    split at h
    · simp at h
    · rename_i hst
      split at h
      · obtain rfl := Option.some_inj.mp h
        exact absurd hstuck hst
      · simp at h

/-- **What one step does to the promises**: it keeps them exactly when it does not lose a
delivery. -/
theorem EmitOk.delivers_iff {s s' : EmitState} (hs : EmitOk dictHash s) {a : EmitAction}
    (h : emitStep dictHash s a = some s') : s'.DeliversSnapshots ↔ ¬ s.LosesDelivery a := by
  cases hstuck : s'.stuck with
  | false =>
    refine iff_of_true ((hs.step h).delivers hstuck) fun hlose ↦ ?_
    cases a with
    | call c =>
      obtain ⟨hfree, hissued, -, hlost⟩ := hlose
      rw [emitStep, if_pos ⟨hfree, hissued⟩,
        (eventCall_none_iff hs.registry.store hissued).mpr hlost] at h
      obtain rfl := Option.some_inj.mp h
      cases hstuck
    | emit event cptr data =>
      cases event with
      | none => exact hlose
      | some event =>
        obtain ⟨hfree, hregs, hlost, -⟩ := hlose
        rcases eventEmitSnapshot_cases hs.registry.store event with ⟨-, -, hnone⟩ | ⟨hne, -⟩
        · rw [emitStep, if_pos hfree] at h
          simp only [hnone, Option.some.injEq] at h
          obtain rfl := h
          cases hstuck
        · exact hne ⟨hregs, hlost⟩
    | fire => exact hlose
    | done => exact hlose
  | true =>
    obtain ⟨hfree, hcases⟩ := hs.stuck_cases h hstuck
    have hbal := hs.balanced (EmitState.not_stuck_of_free hfree)
    rcases hcases with ⟨c, rfl, hissued, hlost, rfl⟩ | ⟨event, cptr, data, rfl, hregs, hlost, rfl⟩
    · rw [deliversSnapshots_iff_of_stuck hstuck hbal]
      have hwait := waiting_iff s
      constructor
      · rintro h ⟨-, -, hw, -⟩
        exact hwait.mp hw h
      · intro hlose
        by_contra hne
        exact hlose ⟨hfree, hissued, hwait.mpr hne, hlost⟩
    · -- the emission that is stuck owes what it owed when it was called
      have hcall := hbal.call (owed (s.bus, ⟨false, event, cptr, data, 0⟩))
      rw [deliversSnapshots_iff_of_stuck hstuck (by rw [List.map_append]; exact hcall),
        List.forall_mem_cons, owed_eq_nil_iff, EventBus.notified, if_neg (by simp [hregs])]
      have hwait := waiting_iff s
      constructor
      · rintro ⟨hnil, h⟩ ⟨-, -, -, hne | hw⟩
        · exact hne hnil
        · exact hwait.mp hw h
      · intro hlose
        constructor
        · by_contra hne
          exact hlose ⟨hfree, hregs, hlost, .inl hne⟩
        · by_contra hne
          exact hlose ⟨hfree, hregs, hlost, .inr (hwait.mpr hne)⟩

variable (dictHash) in
/-- A step that loses a delivery is possible. -/
theorem EmitState.LosesDelivery.isSome {s : EmitState} {a : EmitAction} (h : s.LosesDelivery a) :
    ∃ s', emitStep dictHash s a = some s' := by
  cases a with
  | call c =>
    rw [emitStep, if_pos ⟨h.1, h.2.1⟩]
    cases eventCall dictHash s.bus c <;> exact ⟨_, rfl⟩
  | emit event cptr data =>
    cases event with
    | none => exact h.elim
    | some event =>
      rw [emitStep, if_pos h.1]
      dsimp only
      cases eventEmitSnapshot dictHash s.bus event <;> exact ⟨_, rfl⟩
  | fire => exact h.elim
  | done => exact h.elim

/-- The steps of an emission with `k` listeners left whose callbacks do nothing. -/
def quietSteps : ℕ → List EmitAction
  | 0 => [.fire]
  | k + 1 => .fire :: .done :: quietSteps k

/-- **An emission waits for nothing but its callbacks**: if these return, it delivers what it has
left and returns itself. -/
theorem runSteps_quietSteps {n : ℕ} {e : Emission} {rest : List Listener}
    (hcb : ∀ l ∈ rest, l.cb ≠ 0) {s : EmitState} {fs : List EmitFrame} (hstuck : s.stuck = false)
    (hstack : s.stack = .firing n e rest :: fs) :
    runSteps (emitStep dictHash) s (quietSteps rest.length) = some { s with
      stack := fs
      deliveries := s.deliveries ++ rest.map fun l ↦ (n, l, e.handedTo l) } := by
  induction rest generalizing s with
  | nil => simp [quietSteps, runSteps, emitStep, hstuck, hstack]
  | cons l ls ih =>
    rw [List.forall_mem_cons] at hcb
    have hfire : emitStep dictHash s .fire = some { s with
        stack := .callback :: .firing n e ls :: fs
        deliveries := s.deliveries ++ [(n, l, e.handedTo l)] } := by
      rw [emitStep, hstuck, if_neg Bool.false_ne_true, hstack]
      exact if_neg hcb.1
    have hdone : emitStep dictHash { s with
        stack := .callback :: .firing n e ls :: fs
        deliveries := s.deliveries ++ [(n, l, e.handedTo l)] } .done = some { s with
          stack := .firing n e ls :: fs
          deliveries := s.deliveries ++ [(n, l, e.handedTo l)] } := by
      rw [emitStep]
      simp [hstuck]
    rw [List.length_cons, quietSteps, runSteps, List.foldlM_cons, hfire, Option.bind_eq_bind,
      Option.bind_some, List.foldlM_cons, hdone, Option.bind_eq_bind, Option.bind_some]
    have hrest := ih hcb.2 (s := { s with
      stack := .firing n e ls :: fs
      deliveries := s.deliveries ++ [(n, l, e.handedTo l)] }) hstuck rfl
    refine hrest.trans ?_
    rw [List.map_cons, List.append_assoc, List.singleton_append]

/-- **When emissions deliver their snapshots.**  In a run of the thread, whatever the callbacks
do, each emission delivers to the listeners that were registered at its call, in their order, to
each of them once and to nobody else, exactly when no step looks for an event that is not in the
store, of which all slots are taken, while a delivery is owed. -/
theorem deliversSnapshots_iff (dictHash : CStr → UInt32) (s : EventBus)
    (hs : RegistryOk dictHash s) (acts : List EmitAction) :
    Always (emitStep dictHash) (emitStart s) acts EmitState.DeliversSnapshots ↔
      NoStep (emitStep dictHash) (emitStart s) acts EmitState.LosesDelivery := by
  refine always_iff_noStep (I := EmitOk dictHash) (emitOk_emitStart hs)
    ((emitOk_emitStart hs).delivers rfl) (fun t a t' ht h ↦ ht.step h)
    (fun t a t' ht _ hlose h ↦ (ht.delivers_iff h).mpr hlose) (fun t a ht _ hlose ↦ ?_) acts
  obtain ⟨t', h⟩ := hlose.isSome dictHash
  exact ⟨t', h, fun hdel ↦ (ht.delivers_iff h).mp hdel hlose⟩

/-- The event `e` has two listeners, the second with a dispatcher.  The callback of the first takes
both off, which deletes the entry, registers another listener and emits `e` again. -/
def reentrantRun : List EmitAction :=
  [.call (.on .ok (some [101]) 1 0 0 0), .call (.on .ok (some [101]) 2 0 9 0),
    .emit (some [101]) 5 none, .fire, .call (.off (some [101]) 0 0),
    .call (.on .ok (some [101]) 3 0 0 0), .emit (some [101]) 5 none, .fire, .done, .fire, .done,
    .fire, .done, .fire]

/-- The nested emission delivers to the new listener, and the outer one to its second listener. -/
theorem deliversSnapshots_reentrantRun :
    Always (emitStep dictHashMurmur) (emitStart eventInit) reentrantRun
        EmitState.DeliversSnapshots ∧
      (runSteps (emitStep dictHashMurmur) (emitStart eventInit) reentrantRun).map
          (fun s ↦ s.deliveries.map fun d ↦ (d.1, d.2.1.cb)) = some [(0, 1), (1, 3), (0, 2)] := by
  refine ⟨(deliversSnapshots_iff dictHashMurmur eventInit registryOk_eventInit reentrantRun).mpr ?_,
    by decide +kernel⟩
  -- the store always has a `NULL` slot
  have hcheck : checkSteps (emitStep dictHashMurmur)
      (fun s _ ↦ s.bus.eventStore.any fun d ↦ d.nonNullCount == d.size) (emitStart eventInit)
      reentrantRun = true := by decide +kernel
  intro acts a s hpre hs hlose
  refine noStep_of_checkSteps hcheck acts a s hpre hs ?_
  obtain ⟨event, store, hstore, -, hnull⟩ : ∃ event, s.bus.Lost event := by
    cases a with
    | call c => exact ⟨_, hlose.2.2.2.choose_spec.2⟩
    | emit event cptr data =>
      cases event with
      | none => exact hlose.elim
      | some event => exact hlose.2.2.1.elim (fun h ↦ ⟨_, h⟩) fun h ↦ ⟨_, h⟩
    | fire => exact hlose.elim
    | done => exact hlose.elim
  rw [Dict.hasNull_iff] at hnull
  have hle : store.nonNullCount ≤ store.size := List.countP_le_length
  rw [hstore, Option.any_some, beq_iff_eq]
  omega

/-- `EVENT_NOMATCH` has a listener, and seven more events have had one. -/
def fullStoreRun : List EmitAction :=
  .call (.on .ok (some eventNomatch) 1 0 0 0) ::
    ([120, 111, 102, 98, 101, 122, 97] : List UInt8).flatMap (fun c ↦
      [.call (.on .ok (some [c]) 1 0 0 0), .call (.off (some [c]) 0 0)]) ++
    [.emit (some [121]) 0 none]

/-- The emission of an event without listeners never gets to the listener of `EVENT_NOMATCH`. -/
theorem not_deliversSnapshots_fullStoreRun :
    ¬ Always (emitStep dictHashMurmur) (emitStart eventInit) fullStoreRun
      EmitState.DeliversSnapshots := by
  intro h
  have hrun : (runSteps (emitStep dictHashMurmur) (emitStart eventInit) fullStoreRun).map
      (fun s ↦ (s.stuck, handed s.deliveries 0, (s.calls.map owed).map List.length))
      = some (true, [], [1]) := by decide +kernel
  obtain ⟨s, hs, hfacts⟩ := Option.map_eq_some_iff.mp hrun
  rw [Prod.mk.injEq, Prod.mk.injEq] at hfacts
  obtain ⟨hstuck, hnothing, hlength⟩ := hfacts
  have hdel := h fullStoreRun s (List.prefix_refl _) hs
  obtain ⟨c, hc, hone⟩ : ∃ c, s.calls[0]? = some c ∧ (owed c).length = 1 := by
    cases hcalls : s.calls with
    | nil => simp [hcalls] at hlength
    | cons c cs => exact ⟨c, rfl, by simpa [hcalls] using congrArg List.head? hlength⟩
  have howed := hdel 0 c hc
  rw [hnothing, EmitState.pending, if_pos hstuck, List.append_nil] at howed
  rw [← howed] at hone
  simp at hone

end Rustyaxe
