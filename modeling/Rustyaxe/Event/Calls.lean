import Rustyaxe.Event.Sections

/-!
# Which calls return

A call on the registry looks for one event in the store, at most, and it goes round forever if that
event has no entry and the store no `NULL` slot left (`eventCall_none_iff`).  Whatever a call does
when it returns, it keeps the store sound and registers nothing without a callback
(`RegistryOk.eventCall`).
-/

set_option autoImplicit false

namespace Rustyaxe

open Runs

/-! ## Calls that never return -/

/-- The event that the call looks for in the store. -/
def EventCall.looksUp (s : EventBus) : EventCall → Option CStr
  | .on _ event cb _ _ _ | .onBinary _ event cb _ _ _ | .onToken _ event cb _ _ _
  | .onBinaryToken _ event cb _ _ _ => if cb = 0 then none else event
  | .onDomainToken _ event cb _ domain | .onBinaryDomainToken _ event cb _ domain =>
    if cb = 0 ∨ domain.bind (findDomain s) = none then none else event
  | .off event _ _ | .offBinary event _ _ => event
  | .offToken t => do
    let token ← s.eventTokens[← t]?
    if token.active ∧ token.message = false then some token.event else none
  | .onMessageToken .. | .onMessageDomainToken .. | .domainRegister .. | .domainUnregister .. => none

/-- A token that the call is given is one that was issued. -/
def EventCall.issued (s : EventBus) : EventCall → Bool
  | .offToken (some t) => t < s.eventTokens.length
  | _ => true

variable {dictHash : CStr → UInt32}

theorem eventGetOrCreate_none_iff {s : EventBus} (hs : StoreOk dictHash s) (mem : StoreAlloc)
    (event : CStr) : eventGetOrCreate dictHash mem s event = none ↔ s.Lost event := by
  rw [← eventLookup_none_iff hs, eventGetOrCreate]
  cases hl : eventLookup dictHash s event with
  | none => exact iff_of_true rfl rfl
  | some entry =>
    refine iff_of_false ?_ (by simp)
    cases entry with
    | some a => simp
    | none =>
      cases hstore : s.eventStore with
      | none => simp
      | some store =>
        -- the store does not get lost either, as the lookup has found a free slot
        have hlookup : dictLookup store event (dictHash event) ≠ none := by
          intro hnone
          rw [eventLookup, hstore] at hl
          simp [dictGetPtr, dictGetKp, hnone] at hl
        rcases (hs.coherent store hstore).dictStore_eq mem event (.ptr s.nextEntry) with
          ⟨hnone, -⟩ | ⟨rc, store', hsome, -⟩
        · exact absurd hnone hlookup
        · cases rc <;> simp [dictAddPtr, hsome]

theorem addListener_none_iff {s : EventBus} (hs : StoreOk dictHash s) (binary bump : Bool)
    (mem : StoreAlloc) (event : Option CStr) (cb user dispatch dispatchUser : ℕ) :
    addListener dictHash binary bump mem s event cb user dispatch dispatchUser = none ↔
      ∃ ev, (if cb = 0 then none else event) = some ev ∧ s.Lost ev := by
  have hclosed : s.eventStore = none → ∀ ev, ¬ s.Lost ev := fun hnone ev ↦ by
    rintro ⟨store, hstore, -⟩
    rw [hnone] at hstore
    cases hstore
  cases event with
  | none => simp [addListener]
  | some ev =>
    cases hstore : s.eventStore with
    | none => simp [addListener, hstore, hclosed hstore]
    | some store =>
      by_cases hcb : cb = 0
      · simp [addListener, hstore, hcb]
      · simp only [addListener, hstore, if_neg hcb, Option.some.injEq, exists_eq_left']
        rw [← eventGetOrCreate_none_iff hs mem ev]
        cases hget : eventGetOrCreate dictHash mem s ev with
        | none => exact iff_of_true rfl rfl
        | some r =>
          refine iff_of_false ?_ (by simp)
          obtain ⟨entry, s₁⟩ := r
          obtain ⟨hs₁, -, -, haddr⟩ := eventGetOrCreate_spec hs hget
          cases entry with
          | none => simp
          | some a =>
            obtain ⟨e, he⟩ := hs₁.alloc ev a (haddr a rfl)
            simp [he]

theorem onToken_none_iff {s : EventBus} (hs : StoreOk dictHash s) (binary : Bool)
    (mem : StoreAlloc) (event : Option CStr) (cb user dispatch dispatchUser : ℕ) :
    onToken dictHash binary mem s event cb user dispatch dispatchUser = none ↔
      ∃ ev, (if cb = 0 then none else event) = some ev ∧ s.Lost ev := by
  rw [← addListener_none_iff hs binary true mem event cb user dispatch dispatchUser, onToken]
  cases addListener dictHash binary true mem s event cb user dispatch dispatchUser with
  | none => exact iff_of_true rfl rfl
  | some r =>
    refine iff_of_false ?_ (by simp)
    obtain ⟨g, s₁⟩ := r
    cases event <;> cases g <;> simp

theorem offListeners_none_iff {s : EventBus} (hs : StoreOk dictHash s) (binary : Bool)
    (event : Option CStr) (cb user : ℕ) :
    offListeners dictHash binary s event cb user = none ↔ ∃ ev, event = some ev ∧ s.Lost ev := by
  cases event with
  | none => simp [offListeners]
  | some ev =>
    simp only [Option.some.injEq, exists_eq_left']
    rw [← eventLookup_none_iff hs, offListeners]
    cases hl : eventLookup dictHash s ev with
    | none => exact iff_of_true rfl rfl
    | some r =>
      refine iff_of_false ?_ (by simp)
      cases r with
      | none => simp
      | some a =>
        have ha := (eventLookup_eq hs hl).symm
        obtain ⟨entry, hentry⟩ := hs.alloc ev a ha
        obtain ⟨s₁, hs₁, -⟩ := replaceListeners_spec hs ha hentry
          (EventEntry.get_set entry binary · ((entry.get binary).filter fun l ↦
            !((cb == 0 || l.cb == cb) && (user == 0 || l.user == user))))
        simp only [hentry, Option.bind_eq_bind, Option.bind_some]
        rw [hs₁]
        simp

/-- A registered event is in the store. -/
theorem addrOf_of_mem_regs {s : EventBus} {ev : CStr} {binary : Bool} {l : Listener}
    (h : l ∈ s.regs ev binary) : ∃ a, s.addrOf ev = some a := by
  cases ha : s.addrOf ev with
  | none => simp [EventBus.regs, ha] at h
  | some a => exact ⟨a, rfl⟩

theorem not_lost_of_addrOf {s : EventBus} (hs : StoreOk dictHash s) {ev : CStr} {a : ℕ}
    (h : s.addrOf ev = some a) : ¬ s.Lost ev := by
  rw [← eventLookup_none_iff hs, eventLookup_of_addrOf hs h]
  simp

theorem eventOnDomainToken_none_iff {s : EventBus} (hs : StoreOk dictHash s) (mem : StoreAlloc)
    (event : Option CStr) (cb user : ℕ) (domain : Option CStr) :
    eventOnDomainToken dictHash mem s event cb user domain = none ↔
      ∃ ev, (if cb = 0 ∨ domain.bind (findDomain s) = none then none else event) = some ev ∧
        s.Lost ev := by
  cases event with
  | none => simp [eventOnDomainToken]
  | some ev =>
    cases domain with
    | none => simp [eventOnDomainToken]
    | some name =>
      rw [eventOnDomainToken_eq, Option.bind_some]
      cases hd : findDomain s name with
      | none => simp
      | some d =>
        have hiff := onToken_none_iff hs false mem (some ev) cb user d.dispatch d.user
        simp only [or_false, reduceCtorEq]
        rw [← hiff, eventOnTokenDispatch]
        cases hon : onToken dictHash false mem s (some ev) cb user d.dispatch d.user with
        | none => exact iff_of_true rfl rfl
        | some r =>
          refine iff_of_false ?_ (by simp)
          obtain ⟨token, s₁⟩ := r
          obtain ⟨hs₁, -, -, ⟨rfl, -⟩ | ⟨ev', g, hev, -, -, -, hregs⟩⟩ := onToken_spec hs hon
          · simp
          · -- the listener is registered by now, so its event is found again
            obtain rfl := Option.some_inj.mp hev
            have hmem : (⟨cb, user, d.dispatch, d.user, false, s.nextRegistration⟩ : Listener)
                ∈ s₁.regs ev false := by
              rw [hregs]
              simp
            obtain ⟨a, ha⟩ := addrOf_of_mem_regs hmem
            obtain ⟨entry, hentry⟩ := hs₁.alloc ev a ha
            have hget : eventGetOrCreate dictHash mem s₁ ev = some (some a, s₁) := by
              rw [eventGetOrCreate, eventLookup_of_addrOf hs₁ ha]
              rfl
            by_cases htoken : token = none
            · simp [htoken]
            · simp [htoken, markListener, hget, hentry]

/-- **When a call never returns**: the event it looks for has no entry, and the store no `NULL`
slot. -/
theorem eventCall_none_iff {s : EventBus} (hs : StoreOk dictHash s) {c : EventCall}
    (hc : c.issued s = true) :
    eventCall dictHash s c = none ↔ ∃ ev, c.looksUp s = some ev ∧ s.Lost ev := by
  cases c with
  | on mem event cb user dispatch dispatchUser =>
    exact Option.map_eq_none_iff.trans (addListener_none_iff hs ..)
  | onBinary mem event cb user dispatch dispatchUser =>
    exact Option.map_eq_none_iff.trans (addListener_none_iff hs ..)
  | onToken mem event cb user dispatch dispatchUser =>
    exact Option.map_eq_none_iff.trans (onToken_none_iff hs ..)
  | onBinaryToken mem event cb user dispatch dispatchUser =>
    exact Option.map_eq_none_iff.trans (onToken_none_iff hs ..)
  | onDomainToken mem event cb user domain =>
    exact Option.map_eq_none_iff.trans (eventOnDomainToken_none_iff hs ..)
  | onBinaryDomainToken mem event cb user domain =>
    refine Option.map_eq_none_iff.trans ?_
    cases domain with
    | none => simp [eventOnBinaryDomainToken, EventCall.looksUp]
    | some name =>
      by_cases hnone : findDomain s name = none
      · simp [eventOnBinaryDomainToken, EventCall.looksUp, hnone]
      · obtain ⟨d, hd⟩ := Option.ne_none_iff_exists'.mp hnone
        simp only [eventOnBinaryDomainToken, EventCall.looksUp, Option.bind_some, hd, or_false,
          reduceCtorEq]
        exact onToken_none_iff hs ..
  | off event cb user => exact offListeners_none_iff hs ..
  | offBinary event cb user => exact offListeners_none_iff hs ..
  | offToken t =>
    cases t with
    | none => simp [eventCall, eventOffToken, EventCall.looksUp]
    | some t =>
      have hlt : t < s.eventTokens.length := of_decide_eq_true hc
      have ht : s.eventTokens[t]? = some s.eventTokens[t] := List.getElem?_eq_getElem hlt
      generalize s.eventTokens[t] = token at ht
      simp only [eventCall, EventCall.looksUp, Option.bind_eq_bind, Option.bind_some, ht]
      by_cases hactive : token.active = true ∧ token.message = false
      · simp only [hactive, and_self, if_true, Option.some.injEq, exists_eq_left']
        rcases eventOffToken_spec hs ht hactive.1 hactive.2 with ⟨hlost, hnone⟩ | ⟨hlost, s₁, hsome, -⟩
        · exact iff_of_true hnone hlost
        · exact iff_of_false (by simp [hsome]) hlost
      · rw [if_neg hactive]
        refine iff_of_false ?_ (by simp)
        cases hact : token.active <;> cases hmsg : token.message <;>
          simp_all [eventOffToken]
  | _ => exact iff_of_false (by simp [eventCall]) (by simp [EventCall.looksUp])

/-! ## Sound registries -/

variable (dictHash) in
/-- A sound store, and no listener without a callback. -/
structure RegistryOk (s : EventBus) : Prop where
  store : StoreOk dictHash s
  callback : ∀ ev b, ∀ l ∈ s.regs ev b, l.cb ≠ 0

theorem registryOk_eventInit : RegistryOk dictHash eventInit :=
  ⟨storeOk_eventInit, fun _ _ _ h ↦ absurd h List.not_mem_nil⟩

section Sound

variable {s s' : EventBus} (hs : RegistryOk dictHash s)
include hs

theorem RegistryOk.of_sublist (hs' : StoreOk dictHash s')
    (h : ∀ ev b, (s'.regs ev b).Sublist (s.regs ev b)) : RegistryOk dictHash s' :=
  ⟨hs', fun ev b l hl ↦ hs.callback ev b l ((h ev b).mem hl)⟩

theorem RegistryOk.of_regs (hs' : StoreOk dictHash s') (h : s'.regs = s.regs) :
    RegistryOk dictHash s' := hs.of_sublist hs' fun _ _ ↦ h ▸ List.Sublist.refl _

theorem RegistryOk.congr (hstore : s'.eventStore = s.eventStore) (hentries : s'.entries = s.entries)
    (hnext : s'.nextEntry = s.nextEntry) : RegistryOk dictHash s' := by
  refine hs.of_regs (hs.store.congr hstore hentries hnext) ?_
  funext ev b
  simp only [EventBus.regs, EventBus.addrOf, hstore, hentries]

theorem RegistryOk.addListener {binary bump : Bool} {mem : StoreAlloc} {event : Option CStr}
    {cb user dispatch dispatchUser : ℕ} {g : Option UInt64}
    (h : addListener dictHash binary bump mem s event cb user dispatch dispatchUser
      = some (g, s')) : RegistryOk dictHash s' := by
  obtain ⟨hs', -, -, ⟨-, hregs, -⟩ | ⟨ev, rfl, hg, -, hregs⟩⟩ := addListener_spec hs.store h
  · exact hs.of_regs hs' hregs
  · refine ⟨hs', fun ev' b l hl ↦ ?_⟩
    rw [hregs] at hl
    split at hl
    · rcases List.mem_append.mp hl with hl | hl
      · exact hs.callback ev b l (by simp_all)
      · -- a `NULL` callback would have been refused
        obtain rfl := List.mem_singleton.mp hl
        rintro rfl
        refine hg ?_
        cases hstore : s.eventStore <;> simp_all [Rustyaxe.addListener]
    · exact hs.callback ev' b l hl

theorem RegistryOk.onToken {binary : Bool} {mem : StoreAlloc} {event : Option CStr}
    {cb user dispatch dispatchUser : ℕ} {t : Option ℕ}
    (h : onToken dictHash binary mem s event cb user dispatch dispatchUser = some (t, s')) :
    RegistryOk dictHash s' := by
  rw [Rustyaxe.onToken, Option.bind_eq_bind, Option.bind_eq_some_iff] at h
  obtain ⟨⟨g, s₁⟩, hadd, h⟩ := h
  have hs₁ := hs.addListener hadd
  dsimp only at h
  split at h
  · obtain ⟨-, rfl⟩ := by simpa only [Option.pure_def, Option.some.injEq, Prod.mk.injEq] using h
    exact hs₁.congr rfl rfl rfl
  · obtain ⟨-, rfl⟩ := by simpa only [Option.pure_def, Option.some.injEq, Prod.mk.injEq] using h
    exact hs₁

theorem RegistryOk.markListener {mem : StoreAlloc} {event : CStr} {cb user : ℕ} {d : EventDomain}
    (h : markListener dictHash mem s event cb user d = some s') : RegistryOk dictHash s' := by
  obtain ⟨hs', -, -, hregs⟩ := markListener_spec hs.store h
  refine ⟨hs', fun ev b l hl ↦ ?_⟩
  rw [hregs] at hl
  split at hl
  · obtain ⟨l', hl', rfl⟩ := List.mem_map.mp hl
    have hcb := hs.callback event false l' hl'
    split <;> exact hcb
  · exact hs.callback ev b l hl

theorem RegistryOk.eventOnDomainToken {mem : StoreAlloc} {event : Option CStr} {cb user : ℕ}
    {domain : Option CStr} {t : Option ℕ}
    (h : eventOnDomainToken dictHash mem s event cb user domain = some (t, s')) :
    RegistryOk dictHash s' := by
  cases event with
  | none =>
    obtain ⟨-, rfl⟩ : none = t ∧ s = s' := by simpa [Rustyaxe.eventOnDomainToken] using h
    exact hs
  | some ev =>
    cases domain with
    | none =>
      obtain ⟨-, rfl⟩ : none = t ∧ s = s' := by simpa [Rustyaxe.eventOnDomainToken] using h
      exact hs
    | some name =>
      rw [eventOnDomainToken_eq] at h
      cases hd : findDomain s name with
      | none =>
        obtain ⟨-, rfl⟩ : none = t ∧ s = s' := by simpa [hd] using h
        exact hs
      | some d =>
        simp only [hd, Option.bind_eq_bind, Option.bind_eq_some_iff] at h
        obtain ⟨⟨token, s₁⟩, hon, h⟩ := h
        have hs₁ := hs.onToken hon
        dsimp only at h
        split at h
        · obtain ⟨-, rfl⟩ := by simpa only [Option.pure_def, Option.some.injEq, Prod.mk.injEq] using h
          exact hs₁
        · obtain ⟨s₂, hmark, h⟩ := Option.bind_eq_some_iff.mp h
          obtain ⟨-, rfl⟩ := by simpa only [Option.pure_def, Option.some.injEq, Prod.mk.injEq] using h
          exact hs₁.markListener hmark

theorem RegistryOk.eventOffToken {t : ℕ} (h : eventOffToken dictHash s (some t) = some s') :
    RegistryOk dictHash s' := by
  cases ht : s.eventTokens[t]? with
  | none => simp [Rustyaxe.eventOffToken, ht] at h
  | some token =>
    cases hact : token.active with
    | false =>
      obtain rfl : s = s' := by simpa [Rustyaxe.eventOffToken, ht, hact] using h
      exact hs
    | true =>
      cases hmsg : token.message with
      | true =>
        obtain rfl : deactivate { s with messageListeners := _ } t = s' := by
          simpa [Rustyaxe.eventOffToken, ht, hact, hmsg] using h
        exact hs.congr rfl rfl rfl
      | false =>
        rcases eventOffToken_spec hs.store ht hact hmsg with ⟨-, hnone⟩ | ⟨-, s₁, hsome, hs₁, -, hregs⟩
        · simp [hnone] at h
        · obtain rfl : deactivate s₁ t = s' := Option.some_inj.mp (hsome.symm.trans h)
          refine hs.of_sublist (hs₁.congr rfl rfl rfl) fun ev b ↦ ?_
          rw [deactivate_regs, hregs]
          split
          · rename_i heq
            rw [heq.1, heq.2]
            exact List.eraseP_sublist
          · exact List.Sublist.refl _

/-- **Every call keeps a sound registry.** -/
theorem RegistryOk.eventCall {c : EventCall} (h : eventCall dictHash s c = some s') :
    RegistryOk dictHash s' := by
  cases c with
  | on mem event cb user dispatch dispatchUser =>
    obtain ⟨⟨g, s₁⟩, hadd, rfl⟩ := Option.map_eq_some_iff.mp h
    exact hs.addListener hadd
  | onBinary mem event cb user dispatch dispatchUser =>
    obtain ⟨⟨g, s₁⟩, hadd, rfl⟩ := Option.map_eq_some_iff.mp h
    exact hs.addListener hadd
  | onToken mem event cb user dispatch dispatchUser =>
    obtain ⟨⟨t, s₁⟩, hon, rfl⟩ := Option.map_eq_some_iff.mp h
    exact hs.onToken hon
  | onBinaryToken mem event cb user dispatch dispatchUser =>
    obtain ⟨⟨t, s₁⟩, hon, rfl⟩ := Option.map_eq_some_iff.mp h
    exact hs.onToken hon
  | onDomainToken mem event cb user domain =>
    obtain ⟨⟨t, s₁⟩, hon, rfl⟩ := Option.map_eq_some_iff.mp h
    exact hs.eventOnDomainToken hon
  | onBinaryDomainToken mem event cb user domain =>
    obtain ⟨⟨t, s₁⟩, hon, rfl⟩ := Option.map_eq_some_iff.mp h
    unfold eventOnBinaryDomainToken at hon
    split at hon
    · obtain ⟨-, rfl⟩ : none = t ∧ s = s₁ := by simpa using hon
      exact hs
    · split at hon
      · obtain ⟨-, rfl⟩ : none = t ∧ s = s₁ := by simpa using hon
        exact hs
      · exact hs.onToken hon
  | off event cb user =>
    obtain ⟨hs', -, hsub⟩ := offListeners_spec hs.store h
    exact hs.of_sublist hs' hsub
  | offBinary event cb user =>
    obtain ⟨hs', -, hsub⟩ := offListeners_spec hs.store h
    exact hs.of_sublist hs' hsub
  | offToken t =>
    cases t with
    | none =>
      obtain rfl : s = s' := Option.some_inj.mp h
      exact hs
    | some t => exact hs.eventOffToken h
  | onMessageToken name cb user dispatch dispatchUser =>
    obtain rfl := Option.some_inj.mp h
    unfold eventOnMessageToken
    repeat' split
    all_goals exact hs.congr rfl rfl rfl
  | onMessageDomainToken name cb user domain =>
    obtain rfl := Option.some_inj.mp h
    unfold eventOnMessageDomainToken
    repeat' split
    all_goals exact hs.congr rfl rfl rfl
  | domainRegister name dispatch user =>
    obtain rfl := Option.some_inj.mp h
    unfold eventDomainRegister
    repeat' split
    all_goals exact hs.congr rfl rfl rfl
  | domainUnregister name =>
    obtain rfl := Option.some_inj.mp h
    unfold eventDomainUnregister
    repeat' split
    all_goals exact hs.congr rfl rfl rfl

end Sound

/-- **Every registry that calls can build is sound.** -/
theorem registryOk_of_runSteps {cs : List EventCall} {s : EventBus}
    (h : runSteps (eventCall dictHash) eventInit cs = some s) : RegistryOk dictHash s :=
  inv_of_runSteps registryOk_eventInit (fun _ _ _ hs ↦ hs.eventCall) cs s h

end Rustyaxe
