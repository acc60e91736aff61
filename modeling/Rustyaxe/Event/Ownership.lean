import Rustyaxe.Event.Steps
import Rustyaxe.Lib.Runs

/-!
# Who owns a registration

A token is meant to identify one registration, but `event_off_token` searches for the callback and
the user pointer and takes the first listener that has them.  The generation stamped on the token
is never read.  `offToken_correct_iff` says exactly which calls this breaks.
-/

set_option autoImplicit false

namespace Rustyaxe

open Runs

variable {dictHash : CStr → UInt32}

/-! ## Ownership -/

/-- Registrations are told apart by their numbers, and a token has the number of the one
registration it was issued for.  An inactive token's registration is gone. -/
structure Owned (s : EventBus) : Prop where
  unique : ∀ ev b ev' b' k k', k ∈ s.keys ev b → k' ∈ s.keys ev' b' → k.1 = k'.1 →
    ev = ev' ∧ b = b'
  nodup : ∀ ev b, ((s.keys ev b).map Prod.fst).Nodup
  fresh : ∀ ev b, ∀ k ∈ s.keys ev b, k.1 < s.nextRegistration
  issued : ∀ (t : ℕ) (token : EventToken), s.eventTokens[t]? = some token →
    token.registration < s.nextRegistration ∧ ∀ ev b, ∀ k ∈ s.keys ev b,
      k.1 = token.registration → token.active = true ∧ token.message = false ∧
        ev = token.event ∧ b = token.binary ∧ k.2 = (token.cb, token.user)
  message : ∀ l ∈ s.messageListeners, ∃ token, s.eventTokens[l.token]? = some token ∧
    token.message = true ∧ token.active = true
  messageNodup : (s.messageListeners.map MessageListener.token).Nodup

theorem getElem?_concat_cases {α : Type} {L : List α} {a b : α} {t : ℕ}
    (h : (L ++ [a])[t]? = some b) : L[t]? = some b ∨ b = a := by
  rw [List.getElem?_append] at h
  split at h
  · exact .inl h
  · rw [List.getElem?_singleton] at h
    split at h
    · exact .inr (Option.some_inj.mp h).symm
    · simp at h

theorem getElem?_append_of_eq_some {α : Type} {L : List α} {b : α} {t : ℕ} (h : L[t]? = some b)
    (L' : List α) : (L ++ L')[t]? = some b := by
  rw [List.getElem?_append_left (List.getElem?_eq_some_iff.mp h).1, h]

namespace Owned

variable {s s' : EventBus} (ho : Owned s)
include ho

/-- A number that has not been given yet is not on a list. -/
theorem ne_next {ev : CStr} {b : Bool} {k : ℕ × ℕ × ℕ} (hk : k ∈ s.keys ev b) :
    k.1 ≠ s.nextRegistration := Nat.ne_of_lt (ho.fresh ev b k hk)

/-- New tokens do not change which ones the message listeners have. -/
theorem message_append (tokens : List EventToken) : ∀ l ∈ s.messageListeners, ∃ token,
    (s.eventTokens ++ tokens)[l.token]? = some token ∧ token.message = true ∧
      token.active = true := by
  intro l hl
  obtain ⟨token, htoken, hmsg⟩ := ho.message l hl
  exact ⟨token, getElem?_append_of_eq_some htoken tokens, hmsg⟩

theorem dropped (hkeys : ∀ ev b, (s'.keys ev b).Sublist (s.keys ev b)) (hframe : Frame s s') :
    Owned s' where
  unique ev b ev' b' k k' hk hk' :=
    ho.unique ev b ev' b' k k' ((hkeys ev b).mem hk) ((hkeys ev' b').mem hk')
  nodup ev b := ((hkeys ev b).map _).nodup (ho.nodup ev b)
  fresh ev b k hk := by
    rw [hframe.registration]
    exact ho.fresh ev b k ((hkeys ev b).mem hk)
  issued t token ht := by
    rw [hframe.tokens] at ht
    obtain ⟨hlt, hkey⟩ := ho.issued t token ht
    rw [hframe.registration]
    exact ⟨hlt, fun ev b k hk ↦ hkey ev b k ((hkeys ev b).mem hk)⟩
  message := by
    rw [hframe.messages, hframe.tokens]
    exact ho.message
  messageNodup := by
    rw [hframe.messages]
    exact ho.messageNodup

theorem registered {ev : CStr} {binary : Bool} {cb user : ℕ}
    (hkeys : ∀ ev' b, s'.keys ev' b = if ev' = ev ∧ b = binary
      then s.keys ev b ++ [(s.nextRegistration, cb, user)] else s.keys ev' b)
    (htokens : s'.eventTokens = s.eventTokens ∨ ∃ generation, s'.eventTokens
      = s.eventTokens ++ [⟨ev, binary, cb, user, generation, true, false, s.nextRegistration⟩])
    (hmessages : s'.messageListeners = s.messageListeners)
    (hnext : s'.nextRegistration = s.nextRegistration + 1) : Owned s' := by
  have hmem : ∀ {ev' b k}, k ∈ s'.keys ev' b → k ∈ s.keys ev' b ∨
      (ev' = ev ∧ b = binary ∧ k = (s.nextRegistration, cb, user)) := by
    intro ev' b k hk
    rw [hkeys] at hk
    split at hk
    · rename_i heq
      obtain ⟨rfl, rfl⟩ := heq
      rcases List.mem_append.mp hk with hk | hk
      · exact .inl hk
      · exact .inr ⟨rfl, rfl, List.mem_singleton.mp hk⟩
    · exact .inl hk
  -- a token that was there before has the registration it had
  have hold : ∀ {token : EventToken}, (∃ t : ℕ, s.eventTokens[t]? = some token) →
      token.registration < s.nextRegistration + 1 ∧ ∀ ev b, ∀ k ∈ s'.keys ev b,
        k.1 = token.registration → token.active = true ∧ token.message = false ∧
          ev = token.event ∧ b = token.binary ∧ k.2 = (token.cb, token.user) := by
    rintro token ⟨t, ht⟩
    obtain ⟨hlt, hkey⟩ := ho.issued t token ht
    refine ⟨Nat.lt_succ_of_lt hlt, fun ev' b k hk hreg ↦ ?_⟩
    rcases hmem hk with hk | ⟨-, -, rfl⟩
    · exact hkey ev' b k hk hreg
    · exact absurd hreg (Nat.ne_of_gt hlt)
  refine ⟨fun ev₁ b₁ ev₂ b₂ k₁ k₂ h₁ h₂ hk ↦ ?_, fun ev' b ↦ ?_, fun ev' b k hk ↦ ?_,
    fun t token ht ↦ ?_, ?_, hmessages ▸ ho.messageNodup⟩
  · rcases hmem h₁ with h₁ | ⟨rfl, rfl, rfl⟩ <;> rcases hmem h₂ with h₂ | ⟨rfl, rfl, rfl⟩
    · exact ho.unique ev₁ b₁ ev₂ b₂ k₁ k₂ h₁ h₂ hk
    · exact absurd hk (ho.ne_next h₁)
    · exact absurd hk.symm (ho.ne_next h₂)
    · exact ⟨rfl, rfl⟩
  · rw [hkeys]
    split
    · rw [List.map_append, List.nodup_append]
      refine ⟨ho.nodup ev b, by simp, fun x hx y hy ↦ ?_⟩
      obtain ⟨k, hk, rfl⟩ := List.mem_map.mp hx
      obtain rfl : y = s.nextRegistration := by simpa using hy
      exact ho.ne_next hk
    · exact ho.nodup ev' b
  · rw [hnext]
    rcases hmem hk with hk | ⟨-, -, rfl⟩
    · exact Nat.lt_succ_of_lt (ho.fresh ev' b k hk)
    · exact Nat.lt_succ_self _
  · rw [hnext]
    rcases htokens with htokens | ⟨generation, htokens⟩
    · exact hold ⟨t, htokens ▸ ht⟩
    · rw [htokens] at ht
      rcases getElem?_concat_cases ht with ht | rfl
      · exact hold ⟨t, ht⟩
      · refine ⟨Nat.lt_succ_self _, fun ev' b k hk hreg ↦ ?_⟩
        rcases hmem hk with hk | ⟨rfl, rfl, rfl⟩
        · exact absurd hreg (ho.ne_next hk)
        · exact ⟨rfl, rfl, rfl, rfl, rfl⟩
  · rw [hmessages]
    rcases htokens with htokens | ⟨generation, htokens⟩
    · rw [htokens]
      exact ho.message
    · rw [htokens]
      exact ho.message_append _

theorem messageAdded {new : EventToken} {listener : MessageListener}
    (hkeys : ∀ ev b, s'.keys ev b = s.keys ev b)
    (hnew : new.message = true ∧ new.active = true ∧ new.registration = s.nextRegistration)
    (htokens : s'.eventTokens = s.eventTokens ++ [new])
    (hlistener : listener.token = s.eventTokens.length)
    (hmessages : s'.messageListeners = listener :: s.messageListeners)
    (hnext : s'.nextRegistration = s.nextRegistration + 1) : Owned s' := by
  have hkeys' : s'.keys = s.keys := funext₂ hkeys
  refine ⟨hkeys' ▸ ho.unique, hkeys' ▸ ho.nodup, fun ev b k hk ↦ ?_, fun t token ht ↦ ?_,
    fun l hl ↦ ?_, ?_⟩
  · rw [hnext]
    exact Nat.lt_succ_of_lt (ho.fresh ev b k (hkeys ev b ▸ hk))
  · rw [hkeys', hnext]
    rw [htokens] at ht
    rcases getElem?_concat_cases ht with ht | rfl
    · obtain ⟨hlt, hkey⟩ := ho.issued t token ht
      exact ⟨Nat.lt_succ_of_lt hlt, hkey⟩
    · rw [hnew.2.2]
      exact ⟨Nat.lt_succ_self _, fun ev b k hk hreg ↦ absurd hreg (ho.ne_next hk)⟩
  · rw [hmessages] at hl
    rw [htokens]
    rcases List.mem_cons.mp hl with rfl | hl
    · exact ⟨new, by rw [hlistener, List.getElem?_concat_length], hnew.1, hnew.2.1⟩
    · exact ho.message_append [new] l hl
  · rw [hmessages, List.map_cons, List.nodup_cons]
    refine ⟨fun hmem ↦ ?_, ho.messageNodup⟩
    obtain ⟨l, hl, hlt⟩ := List.mem_map.mp hmem
    obtain ⟨token, htoken, -⟩ := ho.message l hl
    have hlength := (List.getElem?_eq_some_iff.mp htoken).1
    omega

end Owned

/-- **Every call but `event_off_token` keeps ownership.** -/
theorem OwnerStep.owned {s s' : EventBus} (h : OwnerStep s s') (ho : Owned s) : Owned s' := by
  cases h with
  | dropped hkeys hframe => exact ho.dropped hkeys hframe
  | registered ev binary cb user hkeys htokens hmessages hnext =>
    exact ho.registered hkeys htokens hmessages hnext
  | message new listener hkeys hnew htokens hlistener hmessages hnext =>
    exact ho.messageAdded hkeys hnew htokens hlistener hmessages hnext

/-! ## Unregistering by token -/

/-- Erasing the first element with a property erases exactly the element numbered `r`, if there is
one, exactly when no other element comes first. -/
theorem eraseP_eq_filter_iff {α : Type} {f : α → ℕ} {p : α → Bool} {r : ℕ} :
    ∀ {L : List α}, (L.map f).Nodup → (∀ a ∈ L, f a = r → p a = true) →
      (L.eraseP p = L.filter (fun a ↦ f a ≠ r) ↔ ∀ a, L.find? p = some a → f a = r)
  | [], _, _ => by simp
  | a :: L, hnd, hp => by
    rw [List.map_cons, List.nodup_cons] at hnd
    have hne : ∀ b ∈ L, f b ≠ f a := fun b hb h ↦ hnd.1 (h ▸ List.mem_map_of_mem hb)
    cases hpa : p a with
    | true =>
      rw [List.eraseP_cons_of_pos hpa, List.find?_cons_of_pos hpa]
      simp only [Option.some.injEq, forall_eq']
      constructor
      · intro h
        by_contra hr
        rw [List.filter_cons_of_pos (by simpa using hr)] at h
        have hmem : a ∈ L := h ▸ List.mem_cons_self
        exact hnd.1 (List.mem_map_of_mem hmem)
      · rintro rfl
        rw [List.filter_cons_of_neg (by simp), List.filter_eq_self.mpr]
        exact fun b hb ↦ decide_eq_true (hne b hb)
    | false =>
      have hr : f a ≠ r := fun h ↦ by simp [hp a (by simp) h] at hpa
      rw [List.eraseP_cons_of_neg (by simp [hpa]), List.find?_cons_of_neg (by simp [hpa]),
        List.filter_cons_of_pos (by simpa using hr), List.cons.injEq, and_iff_right rfl]
      exact eraseP_eq_filter_iff hnd.2 fun b hb ↦ hp b (List.mem_cons_of_mem a hb)

variable (dictHash)

/-- What `event_off_token` owes the owner of an issued token: its own registration is gone, and
every other is where it was. -/
def OffCorrect (s : EventBus) (t : ℕ) : Prop :=
  ∀ token, s.eventTokens[t]? = some token → ∃ s', eventOffToken dictHash s (some t) = some s' ∧
    (∀ ev b, s'.regs ev b = (s.regs ev b).filter fun l ↦ l.registration ≠ token.registration) ∧
    s'.messageListeners = s.messageListeners.filter fun l ↦ l.token ≠ t

/-- The event has no entry, and looking for it in the store would go round forever. -/
def EventBus.Lost (s : EventBus) (event : CStr) : Prop :=
  ∃ store, s.eventStore = some store ∧ store.toMap event = none ∧ ¬ store.HasNull

/-- An active token for a listener whose event is lost, or has another registration with the
token's callback and user pointer before the token's own, if that is still there at all. -/
def Misdirected (s : EventBus) (t : ℕ) : Prop :=
  ∃ token, s.eventTokens[t]? = some token ∧ token.active = true ∧ token.message = false ∧
    (s.Lost token.event ∨ ∃ l, (s.regs token.event token.binary).find? token.looksLike = some l ∧
      l.registration ≠ token.registration)

variable {dictHash}

theorem eventLookup_none_iff {s : EventBus} (hs : StoreOk dictHash s) (event : CStr) :
    eventLookup dictHash s event = none ↔ s.Lost event := by
  rw [eventLookup, EventBus.Lost]
  cases hstore : s.eventStore with
  | none => simp
  | some store =>
    have hiff := (hs.coherent store hstore).dictLookup_none_iff event
    simp only [Option.some.injEq, exists_eq_left', Dict.toMap_eq_none]
    rw [and_comm, ← hiff, dictGetPtr, dictGetKp]
    cases hl : dictLookup store event (dictHash event) with
    | none => exact iff_of_true rfl rfl
    | some i => cases hslot : store.slot i <;> simp [hslot]

theorem Owned.mem_keys {s : EventBus} {ev : CStr} {b : Bool} {l : Listener}
    (h : l ∈ s.regs ev b) : l.key ∈ s.keys ev b := List.mem_map_of_mem h

/-- Erasing the first look-alike is erasing the token's own registration exactly when no other
registration comes first. -/
theorem Owned.eraseP_iff {s : EventBus} (ho : Owned s) {t : ℕ} {token : EventToken}
    (ht : s.eventTokens[t]? = some token) :
    ((s.regs token.event token.binary).eraseP token.looksLike
        = (s.regs token.event token.binary).filter fun l ↦ l.registration ≠ token.registration) ↔
      ∀ l, (s.regs token.event token.binary).find? token.looksLike = some l →
        l.registration = token.registration := by
  refine eraseP_eq_filter_iff (f := Listener.registration) ?_ fun l hl hreg ↦ ?_
  · have h := ho.nodup token.event token.binary
    rwa [EventBus.keys, List.map_map] at h
  · obtain ⟨-, -, -, -, hkey⟩ := (ho.issued t token ht).2 _ _ _ (Owned.mem_keys hl) hreg
    obtain ⟨hcb, huser⟩ := Prod.mk.injEq .. ▸ hkey
    rw [EventToken.looksLike, Bool.and_eq_true, beq_iff_eq, beq_iff_eq]
    exact ⟨hcb, huser⟩

/-- Listeners of another event or kind are not the token's. -/
theorem Owned.filter_of_ne {s : EventBus} (ho : Owned s) {t : ℕ} {token : EventToken}
    (ht : s.eventTokens[t]? = some token) {ev : CStr} {b : Bool}
    (h : token.active = true → token.message = false → ¬ (ev = token.event ∧ b = token.binary)) :
    (s.regs ev b).filter (fun l ↦ l.registration ≠ token.registration) = s.regs ev b := by
  refine List.filter_eq_self.mpr fun l hl ↦ decide_eq_true fun hreg ↦ ?_
  obtain ⟨hact, hmsg, rfl, rfl, -⟩ := (ho.issued t token ht).2 _ _ _ (Owned.mem_keys hl) hreg
  exact h hact hmsg ⟨rfl, rfl⟩

/-- A token that is not on the message list. -/
theorem Owned.messages_of_ne {s : EventBus} (ho : Owned s) {t : ℕ} {token : EventToken}
    (ht : s.eventTokens[t]? = some token) (h : token.message = true → token.active = false) :
    s.messageListeners.filter (fun l ↦ l.token ≠ t) = s.messageListeners := by
  refine List.filter_eq_self.mpr fun l hl ↦ decide_eq_true ?_
  rintro rfl
  obtain ⟨token', htoken, hmsg, hact⟩ := ho.message l hl
  obtain rfl : token = token' := Option.some_inj.mp (ht.symm.trans htoken)
  simp [h hmsg] at hact

/-- A message token takes its own listener off the list. -/
theorem Owned.eraseP_messages {s : EventBus} (ho : Owned s) (t : ℕ) :
    s.messageListeners.eraseP (fun l ↦ l.token == t)
      = s.messageListeners.filter fun l ↦ l.token ≠ t :=
  (eraseP_eq_filter_iff ho.messageNodup fun l _ h ↦ by simpa using h).mpr fun l hl ↦ by
    simpa using List.find?_some hl

@[simp] theorem deactivate_regs (s : EventBus) (t : ℕ) : (deactivate s t).regs = s.regs := rfl

@[simp] theorem deactivate_messages (s : EventBus) (t : ℕ) :
    (deactivate s t).messageListeners = s.messageListeners := rfl

theorem get_offFirst (token : EventToken) (entry : EventEntry) (b : Bool) :
    (offFirst token entry).get b
      = if b = token.binary then (entry.get token.binary).eraseP token.looksLike
        else entry.get b :=
  EventEntry.get_set entry token.binary b _

/-- What `event_off_token` does with the lock, on a token for a listener: it gets lost, or erases
the first listener that looks like the token. -/
theorem offTokenLocked_spec {s : EventBus} (hs : StoreOk dictHash s) {t : ℕ} {token : EventToken}
    (ht : s.eventTokens[t]? = some token) (hmsg : token.message = false) :
    (s.Lost token.event ∧ offTokenLocked dictHash s t = none) ∨
      (¬ s.Lost token.event ∧ ∃ s₁, offTokenLocked dictHash s t = some (deactivate s₁ t) ∧
        StoreOk dictHash s₁ ∧ Frame s s₁ ∧ ∀ ev b, s₁.regs ev b
          = if ev = token.event ∧ b = token.binary
            then (s.regs token.event token.binary).eraseP token.looksLike else s.regs ev b) := by
  rw [← eventLookup_none_iff hs]
  simp only [offTokenLocked, ht, hmsg, Option.bind_eq_bind, Option.bind_some,
    Bool.false_eq_true, if_false, Option.pure_def]
  cases hl : eventLookup dictHash s token.event with
  | none => exact .inl ⟨rfl, rfl⟩
  | some r =>
    have haddr := eventLookup_eq hs hl
    refine .inr ⟨by simp, ?_⟩
    cases r with
    | none =>
      refine ⟨s, rfl, hs, .refl s, fun ev b ↦ ?_⟩
      split
      · rename_i h
        have hnil : s.regs token.event token.binary = [] := by
          rw [EventBus.regs, ← haddr]
          rfl
        rw [h.1, h.2, hnil, List.eraseP_nil]
      · rfl
    | some a =>
      obtain ⟨entry, hentry⟩ := hs.alloc _ a haddr.symm
      obtain ⟨s₁, hrem, hs₁, hframe, hregs⟩ := replaceListeners_spec hs haddr.symm hentry
        (get_offFirst token entry)
      refine ⟨s₁, ?_, hs₁, hframe, fun ev b ↦ ?_⟩
      · simp [hentry, hrem]
      · rw [hregs, EventBus.regs_of_addrOf haddr.symm hentry]

theorem eventOffToken_of_active {s : EventBus} {t : ℕ} {token : EventToken}
    (ht : s.eventTokens[t]? = some token) (hact : token.active = true) :
    eventOffToken dictHash s (some t) = offTokenLocked dictHash s t := by
  simp only [eventOffToken, offTokenLocked, ht, hact, Option.bind_eq_bind, Option.bind_some,
    Bool.true_eq_false, if_false]

/-- **`event_off_token`**, on an active token for a listener: it gets lost, or erases the first
listener that looks like the token. -/
theorem eventOffToken_spec {s : EventBus} (hs : StoreOk dictHash s) {t : ℕ} {token : EventToken}
    (ht : s.eventTokens[t]? = some token) (hact : token.active = true)
    (hmsg : token.message = false) :
    (s.Lost token.event ∧ eventOffToken dictHash s (some t) = none) ∨
      (¬ s.Lost token.event ∧ ∃ s₁, eventOffToken dictHash s (some t) = some (deactivate s₁ t) ∧
        StoreOk dictHash s₁ ∧ Frame s s₁ ∧ ∀ ev b, s₁.regs ev b
          = if ev = token.event ∧ b = token.binary
            then (s.regs token.event token.binary).eraseP token.looksLike else s.regs ev b) := by
  rw [eventOffToken_of_active ht hact]
  exact offTokenLocked_spec hs ht hmsg

/-- **A call of `event_off_token` does what it owes exactly when the token is not misdirected.** -/
theorem offCorrect_iff {s : EventBus} (hs : StoreOk dictHash s) (ho : Owned s) (t : ℕ) :
    OffCorrect dictHash s t ↔ ¬ Misdirected s t := by
  cases ht : s.eventTokens[t]? with
  | none => simp [OffCorrect, Misdirected, ht]
  | some token =>
    simp only [OffCorrect, Misdirected, ht, Option.some.injEq, forall_eq', exists_eq_left']
    by_cases hact : token.active = true
    · cases hmsg : token.message with
      | true =>
        refine iff_of_true ⟨_, by simp [eventOffToken, ht, hact, hmsg]; rfl, fun ev b ↦ ?_, ?_⟩
          (by simp)
        · exact (ho.filter_of_ne ht fun _ h ↦ by simp [hmsg] at h).symm
        · exact ho.eraseP_messages t
      | false =>
        have hmessages := ho.messages_of_ne ht fun h ↦ by simp [hmsg] at h
        simp only [hact, true_and]
        rcases eventOffToken_spec hs ht hact hmsg with ⟨hlost, hnone⟩ | ⟨hlost, s₁, hoff, -, hf, hr⟩
        · simp [hnone, hlost]
        · simp only [hoff, hlost, false_or, Option.some.injEq, exists_eq_left', deactivate_regs,
            deactivate_messages, not_exists, not_and, ne_eq, not_not]
          rw [← ho.eraseP_iff ht, hf.messages]
          constructor
          · rintro ⟨hregs, -⟩
            rw [← hregs, hr, if_pos ⟨rfl, rfl⟩]
          · refine fun h ↦ ⟨fun ev b ↦ ?_, hmessages.symm⟩
            rw [hr]
            split
            · rename_i heq
              rw [heq.1, heq.2, h]
            · rename_i hne
              exact (ho.filter_of_ne ht fun _ _ ↦ hne).symm
    · have hinact : token.active = false := by simpa using hact
      refine iff_of_true ⟨s, by simp [eventOffToken, ht, hinact], fun ev b ↦ ?_, ?_⟩ (by simp [hact])
      · exact (ho.filter_of_ne ht fun h ↦ absurd h hact).symm
      · exact (ho.messages_of_ne ht fun _ ↦ hinact).symm

/-- Deactivating a token whose registration is gone keeps ownership. -/
theorem Owned.deactivate {s s₁ : EventBus} (ho : Owned s) {t : ℕ} {token : EventToken}
    (ht : s.eventTokens[t]? = some token) (htokens : s₁.eventTokens = s.eventTokens)
    (hnext : s₁.nextRegistration = s.nextRegistration)
    (hsub : ∀ ev b, (s₁.keys ev b).Sublist (s.keys ev b))
    (hgone : ∀ ev b, ∀ k ∈ s₁.keys ev b, k.1 ≠ token.registration)
    (hmessages : s₁.messageListeners.Sublist s.messageListeners)
    (hother : ∀ l ∈ s₁.messageListeners, l.token ≠ t) : Owned (Rustyaxe.deactivate s₁ t) := by
  have hstep : OwnerStep s { s₁ with messageListeners := s.messageListeners } :=
    .dropped hsub ⟨htokens, rfl, hnext⟩
  have hkeep := hstep.owned ho
  refine ⟨hkeep.unique, hkeep.nodup, hkeep.fresh, fun t' token' ht' ↦ ?_, fun l hl ↦ ?_,
    (hmessages.map _).nodup ho.messageNodup⟩
  · rw [Rustyaxe.deactivate, htokens] at ht'
    by_cases htt : t = t'
    · subst htt
      obtain rfl : { token with active := false } = token' := by
        simpa [List.getElem?_modify, ht] using ht'
      refine ⟨(hkeep.issued t token (htokens ▸ ht)).1, fun ev b k hk hreg ↦ ?_⟩
      exact absurd hreg (hgone ev b k hk)
    · refine hkeep.issued t' token' ?_
      simpa [List.getElem?_modify, htt, htokens] using ht'
  · obtain ⟨token', htoken, hmsg⟩ := ho.message l (hmessages.mem hl)
    refine ⟨token', ?_, hmsg⟩
    have hne := hother l hl
    simpa [Rustyaxe.deactivate, htokens, List.getElem?_modify, Ne.symm hne] using htoken

/-- **A call of `event_off_token` that does what it owes keeps ownership.** -/
theorem OffCorrect.owned {s s' : EventBus} (hs : StoreOk dictHash s) (ho : Owned s) {t : ℕ}
    (hoff : OffCorrect dictHash s t) (h : eventOffToken dictHash s (some t) = some s') :
    StoreOk dictHash s' ∧ Owned s' := by
  cases ht : s.eventTokens[t]? with
  | none => simp [eventOffToken, ht] at h
  | some token =>
    obtain ⟨s'', hs'', hregs, hmessages⟩ := hoff token ht
    obtain rfl : s'' = s' := Option.some_inj.mp (hs''.symm.trans h)
    have hgone : ∀ ev b, ∀ k ∈ s''.keys ev b, k.1 ≠ token.registration := by
      intro ev b k hk
      obtain ⟨l, hl, rfl⟩ := List.mem_map.mp hk
      rw [hregs] at hl
      exact of_decide_eq_true (List.mem_filter.mp hl).2
    have hsub : ∀ ev b, (s''.keys ev b).Sublist (s.keys ev b) := fun ev b ↦ by
      rw [EventBus.keys, hregs]
      exact List.filter_sublist.map _
    have hmsub : s''.messageListeners.Sublist s.messageListeners :=
      hmessages ▸ List.filter_sublist
    have hother : ∀ l ∈ s''.messageListeners, l.token ≠ t := fun l hl ↦ by
      rw [hmessages] at hl
      exact of_decide_eq_true (List.mem_filter.mp hl).2
    by_cases hact : token.active = true
    · cases hmsg : token.message with
      | true =>
        obtain rfl : deactivate { s with messageListeners := _ } t = s'' := by
          simpa [eventOffToken, ht, hact, hmsg] using h
        exact ⟨hs.congr rfl rfl rfl, ho.deactivate ht rfl rfl hsub hgone hmsub hother⟩
      | false =>
        rcases eventOffToken_spec hs ht hact hmsg with ⟨-, hnone⟩ | ⟨-, s₁, hs₁, hok, hf, -⟩
        · simp [hnone] at h
        · obtain rfl : deactivate s₁ t = s'' := Option.some_inj.mp (hs₁.symm.trans h)
          exact ⟨hok.congr rfl rfl rfl,
            ho.deactivate ht hf.tokens hf.registration hsub hgone hmsub hother⟩
    · have hinact : token.active = false := by simpa using hact
      obtain rfl : s = s'' := by simpa [eventOffToken, ht, hinact] using h
      exact ⟨hs, ho⟩

theorem storeOk_eventInit : StoreOk dictHash eventInit := by
  have hnone : ∀ ev, eventInit.addrOf ev = none := fun _ ↦ rfl
  refine ⟨fun store h ↦ ?_, fun ev a h ↦ ?_, fun ev a h ↦ ?_, fun ev ev' a h _ ↦ ?_⟩
  · obtain rfl : dictNew = store := Option.some_inj.mp h
    exact wellFormed_dictNew.toCoherent
  all_goals simp [hnone] at h

theorem owned_eventInit : Owned eventInit := by
  have hnil : ∀ ev b, eventInit.keys ev b = [] := fun _ _ ↦ rfl
  refine ⟨fun ev b ev' b' k k' h ↦ ?_, fun ev b ↦ ?_, fun ev b k h ↦ ?_, fun t token h ↦ ?_,
    fun l h ↦ ?_, List.nodup_nil⟩
  · simp [hnil] at h
  · simp [hnil]
  · simp [hnil] at h
  · simp [eventInit] at h
  · simp [eventInit] at h

/-- **Which runs respect ownership.**  Along a run from an initialised registry, every call of
`event_off_token` removes its own registration, if that is still there, and nothing else, exactly
when no such call is made with a misdirected token. -/
theorem offToken_correct_iff (dictHash : CStr → UInt32) (cs : List EventCall) :
    NoStep (eventCall dictHash) eventInit cs
        (fun s c ↦ ∃ t, c = .offToken (some t) ∧ ¬ OffCorrect dictHash s t) ↔
      NoStep (eventCall dictHash) eventInit cs
        (fun s c ↦ ∃ t, c = .offToken (some t) ∧ Misdirected s t) := by
  refine noStep_congr (I := fun s ↦ StoreOk dictHash s ∧ Owned s)
    ⟨storeOk_eventInit, owned_eventInit⟩ (fun s c h ↦ ?_) (fun s c s' h hc hstep ↦ ?_) cs
  · refine exists_congr fun t ↦ and_congr_right fun _ ↦ ?_
    rw [offCorrect_iff h.1 h.2, not_not]
  · by_cases hoff : ∀ t, c ≠ .offToken t
    · obtain ⟨hs', hown⟩ := eventCall_step h.1 hoff hstep
      exact ⟨hs', hown.owned h.2⟩
    · obtain ⟨t, rfl⟩ : ∃ t, c = .offToken t := by simpa using hoff
      cases t with
      | none =>
        obtain rfl : s = s' := Option.some_inj.mp hstep
        exact h
      | some t =>
        have hcorrect : OffCorrect dictHash s t := by
          by_contra hne
          exact hc ⟨t, rfl, hne⟩
        exact hcorrect.owned h.1 h.2 hstep

/-- Two owners register the same callback and user pointer, the second with a dispatcher. -/
def twoOwners : List EventCall :=
  [.onToken .ok (some [101]) 1 2 0 0, .onToken .ok (some [101]) 1 2 9 0]

/-- The second owner's token removes the first owner's registration. -/
theorem offToken_removes_other : ∃ s,
    runSteps (eventCall dictHashMurmur) eventInit twoOwners = some s ∧
    ¬ OffCorrect dictHashMurmur s 1 ∧
    ∃ s', eventOffToken dictHashMurmur s (some 1) = some s' ∧
      (s.regs [101] false).map Listener.registration = [0, 1] ∧
      (s'.regs [101] false).map Listener.registration = [1] := by
  refine ⟨_, rfl, fun h ↦ ?_, _, rfl, by decide, by decide⟩
  obtain ⟨s', hs', hregs, -⟩ := h _ rfl
  have hlost : (s'.regs [101] false).map Listener.registration = [1] := by
    obtain rfl := Option.some_inj.mp hs'
    decide
  rw [hregs] at hlost
  exact absurd hlost (by decide)

end Rustyaxe
