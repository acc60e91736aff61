import Rustyaxe.Event.Registry

/-!
# What the registry stands for

`EventBus.regs` is the abstract registry: the listeners of an event, in order.  Each call is a
small operation on it, append, filter, or erase the first that looks like the token; the
specifications here say so, for any store the calls can leave behind (`StoreOk`).  `OwnerStep`
gathers what a call other than `event_off_token` can do, as far as the owners of registrations are
concerned.
-/

set_option autoImplicit false

namespace Rustyaxe

/-! ## What the registry stands for -/

/-- The pointer of a value that is one. -/
def DictValue.address : DictValue → Option ℕ
  | .ptr a => some a
  | _ => none

/-- The address the store has for an event. -/
def EventBus.addrOf (s : EventBus) (event : CStr) : Option ℕ :=
  (s.eventStore.bind fun store ↦ store.toMap event).bind DictValue.address

/-- The listeners of an event, in order. -/
def EventBus.regs (s : EventBus) (event : CStr) (binary : Bool) : List Listener :=
  (((s.addrOf event).bind s.entries).map (·.get binary)).getD []

variable (dictHash : CStr → UInt32)

/-- The store is a sound table of distinct, allocated entries. -/
structure StoreOk (s : EventBus) : Prop where
  coherent : ∀ store, s.eventStore = some store → Coherent dictHash store
  alloc : ∀ event a, s.addrOf event = some a → ∃ entry, s.entries a = some entry
  bound : ∀ event a, s.addrOf event = some a → a < s.nextEntry
  inj : ∀ event event' a, s.addrOf event = some a → s.addrOf event' = some a → event = event'

variable {dictHash}

@[simp] theorem EventEntry.get_set (e : EventEntry) (b b' : Bool) (ls : List Listener) :
    (e.set b ls).get b' = if b' = b then ls else e.get b' := by
  cases b <;> cases b' <;> rfl

theorem EventEntry.get_append (e : EventEntry) (b bump b' : Bool) (l : Listener) :
    (e.append b bump l).get b' = if b' = b then e.get b ++ [l] else e.get b' := by
  cases bump <;> exact EventEntry.get_set e b b' _

theorem eventLookup_eq {s : EventBus} (hs : StoreOk dictHash s) {event : CStr} {r : Option ℕ}
    (h : eventLookup dictHash s event = some r) : r = s.addrOf event := by
  rw [eventLookup] at h
  rw [EventBus.addrOf]
  cases hstore : s.eventStore with
  | none => rw [hstore] at h; simpa using h.symm
  | some store =>
    rw [hstore] at h
    dsimp only at h
    rw [dictGetPtr, Option.bind_eq_bind, Option.bind_eq_some_iff] at h
    obtain ⟨kp, hkp, hr⟩ := h
    rw [(hs.coherent store hstore).dictGetKp_eq_some hkp] at hr
    simp only [Option.bind_some, Dict.toMap]
    cases hk : store.entryOf event with
    | none => rw [hk] at hr; simpa using hr.symm
    | some kp =>
      obtain ⟨key, v, hash⟩ := kp
      rw [hk] at hr
      cases v <;> simpa [DictValue.address] using hr.symm

/-- A live event is found, whatever the store has been through. -/
theorem eventLookup_of_addrOf {s : EventBus} (hs : StoreOk dictHash s) {event : CStr} {a : ℕ}
    (h : s.addrOf event = some a) : eventLookup dictHash s event = some (some a) := by
  have hex : ∃ r, eventLookup dictHash s event = some r := by
    rw [eventLookup]
    cases hstore : s.eventStore with
    | none => exact ⟨_, rfl⟩
    | some store =>
      rw [EventBus.addrOf, hstore] at h
      have hlive : ∃ kp, store.entryOf event = some kp := by
        cases hk : store.entryOf event with
        | none => simp [Dict.toMap, hk] at h
        | some kp => exact ⟨kp, rfl⟩
      dsimp only
      rw [dictGetPtr, (hs.coherent store hstore).dictGetKp_of_isSome (.inr hlive)]
      exact ⟨_, rfl⟩
  obtain ⟨r, hr⟩ := hex
  rw [hr, eventLookup_eq hs hr, h]

/-- Nothing but the store and its entries differs. -/
structure Frame (s s' : EventBus) : Prop where
  tokens : s'.eventTokens = s.eventTokens
  messages : s'.messageListeners = s.messageListeners
  registration : s'.nextRegistration = s.nextRegistration

theorem Frame.refl (s : EventBus) : Frame s s := ⟨rfl, rfl, rfl⟩

theorem Frame.trans {s s' s'' : EventBus} (h : Frame s s') (h' : Frame s' s'') : Frame s s'' :=
  ⟨h'.tokens.trans h.tokens, h'.messages.trans h.messages, h'.registration.trans h.registration⟩

theorem EventBus.regs_of_addrOf {s : EventBus} {event : CStr} {a : ℕ} {entry : EventEntry}
    (ha : s.addrOf event = some a) (he : s.entries a = some entry) (binary : Bool) :
    s.regs event binary = entry.get binary := by
  rw [EventBus.regs, ha, Option.bind_some, he, Option.map_some, Option.getD_some]

@[simp] theorem setEntry_addrOf (s : EventBus) (a : ℕ) (e : Option EventEntry) (event : CStr) :
    (s.setEntry a e).addrOf event = s.addrOf event := rfl

theorem setEntry_entries (s : EventBus) (a : ℕ) (e : Option EventEntry) (a' : ℕ) :
    (s.setEntry a e).entries a' = if a' = a then e else s.entries a' :=
  Function.update_apply s.entries a e a'

/-- Soundness of the store is about the store and its entries. -/
theorem StoreOk.congr {s s' : EventBus} (hs : StoreOk dictHash s)
    (hstore : s'.eventStore = s.eventStore) (hentries : s'.entries = s.entries)
    (hnext : s'.nextEntry = s.nextEntry) : StoreOk dictHash s' := by
  have haddr : s'.addrOf = s.addrOf := by
    funext ev
    rw [EventBus.addrOf, EventBus.addrOf, hstore]
  exact ⟨hstore ▸ hs.coherent, haddr ▸ hentries ▸ hs.alloc, haddr ▸ hnext ▸ hs.bound,
    haddr ▸ hs.inj⟩

section SetEntry

variable {s : EventBus} (hs : StoreOk dictHash s) {event : CStr} {a : ℕ}
  (ha : s.addrOf event = some a) (entry : EventEntry)
include hs

/-- Writing an allocated entry keeps the store sound. -/
theorem StoreOk.setEntry : StoreOk dictHash (s.setEntry a (some entry)) := by
  refine ⟨hs.coherent, fun ev a' h ↦ ?_, hs.bound, hs.inj⟩
  rw [setEntry_entries]
  split
  · exact ⟨entry, rfl⟩
  · exact hs.alloc ev a' h

include ha

/-- It changes the listeners of its own event only. -/
theorem StoreOk.regs_setEntry (ev : CStr) (binary : Bool) :
    (s.setEntry a (some entry)).regs ev binary
      = if ev = event then entry.get binary else s.regs ev binary := by
  split
  · rename_i h
    subst h
    exact EventBus.regs_of_addrOf (by exact ha) (by rw [setEntry_entries, if_pos rfl]) binary
  · rename_i hne
    rw [EventBus.regs, EventBus.regs, setEntry_addrOf]
    cases hev : s.addrOf ev with
    | none => rfl
    | some a' =>
      have : a' ≠ a := fun h ↦ hne (hs.inj ev event a' hev (h ▸ ha))
      rw [Option.bind_some, Option.bind_some, setEntry_entries, if_neg this]

end SetEntry

/-- A new entry, for an event that has none, has nothing registered. -/
theorem createEntry_spec {s s₁ : EventBus} (hs : StoreOk dictHash s) {mem : StoreAlloc}
    {event : CStr} (haddr : s.addrOf event = none) {store store' : Dict}
    (hstore : s.eventStore = some store)
    (hadd : dictAddPtr dictHash mem store event s.nextEntry = some (true, store'))
    (hs₁ : s₁ = { s.setEntry s.nextEntry (some .zero) with
      eventStore := some store', nextEntry := s.nextEntry + 1 }) :
    StoreOk dictHash s₁ ∧ s₁.regs = s.regs ∧ Frame s s₁ ∧ s₁.addrOf event = some s.nextEntry := by
  have hco := hs.coherent store hstore
  obtain ⟨hco', hmap⟩ := (hco.dictStore_step hadd).spec hco
  have haddr' : ∀ ev, s₁.addrOf ev
      = if ev = event then some s.nextEntry else s.addrOf ev := by
    intro ev
    simp only [EventBus.addrOf, hs₁, Option.bind_some, Dict.toMap, hmap, hstore]
    split <;> rfl
  have hent : ∀ a, s₁.entries a
      = if a = s.nextEntry then some .zero else s.entries a := by
    rw [hs₁]
    exact setEntry_entries s s.nextEntry (some .zero)
  have hold : ∀ ev a, s.addrOf ev = some a → s₁.entries a = s.entries a := fun ev a h ↦ by
    rw [hent, if_neg (Nat.ne_of_lt (hs.bound ev a h))]
  refine ⟨⟨fun st hst ↦ ?_, fun ev a h ↦ ?_, fun ev a h ↦ ?_, fun ev ev' a h h' ↦ ?_⟩,
    ?_, by rw [hs₁]; exact ⟨rfl, rfl, rfl⟩, by rw [haddr', if_pos rfl]⟩
  · rw [hs₁] at hst
    obtain rfl : store' = st := Option.some_inj.mp hst
    exact hco'
  · rw [haddr'] at h
    split at h
    · obtain rfl := Option.some_inj.mp h
      exact ⟨.zero, by rw [hent, if_pos rfl]⟩
    · rw [hold ev a h]
      exact hs.alloc ev a h
  · have hnext : s₁.nextEntry = s.nextEntry + 1 := by rw [hs₁]
    rw [hnext]
    rw [haddr'] at h
    split at h
    · obtain rfl := Option.some_inj.mp h
      exact Nat.lt_succ_self _
    · exact Nat.lt_succ_of_lt (hs.bound ev a h)
  · rw [haddr'] at h h'
    split at h <;> split at h'
    · rename_i h1 h2; exact h1.trans h2.symm
    · obtain rfl := Option.some_inj.mp h
      exact absurd (hs.bound ev' _ h') (Nat.lt_irrefl _)
    · obtain rfl := Option.some_inj.mp h'
      exact absurd (hs.bound ev _ h) (Nat.lt_irrefl _)
    · exact hs.inj ev ev' a h h'
  · funext ev b
    rw [EventBus.regs, EventBus.regs, haddr']
    split
    · rename_i h
      rw [h, haddr, Option.bind_some, hent, if_pos rfl]
      cases b <;> rfl
    · cases hev : s.addrOf ev with
      | none => rfl
      | some a => rw [Option.bind_some, Option.bind_some, hold ev a hev]

/-- **`event_get_or_create_locked`** returns the entry of the event, and registers nothing. -/
theorem eventGetOrCreate_spec {s s' : EventBus} (hs : StoreOk dictHash s) {mem : StoreAlloc}
    {event : CStr} {r : Option ℕ} (h : eventGetOrCreate dictHash mem s event = some (r, s')) :
    StoreOk dictHash s' ∧ s'.regs = s.regs ∧ Frame s s' ∧
      ∀ a, r = some a → s'.addrOf event = some a := by
  rw [eventGetOrCreate, Option.bind_eq_bind, Option.bind_eq_some_iff] at h
  obtain ⟨entry, hentry, h⟩ := h
  have haddr := eventLookup_eq hs hentry
  cases entry with
  | some a =>
    obtain ⟨rfl, rfl⟩ : some a = r ∧ s = s' := by simpa using h
    exact ⟨hs, rfl, .refl s, fun a' ha' ↦ by rw [← haddr, ha']⟩
  | none =>
    cases hstore : s.eventStore with
    | none =>
      obtain ⟨rfl, rfl⟩ : none = r ∧ s = s' := by simpa [hstore] using h
      exact ⟨hs, rfl, .refl s, fun a' ha' ↦ by simp at ha'⟩
    | some store =>
      simp only [hstore, Option.bind_eq_bind, Option.bind_eq_some_iff] at h
      obtain ⟨⟨rc, store'⟩, hadd, h⟩ := h
      have hco := hs.coherent store hstore
      cases rc with
      | false =>
        obtain ⟨rfl, rfl⟩ : none = r ∧ s = s' := by simpa using h
        exact ⟨hs, rfl, .refl s, fun a' ha' ↦ by simp at ha'⟩
      | true =>
        simp only [Bool.true_eq_false, if_false, Option.pure_def, Option.some.injEq,
          Prod.mk.injEq] at h
        obtain ⟨rfl, rfl⟩ := h
        obtain ⟨hok, hregs, hframe, haddr'⟩ := createEntry_spec hs haddr.symm hstore hadd rfl
        exact ⟨hok, hregs, hframe, fun a ha ↦ Option.some.inj ha ▸ haddr'⟩

/-- **`event_remove_if_empty_locked`**, on the entry of the event, always returns, and unregisters
nothing. -/
theorem eventRemoveIfEmpty_spec {s : EventBus} (hs : StoreOk dictHash s) {event : CStr} {a : ℕ}
    (ha : s.addrOf event = some a) :
    ∃ s', eventRemoveIfEmpty dictHash s event a = some s' ∧ StoreOk dictHash s' ∧
      s'.regs = s.regs ∧ Frame s s' := by
  obtain ⟨entry, hentry⟩ := hs.alloc event a ha
  rw [eventRemoveIfEmpty, hentry]
  simp only [Option.bind_eq_bind, Option.bind_some, Option.pure_def]
  by_cases hne : entry.listeners ≠ [] ∨ entry.binaryListeners ≠ []
  · exact ⟨s, by rw [if_pos hne], hs, rfl, .refl s⟩
  · rw [if_neg hne]
    obtain ⟨hl, hb⟩ : entry.listeners = [] ∧ entry.binaryListeners = [] := by simpa using hne
    cases hstore : s.eventStore with
    | none => rw [EventBus.addrOf, hstore] at ha; simp at ha
    | some store =>
      dsimp only
      have hco := hs.coherent store hstore
      have hlive : ∃ kp, store.entryOf event = some kp := by
        cases hk : store.entryOf event with
        | none => simp [EventBus.addrOf, hstore, Dict.toMap, hk] at ha
        | some kp => exact ⟨kp, rfl⟩
      obtain ⟨kp, hkp⟩ := hlive
      obtain ⟨i, hi⟩ := Dict.entryOf_mem hkp
      obtain rfl := Dict.entryOf_key hkp
      have hdel : dictDel dictHash store kp.key = some (true, dictDelAt store i) := by
        rw [dictDel, hco.dictLookup_of_slot hi, Option.bind_eq_bind, Option.bind_some, hi]
        rfl
      obtain ⟨hco', -, hmap⟩ := hco.delAt hi
      rw [hdel]
      refine ⟨_, rfl, ?_⟩
      set s₁ : EventBus := { s.setEntry a none with eventStore := some (dictDelAt store i) }
        with hs₁
      have haddr' : ∀ ev, s₁.addrOf ev = if ev = kp.key then none else s.addrOf ev := by
        intro ev
        simp only [EventBus.addrOf, hs₁, Option.bind_some, Dict.toMap, hmap, hstore]
        split <;> rfl
      have hother : ∀ ev a', s₁.addrOf ev = some a' →
          s.addrOf ev = some a' ∧ s₁.entries a' = s.entries a' := by
        intro ev a' h
        rw [haddr'] at h
        split at h
        · simp at h
        · rename_i hev
          refine ⟨h, (setEntry_entries s a none a').trans (if_neg fun heq ↦ hev ?_)⟩
          exact hs.inj ev kp.key a' h (heq ▸ ha)
      refine ⟨⟨fun st hst ↦ ?_, fun ev a' h ↦ ?_, fun ev a' h ↦ ?_, fun ev ev' a' h h' ↦ ?_⟩,
        ?_, ⟨rfl, rfl, rfl⟩⟩
      · obtain rfl : dictDelAt store i = st := Option.some_inj.mp hst
        exact hco'
      · rw [(hother ev a' h).2]
        exact hs.alloc ev a' (hother ev a' h).1
      · exact hs.bound ev a' (hother ev a' h).1
      · exact hs.inj ev ev' a' (hother ev a' h).1 (hother ev' a' h').1
      · funext ev b
        rw [EventBus.regs, EventBus.regs]
        cases hev : s₁.addrOf ev with
        | some a' =>
          rw [(hother ev a' hev).1, Option.bind_some, Option.bind_some, (hother ev a' hev).2]
        | none =>
          rw [haddr'] at hev
          split at hev
          · rename_i h
            rw [h, ha, Option.bind_some, hentry, Option.map_some, Option.getD_some]
            cases b
            · exact hl.symm
            · exact hb.symm
          · rw [hev]
            rfl

/-! ## What each call does to the registrations -/

/-- **Registering** appends one listener, with a number of its own, or does nothing. -/
theorem addListener_spec {s s' : EventBus} (hs : StoreOk dictHash s) {binary bump : Bool}
    {mem : StoreAlloc} {event : Option CStr} {cb user dispatch dispatchUser : ℕ}
    {g : Option UInt64}
    (h : addListener dictHash binary bump mem s event cb user dispatch dispatchUser
      = some (g, s')) :
    StoreOk dictHash s' ∧ s'.eventTokens = s.eventTokens ∧
      s'.messageListeners = s.messageListeners ∧
      ((g = none ∧ s'.regs = s.regs ∧ s'.nextRegistration = s.nextRegistration) ∨
        ∃ ev, event = some ev ∧ g ≠ none ∧ s'.nextRegistration = s.nextRegistration + 1 ∧
          ∀ ev' b, s'.regs ev' b = if ev' = ev ∧ b = binary
            then s.regs ev b ++ [⟨cb, user, dispatch, dispatchUser, false, s.nextRegistration⟩]
            else s.regs ev' b) := by
  have hnothing : g = none ∧ s = s' → StoreOk dictHash s' ∧ s'.eventTokens = s.eventTokens ∧
      s'.messageListeners = s.messageListeners ∧ (g = none ∧ s'.regs = s.regs ∧
        s'.nextRegistration = s.nextRegistration) := by
    rintro ⟨rfl, rfl⟩
    exact ⟨hs, rfl, rfl, rfl, rfl, rfl⟩
  unfold addListener at h
  split at h
  · rename_i ev store hstore
    split at h
    · obtain ⟨h1, h2, h3, h4⟩ := hnothing (by simpa [eq_comm] using h)
      exact ⟨h1, h2, h3, .inl h4⟩
    · rw [Option.bind_eq_bind, Option.bind_eq_some_iff] at h
      obtain ⟨⟨r, s₁⟩, hget, h⟩ := h
      obtain ⟨hs₁, hregs, hframe, haddr⟩ := eventGetOrCreate_spec hs hget
      cases r with
      | none =>
        obtain ⟨rfl, rfl⟩ : none = g ∧ s₁ = s' := by simpa using h
        exact ⟨hs₁, hframe.tokens, hframe.messages, .inl ⟨rfl, hregs, hframe.registration⟩⟩
      | some a =>
        have ha := haddr a rfl
        obtain ⟨entry, hentry⟩ := hs₁.alloc ev a ha
        simp only [hentry, Option.bind_eq_bind, Option.bind_some, Option.pure_def,
          Option.some.injEq, Prod.mk.injEq] at h
        obtain ⟨rfl, rfl⟩ := h
        rw [hframe.registration]
        refine ⟨(hs₁.setEntry _).congr rfl rfl rfl, hframe.tokens, hframe.messages,
          .inr ⟨ev, rfl, by simp, rfl, fun ev' b ↦ ?_⟩⟩
        refine (hs₁.regs_setEntry ha _ ev' b).trans ?_
        rw [EventEntry.get_append, ← hregs]
        by_cases hev : ev' = ev
        · subst hev
          rw [if_pos rfl, EventBus.regs_of_addrOf ha hentry]
          by_cases hb : b = binary
          · subst hb
            simp
          · simp [hb]
        · rw [if_neg hev, if_neg (fun h ↦ hev h.1)]
  · obtain ⟨h1, h2, h3, h4⟩ := hnothing (by simpa [eq_comm] using h)
    exact ⟨h1, h2, h3, .inl h4⟩

/-- Writing the listeners of one kind back, and dropping the entry if it is empty. -/
theorem replaceListeners_spec {s : EventBus} (hs : StoreOk dictHash s) {event : CStr} {a : ℕ}
    (ha : s.addrOf event = some a) {entry entry' : EventEntry} (hentry : s.entries a = some entry)
    {binary : Bool} {ls : List Listener}
    (hget : ∀ b, entry'.get b = if b = binary then ls else entry.get b) :
    ∃ s', eventRemoveIfEmpty dictHash (s.setEntry a (some entry')) event a = some s' ∧
      StoreOk dictHash s' ∧ Frame s s' ∧
      ∀ ev b, s'.regs ev b = if ev = event ∧ b = binary then ls else s.regs ev b := by
  obtain ⟨s', h, hs', hregs, hframe⟩ :=
    eventRemoveIfEmpty_spec (hs.setEntry entry') ha
  refine ⟨s', h, hs', ⟨hframe.tokens, hframe.messages, hframe.registration⟩, fun ev b ↦ ?_⟩
  rw [hregs, hs.regs_setEntry ha, hget]
  by_cases hev : ev = event
  · subst hev
    rw [if_pos rfl, ← EventBus.regs_of_addrOf ha hentry b]
    simp only [true_and]
  · rw [if_neg hev, if_neg (fun h ↦ hev h.1)]

/-- **`event_off` and `event_off_binary`** keep the listeners that do not match, in order. -/
theorem offListeners_spec {s s' : EventBus} (hs : StoreOk dictHash s) {binary : Bool}
    {event : Option CStr} {cb user : ℕ}
    (h : offListeners dictHash binary s event cb user = some s') :
    StoreOk dictHash s' ∧ Frame s s' ∧ ∀ ev b, (s'.regs ev b).Sublist (s.regs ev b) := by
  cases event with
  | none =>
    obtain rfl : s = s' := Option.some_inj.mp h
    exact ⟨hs, .refl s, fun ev b ↦ List.Sublist.refl _⟩
  | some event =>
    simp only [offListeners, Option.bind_eq_bind, Option.bind_eq_some_iff] at h
    obtain ⟨r, hr, h⟩ := h
    have haddr := eventLookup_eq hs hr
    cases r with
    | none =>
      obtain rfl : s = s' := by simpa using h
      exact ⟨hs, .refl s, fun ev b ↦ List.Sublist.refl _⟩
    | some a =>
      obtain ⟨entry, hentry⟩ := hs.alloc event a haddr.symm
      simp only [hentry, Option.bind_some] at h
      obtain ⟨s₁, hs₁, hok, hframe, hregs⟩ := replaceListeners_spec hs haddr.symm hentry
        (EventEntry.get_set entry binary · _)
      obtain rfl : s₁ = s' := Option.some_inj.mp (hs₁.symm.trans h)
      refine ⟨hok, hframe, fun ev b ↦ ?_⟩
      rw [hregs]
      split
      · rename_i hev
        rw [hev.1, hev.2, EventBus.regs_of_addrOf haddr.symm hentry]
        exact List.filter_sublist
      · exact List.Sublist.refl _

/-! ## The domains -/

theorem eventGetOrCreate_domains {mem : StoreAlloc} {s s' : EventBus} {event : CStr}
    {r : Option ℕ} (h : eventGetOrCreate dictHash mem s event = some (r, s')) :
    s'.eventDomains = s.eventDomains := by
  rw [eventGetOrCreate, Option.bind_eq_bind, Option.bind_eq_some_iff] at h
  obtain ⟨entry, -, h⟩ := h
  cases entry with
  | some a =>
    obtain ⟨-, rfl⟩ : some a = r ∧ s = s' := by simpa using h
    rfl
  | none =>
    cases hstore : s.eventStore with
    | none =>
      obtain ⟨-, rfl⟩ : none = r ∧ s = s' := by simpa [hstore] using h
      rfl
    | some store =>
      simp only [hstore, Option.bind_eq_bind, Option.bind_eq_some_iff] at h
      obtain ⟨⟨rc, store'⟩, -, h⟩ := h
      cases rc with
      | false =>
        obtain ⟨-, rfl⟩ : none = r ∧ s = s' := by simpa using h
        rfl
      | true =>
        obtain ⟨-, rfl⟩ := by simpa using h
        rfl

theorem eventRemoveIfEmpty_domains {s s' : EventBus} {event : CStr} {a : ℕ}
    (h : eventRemoveIfEmpty dictHash s event a = some s') : s'.eventDomains = s.eventDomains := by
  rw [eventRemoveIfEmpty, Option.bind_eq_bind, Option.bind_eq_some_iff] at h
  obtain ⟨entry, -, h⟩ := h
  split at h
  · obtain rfl := Option.some_inj.mp h
    rfl
  · cases hstore : s.eventStore with
    | none =>
      simp only [hstore] at h
      obtain rfl := Option.some_inj.mp h
      rfl
    | some store =>
      simp only [hstore, Option.bind_eq_bind, Option.bind_eq_some_iff] at h
      obtain ⟨⟨rc, store'⟩, -, h⟩ := h
      obtain rfl := Option.some_inj.mp h
      rfl

theorem addListener_domains {binary bump : Bool} {mem : StoreAlloc} {s s' : EventBus}
    {event : Option CStr} {cb user dispatch dispatchUser : ℕ} {g : Option UInt64}
    (h : addListener dictHash binary bump mem s event cb user dispatch dispatchUser
      = some (g, s')) : s'.eventDomains = s.eventDomains := by
  unfold addListener at h
  split at h
  · split at h
    · obtain ⟨-, rfl⟩ : none = g ∧ s = s' := by simpa using h
      rfl
    · rw [Option.bind_eq_bind, Option.bind_eq_some_iff] at h
      obtain ⟨⟨r, s₁⟩, hget, h⟩ := h
      rw [← eventGetOrCreate_domains hget]
      cases r with
      | none =>
        obtain ⟨-, rfl⟩ : none = g ∧ s₁ = s' := by simpa using h
        rfl
      | some a =>
        simp only [Option.bind_eq_bind, Option.bind_eq_some_iff, Option.pure_def,
          Option.some.injEq, Prod.mk.injEq] at h
        obtain ⟨entry, -, -, rfl⟩ := h
        rfl
  · obtain ⟨-, rfl⟩ : none = g ∧ s = s' := by simpa using h
    rfl

theorem offListeners_domains {binary : Bool} {s s' : EventBus} {event : Option CStr}
    {cb user : ℕ} (h : offListeners dictHash binary s event cb user = some s') :
    s'.eventDomains = s.eventDomains := by
  cases event with
  | none =>
    obtain rfl : s = s' := Option.some_inj.mp h
    rfl
  | some event =>
    simp only [offListeners, Option.bind_eq_bind, Option.bind_eq_some_iff] at h
    obtain ⟨r, -, h⟩ := h
    cases r with
    | none =>
      obtain rfl : s = s' := by simpa using h
      rfl
    | some a =>
      obtain ⟨entry, -, h⟩ := Option.bind_eq_some_iff.mp h
      exact (eventRemoveIfEmpty_domains h).trans rfl
/-! ## One section -/

/-- What a call that is one critical section, other than `event_off_token`, can do: drop listeners,
register one, with or without a token for it, register a message listener with its token, or
register or unregister a domain. -/
inductive RegsStep (s s' : EventBus) : Prop
  | dropped (hregs : ∀ ev b, (s'.regs ev b).Sublist (s.regs ev b)) (hframe : Frame s s')
      (hdomains : s'.eventDomains = s.eventDomains)
  | registered (ev : CStr) (binary : Bool) (l : Listener)
      (hl : l.registration = s.nextRegistration)
      (hregs : ∀ ev' b, s'.regs ev' b = if ev' = ev ∧ b = binary then s.regs ev b ++ [l]
        else s.regs ev' b)
      (htokens : s'.eventTokens = s.eventTokens ∨ ∃ generation, s'.eventTokens
        = s.eventTokens ++ [⟨ev, binary, l.cb, l.user, generation, true, false, l.registration⟩])
      (hmessages : s'.messageListeners = s.messageListeners)
      (hnext : s'.nextRegistration = s.nextRegistration + 1)
      (hdomains : s'.eventDomains = s.eventDomains)
  | message (token : EventToken) (listener : MessageListener)
      (hregs : s'.regs = s.regs)
      (htoken : token.message = true ∧ token.active = true ∧
        token.registration = s.nextRegistration)
      (htokens : s'.eventTokens = s.eventTokens ++ [token])
      (hlistener : listener.token = s.eventTokens.length)
      (hdomain : ∀ name, listener.domain = some name →
        findDomain s name = some ⟨name, listener.dispatch, listener.dispatchUser⟩)
      (hmessages : s'.messageListeners = listener :: s.messageListeners)
      (hnext : s'.nextRegistration = s.nextRegistration + 1)
      (hdomains : s'.eventDomains = s.eventDomains)
  | domainRegistered (d : EventDomain) (hregs : s'.regs = s.regs) (hframe : Frame s s')
      (hd : d.dispatch ≠ 0) (hnew : findDomain s d.name = none)
      (hdomains : s'.eventDomains = d :: s.eventDomains)
  | domainUnregistered (d : EventDomain) (hregs : s'.regs = s.regs) (hframe : Frame s s')
      (hfind : findDomain s d.name = some d)
      (hmessage : ∀ l ∈ s.messageListeners, l.domain ≠ some d.name)
      (hfree : domainInUse s d = false)
      (hdomains : s'.eventDomains = s.eventDomains.eraseP (·.name == d.name))

theorem findDomain_name {s : EventBus} {name : CStr} {d : EventDomain}
    (h : findDomain s name = some d) : d.name = name := by
  simpa using List.find?_some h

theorem RegsStep.refl (s : EventBus) : RegsStep s s :=
  .dropped (fun _ _ ↦ List.Sublist.refl _) (.refl s) rfl

section Sections

variable {s s' : EventBus} (hs : StoreOk dictHash s)
include hs

theorem addListener_section {binary bump : Bool} {mem : StoreAlloc} {event : Option CStr}
    {cb user dispatch dispatchUser : ℕ} {g : Option UInt64}
    (h : addListener dictHash binary bump mem s event cb user dispatch dispatchUser
      = some (g, s')) : StoreOk dictHash s' ∧ RegsStep s s' := by
  have hdomains := addListener_domains h
  obtain ⟨hs', htokens, hmessages, ⟨-, hregs, hnext⟩ | ⟨ev, -, -, hnext, hregs⟩⟩ :=
    addListener_spec hs h
  · exact ⟨hs', .dropped (fun ev b ↦ hregs ▸ List.Sublist.refl _) ⟨htokens, hmessages, hnext⟩
      hdomains⟩
  · exact ⟨hs', .registered ev binary _ rfl hregs (.inl htokens) hmessages hnext hdomains⟩

/-- **A token function** registers a listener and issues the next token for it, or does nothing. -/
theorem onToken_spec {binary : Bool} {mem : StoreAlloc} {event : Option CStr}
    {cb user dispatch dispatchUser : ℕ} {t : Option ℕ}
    (h : onToken dictHash binary mem s event cb user dispatch dispatchUser = some (t, s')) :
    StoreOk dictHash s' ∧ s'.eventDomains = s.eventDomains ∧
      s'.messageListeners = s.messageListeners ∧
      ((t = none ∧ s'.regs = s.regs ∧ Frame s s') ∨
        ∃ ev generation, event = some ev ∧ t = some s.eventTokens.length ∧
          s'.nextRegistration = s.nextRegistration + 1 ∧
          s'.eventTokens = s.eventTokens
            ++ [⟨ev, binary, cb, user, generation, true, false, s.nextRegistration⟩] ∧
          ∀ ev' b, s'.regs ev' b = if ev' = ev ∧ b = binary
            then s.regs ev b ++ [⟨cb, user, dispatch, dispatchUser, false, s.nextRegistration⟩]
            else s.regs ev' b) := by
  rw [onToken, Option.bind_eq_bind, Option.bind_eq_some_iff] at h
  obtain ⟨⟨g, s₁⟩, hadd, h⟩ := h
  have hdomains := addListener_domains hadd
  obtain ⟨hs₁, htokens, hmessages, ⟨rfl, hregs, hnext⟩ | ⟨ev, rfl, hg, hnext, hregs⟩⟩ :=
    addListener_spec hs hadd
  · obtain ⟨rfl, rfl⟩ : none = t ∧ s₁ = s' := by simpa using h
    exact ⟨hs₁, hdomains, hmessages, .inl ⟨rfl, hregs, htokens, hmessages, hnext⟩⟩
  · obtain ⟨g, rfl⟩ := Option.ne_none_iff_exists'.mp hg
    simp only [Option.pure_def, Option.some.injEq, Prod.mk.injEq] at h
    obtain ⟨rfl, rfl⟩ := h
    exact ⟨hs₁.congr rfl rfl rfl, hdomains, hmessages,
      .inr ⟨ev, g, rfl, by rw [htokens], hnext, by rw [htokens], hregs⟩⟩

theorem onToken_section {binary : Bool} {mem : StoreAlloc} {event : Option CStr}
    {cb user dispatch dispatchUser : ℕ} {t : Option ℕ}
    (h : onToken dictHash binary mem s event cb user dispatch dispatchUser = some (t, s')) :
    StoreOk dictHash s' ∧ RegsStep s s' := by
  obtain ⟨hs', hdomains, hmessages, ⟨-, hregs, hframe⟩ | ⟨ev, g, -, -, hnext, htokens, hregs⟩⟩ :=
    onToken_spec hs h
  · exact ⟨hs', .dropped (fun ev b ↦ hregs ▸ List.Sublist.refl _) hframe hdomains⟩
  · exact ⟨hs', .registered ev binary _ rfl hregs (.inr ⟨g, htokens⟩) hmessages hnext hdomains⟩

theorem addMessageListener_section {name : CStr} {domain : Option CStr}
    {cb user dispatch dispatchUser : ℕ}
    (hdomain : ∀ n, domain = some n → findDomain s n = some ⟨n, dispatch, dispatchUser⟩) :
    StoreOk dictHash (addMessageListener s name domain cb user dispatch dispatchUser).2 ∧
      RegsStep s (addMessageListener s name domain cb user dispatch dispatchUser).2 :=
  ⟨hs.congr rfl rfl rfl, .message ⟨name, false, 0, user, 0, true, true, s.nextRegistration⟩
    ⟨s.eventTokens.length, domain, cb, user, dispatch, dispatchUser⟩ rfl
    ⟨rfl, rfl, rfl⟩ rfl rfl hdomain rfl rfl rfl⟩

/-- **What a call that is one critical section can do.** -/
theorem section_step {c : EventCall} (hc : c.oneSection = true)
    (h : eventCall dictHash s c = some s') : StoreOk dictHash s' ∧ RegsStep s s' := by
  cases c with
  | on mem event cb user dispatch dispatchUser =>
    obtain ⟨⟨g, s₁⟩, hadd, rfl⟩ := Option.map_eq_some_iff.mp h
    exact addListener_section hs hadd
  | onBinary mem event cb user dispatch dispatchUser =>
    obtain ⟨⟨g, s₁⟩, hadd, rfl⟩ := Option.map_eq_some_iff.mp h
    exact addListener_section hs hadd
  | onToken mem event cb user dispatch dispatchUser =>
    obtain ⟨⟨t, s₁⟩, htoken, rfl⟩ := Option.map_eq_some_iff.mp h
    exact onToken_section hs htoken
  | onBinaryToken mem event cb user dispatch dispatchUser =>
    obtain ⟨⟨t, s₁⟩, htoken, rfl⟩ := Option.map_eq_some_iff.mp h
    exact onToken_section hs htoken
  | onDomainToken mem event cb user domain => cases hc
  | onBinaryDomainToken mem event cb user domain => cases hc
  | onMessageToken name cb user dispatch dispatchUser =>
    obtain rfl := Option.some_inj.mp h
    unfold eventOnMessageToken
    split
    · exact ⟨hs, .refl s⟩
    · split
      · exact ⟨hs, .refl s⟩
      · exact addMessageListener_section hs fun n hn ↦ by cases hn
  | onMessageDomainToken name cb user domain =>
    obtain rfl := Option.some_inj.mp h
    unfold eventOnMessageDomainToken
    split
    · split
      · exact ⟨hs, .refl s⟩
      · rename_i d hd
        split
        · exact ⟨hs, .refl s⟩
        · refine addMessageListener_section hs fun n hn ↦ ?_
          obtain rfl := Option.some_inj.mp hn
          obtain rfl := findDomain_name hd
          exact hd
    · exact ⟨hs, .refl s⟩
  | off event cb user =>
    obtain ⟨hs', hframe, hsub⟩ := offListeners_spec hs h
    exact ⟨hs', .dropped hsub hframe (offListeners_domains h)⟩
  | offBinary event cb user =>
    obtain ⟨hs', hframe, hsub⟩ := offListeners_spec hs h
    exact ⟨hs', .dropped hsub hframe (offListeners_domains h)⟩
  | offToken t => cases hc
  | domainRegister name dispatch user =>
    obtain rfl := Option.some_inj.mp h
    unfold eventDomainRegister
    split
    · exact ⟨hs, .refl s⟩
    · rename_i name
      split
      · exact ⟨hs, .refl s⟩
      · rename_i hok
        obtain ⟨-, hd, -, hnew⟩ := by simpa only [not_or] using hok
        exact ⟨hs.congr rfl rfl rfl, .domainRegistered ⟨name, dispatch, user⟩ rfl ⟨rfl, rfl, rfl⟩
          hd (by simpa using hnew) rfl⟩
  | domainUnregister name =>
    obtain rfl := Option.some_inj.mp h
    unfold eventDomainUnregister
    split
    · exact ⟨hs, .refl s⟩
    · rename_i name
      split
      · exact ⟨hs, .refl s⟩
      · rename_i d hd
        obtain rfl := findDomain_name hd
        split
        · exact ⟨hs, .refl s⟩
        · rename_i hused
          obtain ⟨hmessage, hfree⟩ := by simpa using hused
          exact ⟨hs.congr rfl rfl rfl, .domainUnregistered d rfl ⟨rfl, rfl, rfl⟩ hd
            hmessage hfree rfl⟩

end Sections

/-! ## One step, seen from the owners -/

/-- What an owner needs to know of a listener: its registration, callback and user pointer. -/
def Listener.key (l : Listener) : ℕ × ℕ × ℕ := (l.registration, l.cb, l.user)

/-- The listeners of an event as their owners know them. -/
def EventBus.keys (s : EventBus) (event : CStr) (binary : Bool) : List (ℕ × ℕ × ℕ) :=
  (s.regs event binary).map Listener.key

/-- What a call other than `event_off_token` can do: drop listeners, register one, with or without
a token for it, or register a message listener with its token. -/
inductive OwnerStep (s s' : EventBus) : Prop
  | dropped (hkeys : ∀ ev b, (s'.keys ev b).Sublist (s.keys ev b)) (hframe : Frame s s')
  | registered (ev : CStr) (binary : Bool) (cb user : ℕ)
      (hkeys : ∀ ev' b, s'.keys ev' b = if ev' = ev ∧ b = binary
        then s.keys ev b ++ [(s.nextRegistration, cb, user)] else s.keys ev' b)
      (htokens : s'.eventTokens = s.eventTokens ∨ ∃ generation, s'.eventTokens
        = s.eventTokens ++ [⟨ev, binary, cb, user, generation, true, false, s.nextRegistration⟩])
      (hmessages : s'.messageListeners = s.messageListeners)
      (hnext : s'.nextRegistration = s.nextRegistration + 1)
  | message (token : EventToken) (listener : MessageListener)
      (hkeys : ∀ ev b, s'.keys ev b = s.keys ev b)
      (htoken : token.message = true ∧ token.active = true ∧
        token.registration = s.nextRegistration)
      (htokens : s'.eventTokens = s.eventTokens ++ [token])
      (hlistener : listener.token = s.eventTokens.length)
      (hmessages : s'.messageListeners = listener :: s.messageListeners)
      (hnext : s'.nextRegistration = s.nextRegistration + 1)

theorem OwnerStep.refl (s : EventBus) : OwnerStep s s :=
  .dropped (fun _ _ ↦ List.Sublist.refl _) (.refl s)

theorem OwnerStep.congr {s s₁ s' : EventBus} (h : OwnerStep s s₁)
    (hkeys : ∀ ev b, s'.keys ev b = s₁.keys ev b) (hframe : Frame s₁ s') : OwnerStep s s' := by
  cases h with
  | dropped hk hf => exact .dropped (fun ev b ↦ hkeys ev b ▸ hk ev b) (hf.trans hframe)
  | registered ev binary cb user hk ht hm hn =>
    exact .registered ev binary cb user (fun ev' b ↦ (hkeys ev' b).trans (hk ev' b))
      (hframe.tokens ▸ ht) (hframe.messages.trans hm) (hframe.registration.trans hn)
  | message token listener hk ht htk hl hm hn =>
    exact .message token listener (fun ev b ↦ (hkeys ev b).trans (hk ev b)) ht
      (hframe.tokens.trans htk) hl (hframe.messages.trans hm) (hframe.registration.trans hn)

theorem markDomain_keys (d : EventDomain) (cb user : ℕ) (ls : List Listener) :
    (markDomain d cb user ls).map Listener.key = ls.map Listener.key := by
  rw [markDomain, List.map_map]
  refine List.map_congr_left fun l _ ↦ ?_
  rw [Function.comp_apply]
  split <;> rfl

theorem keys_of_regs {s s' : EventBus} {ev : CStr} {binary : Bool} {l : Listener}
    (h : ∀ ev' b, s'.regs ev' b = if ev' = ev ∧ b = binary then s.regs ev b ++ [l]
      else s.regs ev' b) (ev' : CStr) (b : Bool) :
    s'.keys ev' b = if ev' = ev ∧ b = binary then s.keys ev b ++ [l.key] else s.keys ev' b := by
  rw [EventBus.keys, h]
  split
  · rw [List.map_append, List.map_singleton, EventBus.keys]
  · rfl

/-- What the owners see of a section. -/
theorem RegsStep.owner {s s' : EventBus} (h : RegsStep s s') : OwnerStep s s' := by
  have hkeys : s'.regs = s.regs → ∀ ev b, s'.keys ev b = s.keys ev b := fun h ev b ↦ by
    rw [EventBus.keys, h, EventBus.keys]
  have hsub : s'.regs = s.regs → ∀ ev b, (s'.keys ev b).Sublist (s.keys ev b) := fun h ev b ↦
    hkeys h ev b ▸ List.Sublist.refl _
  cases h with
  | dropped hregs hframe => exact .dropped (fun ev b ↦ (hregs ev b).map _) hframe
  | registered ev binary l hl hregs htokens hmessages hnext =>
    exact .registered ev binary l.cb l.user
      (fun ev' b ↦ (keys_of_regs hregs ev' b).trans (by rw [Listener.key, hl]))
      (hl ▸ htokens) hmessages hnext
  | message token listener hregs htoken htokens hlistener _ hmessages hnext =>
    exact .message token listener (hkeys hregs) htoken htokens hlistener hmessages hnext
  | domainRegistered d hregs hframe => exact .dropped (hsub hregs) hframe
  | domainUnregistered d hregs hframe => exact .dropped (hsub hregs) hframe

section Steps

variable {s s' : EventBus} (hs : StoreOk dictHash s)
include hs

/-- Marking a listener for its domain does not concern its owner. -/
theorem eventOnDomainToken_step {mem : StoreAlloc} {event : Option CStr} {cb user : ℕ}
    {domain : Option CStr} {t : Option ℕ}
    (h : eventOnDomainToken dictHash mem s event cb user domain = some (t, s')) :
    StoreOk dictHash s' ∧ OwnerStep s s' := by
  have hnothing : none = t ∧ s = s' → StoreOk dictHash s' ∧ OwnerStep s s' := by
    rintro ⟨-, rfl⟩
    exact ⟨hs, .refl s⟩
  unfold eventOnDomainToken at h
  split at h
  · rename_i ev domain
    split at h
    · exact hnothing (by simpa using h)
    · rename_i d _
      rw [Option.bind_eq_bind, Option.bind_eq_some_iff] at h
      obtain ⟨⟨token, s₁⟩, htoken, h⟩ := h
      obtain ⟨hs₁, hsection⟩ := onToken_section hs htoken
      have hstep := hsection.owner
      by_cases hnone : token = none
      · obtain ⟨-, rfl⟩ : none = t ∧ s₁ = s' := by simpa [hnone] using h
        exact ⟨hs₁, hstep⟩
      · simp only [if_neg hnone, Option.bind_eq_bind, Option.bind_eq_some_iff] at h
        obtain ⟨⟨entry, s₂⟩, hget, h⟩ := h
        obtain ⟨hs₂, hregs, hframe, haddr⟩ := eventGetOrCreate_spec hs₁ hget
        have hkeys : ∀ ev b, s₂.keys ev b = s₁.keys ev b := fun ev b ↦ by
          rw [EventBus.keys, hregs, EventBus.keys]
        cases entry with
        | none =>
          obtain ⟨-, rfl⟩ : token = t ∧ s₂ = s' := by simpa using h
          exact ⟨hs₂, hstep.congr hkeys hframe⟩
        | some a =>
          have ha := haddr a rfl
          obtain ⟨entry, hentry⟩ := hs₂.alloc ev a ha
          simp only [hentry, Option.bind_some, Option.pure_def, Option.some.injEq,
            Prod.mk.injEq] at h
          obtain ⟨-, rfl⟩ := h
          refine ⟨hs₂.setEntry _, hstep.congr (fun ev' b ↦ ?_)
            ⟨hframe.tokens, hframe.messages, hframe.registration⟩⟩
          rw [← hkeys, EventBus.keys, hs₂.regs_setEntry ha, EventBus.keys]
          split
          · rename_i heq
            rw [heq, EventBus.regs_of_addrOf ha hentry]
            cases b
            · exact markDomain_keys d cb user entry.listeners
            · rfl
          · rfl
  · exact hnothing (by simpa using h)

/-- **What a call other than `event_off_token` can do.** -/
theorem eventCall_step {c : EventCall} (hc : ∀ t, c ≠ .offToken t)
    (h : eventCall dictHash s c = some s') : StoreOk dictHash s' ∧ OwnerStep s s' := by
  have hsection : c.oneSection = true → StoreOk dictHash s' ∧ OwnerStep s s' := fun hone ↦
    (section_step hs hone h).imp_right RegsStep.owner
  cases c with
  | onDomainToken mem event cb user domain =>
    obtain ⟨⟨t, s₁⟩, htoken, rfl⟩ := Option.map_eq_some_iff.mp h
    exact eventOnDomainToken_step hs htoken
  | onBinaryDomainToken mem event cb user domain =>
    obtain ⟨⟨t, s₁⟩, htoken, rfl⟩ := Option.map_eq_some_iff.mp h
    unfold eventOnBinaryDomainToken at htoken
    split at htoken
    · obtain ⟨-, rfl⟩ : none = t ∧ s = s₁ := by simpa using htoken
      exact ⟨hs, .refl s⟩
    · split at htoken
      · obtain ⟨-, rfl⟩ : none = t ∧ s = s₁ := by simpa using htoken
        exact ⟨hs, .refl s⟩
      · exact (onToken_section hs htoken).imp_right RegsStep.owner
  | offToken t => exact absurd rfl (hc t)
  | _ => exact hsection rfl

end Steps

end Rustyaxe
