import Mathlib.Data.BitVec
import Rustyaxe.Lib.PerKey
import Rustyaxe.Lib.SlotTable

/-!
# Hotkeys

`tui_hotkey_register`, `tui_hotkey_unregister` and `tui_hotkey_dispatch` of `tui.keys.c` over whole
runs.  The table is a set of bindings with room for 32 of them, where a key with its modifiers is
bound once; what a key calls is bound to it with modifiers that are all held (`hotkeys_run`).

What a callback does to the table is a later call of the run: `tui_hotkey_dispatch` is done with the
table when it calls.  Pointers are compared and nothing else; `none` is the null pointer.
-/

set_option autoImplicit false

namespace Rustyaxe.Hotkeys

open PerKey

/-! ## The code -/

/-- `TUI_HOTKEY_MAX` -/
def tuiHotkeyMax : ℕ := 32

/-- `struct tui_hotkey_binding` -/
structure HotkeyBinding (φ υ : Type) where
  key : BitVec 32
  modifiers : BitVec 32
  callback : Option φ
  userData : Option υ

variable {φ υ : Type}

/-- `hotkeys` in static storage. -/
def noHotkeys : List (HotkeyBinding φ υ) := List.replicate tuiHotkeyMax ⟨0, 0, none, none⟩

/-- The test of `tui_hotkey_register`. -/
def HotkeyBinding.isFor (key modifiers : BitVec 32) (h : HotkeyBinding φ υ) : Bool :=
  h.callback.isSome && h.key == key && h.modifiers == modifiers

/-- `tui_hotkey_register` -/
def tuiHotkeyRegister (hotkeys : List (HotkeyBinding φ υ)) (binding : HotkeyBinding φ υ) :
    Bool × List (HotkeyBinding φ υ) :=
  if binding.callback.isNone then (false, hotkeys)
  else
    let bound := updateFirst (HotkeyBinding.isFor binding.key binding.modifiers)
      (fun _ ↦ (true, binding)) hotkeys
    let free := updateFirst (fun h : HotkeyBinding φ υ ↦ h.callback.isNone)
      (fun _ ↦ (true, binding)) hotkeys
    (bound.or free).getD (false, hotkeys)

/-- The test of `tui_hotkey_unregister`. -/
def HotkeyBinding.sameAs [DecidableEq φ] [DecidableEq υ] (binding h : HotkeyBinding φ υ) : Bool :=
  h.callback == binding.callback && h.userData == binding.userData && h.key == binding.key &&
    h.modifiers == binding.modifiers

/-- `tui_hotkey_unregister`: a slot is freed by its callback alone. -/
def tuiHotkeyUnregister [DecidableEq φ] [DecidableEq υ] (hotkeys : List (HotkeyBinding φ υ))
    (binding : HotkeyBinding φ υ) : Bool × List (HotkeyBinding φ υ) :=
  (updateFirst (HotkeyBinding.sameAs binding)
    (fun h ↦ (true, { h with callback := none })) hotkeys).getD (false, hotkeys)

/-- `tui_hotkey_dispatch`: the callback that is called with its `user_data`, if one is. -/
def tuiHotkeyDispatch (hotkeys : List (HotkeyBinding φ υ)) (key modifiers : BitVec 32) :
    Option (φ × Option υ) :=
  (hotkeys.find? fun h ↦
    h.callback.isSome && h.key == key && modifiers &&& h.modifiers == h.modifiers).bind
    fun h ↦ h.callback.map (·, h.userData)

/-! ## What is bound -/

/-- A call that writes to the table. -/
inductive HotkeyCall (φ υ : Type) where
  | register (binding : HotkeyBinding φ υ)
  | unregister (binding : HotkeyBinding φ υ)

/-- What is bound, with what. -/
abbrev HotkeyBinding.Entry (φ υ : Type) := (BitVec 32 × BitVec 32) × (φ × Option υ)

/-- What a slot says is bound. -/
def HotkeyBinding.entry (h : HotkeyBinding φ υ) : Option (Entry φ υ) :=
  h.callback.map fun f ↦ ((h.key, h.modifiers), (f, h.userData))

variable [DecidableEq φ] [DecidableEq υ]

/-- The table after a call. -/
def HotkeyCall.step (hotkeys : List (HotkeyBinding φ υ)) :
    HotkeyCall φ υ → List (HotkeyBinding φ υ)
  | .register binding => (tuiHotkeyRegister hotkeys binding).2
  | .unregister binding => (tuiHotkeyUnregister hotkeys binding).2

/-- The table after some calls. -/
def hotkeysAfter (calls : List (HotkeyCall φ υ)) : List (HotkeyBinding φ υ) :=
  calls.foldl HotkeyCall.step noHotkeys

/-- What a call binds or unbinds. -/
def HotkeyCall.bind (B : Finset (HotkeyBinding.Entry φ υ)) :
    HotkeyCall φ υ → Finset (HotkeyBinding.Entry φ υ)
  | .register binding => binding.entry.elim B fun e ↦ SlotTable.put tuiHotkeyMax B e.1 e.2
  | .unregister binding => binding.entry.elim B B.erase

/-- What some calls leave bound. -/
def boundAfter (calls : List (HotkeyCall φ υ)) : Finset (HotkeyBinding.Entry φ υ) :=
  calls.foldl HotkeyCall.bind ∅

/-- The table answers for what is bound. -/
structure Serves (hotkeys : List (HotkeyBinding φ υ)) (B : Finset (HotkeyBinding.Entry φ υ)) :
    Prop where
  register : ∀ key modifiers f userData,
    (tuiHotkeyRegister hotkeys ⟨key, modifiers, some f, userData⟩).1 = true ↔
      (∃ e ∈ B, e.1 = (key, modifiers)) ∨ B.card < tuiHotkeyMax
  unregister : ∀ key modifiers f userData,
    (tuiHotkeyUnregister hotkeys ⟨key, modifiers, some f, userData⟩).1 = true ↔
      ((key, modifiers), (f, userData)) ∈ B
  dispatch : ∀ key modifiers c, tuiHotkeyDispatch hotkeys key modifiers = some c →
    ∃ held, ((key, held), c) ∈ B ∧ modifiers &&& held = held
  dispatch_none : ∀ key modifiers, tuiHotkeyDispatch hotkeys key modifiers = none ↔
    ∀ held c, ((key, held), c) ∈ B → modifiers &&& held ≠ held
  once : ∀ e ∈ B, ∀ e' ∈ B, e.1 = e'.1 → e = e'
  room : B.card ≤ tuiHotkeyMax

/-! ## One call -/

/-- A table of all slots where nothing is bound twice. -/
structure HotkeysOk (hotkeys : List (HotkeyBinding φ υ)) : Prop where
  length : hotkeys.length = tuiHotkeyMax
  keyed : SlotTable.Keyed HotkeyBinding.entry hotkeys

/-- What is bound in a table. -/
abbrev bound (hotkeys : List (HotkeyBinding φ υ)) : Finset (HotkeyBinding.Entry φ υ) :=
  SlotTable.bindings HotkeyBinding.entry hotkeys

section Entry

omit [DecidableEq φ] [DecidableEq υ]

@[simp] theorem entry_isNone (h : HotkeyBinding φ υ) : h.entry = none ↔ h.callback = none :=
  Option.map_eq_none_iff

theorem entry_eq_some {h : HotkeyBinding φ υ} {e : HotkeyBinding.Entry φ υ} :
    h.entry = some e ↔
      h.key = e.1.1 ∧ h.modifiers = e.1.2 ∧ h.callback = some e.2.1 ∧ h.userData = e.2.2 := by
  obtain ⟨⟨key, modifiers⟩, f, userData⟩ := e
  rw [HotkeyBinding.entry, Option.map_eq_some_iff]
  constructor
  · rintro ⟨g, hg, heq⟩
    simp only [Prod.mk.injEq] at heq
    obtain ⟨⟨hkey, hmodifiers⟩, rfl, huser⟩ := heq
    exact ⟨hkey, hmodifiers, hg, huser⟩
  · rintro ⟨hkey, hmodifiers, hf, huser⟩
    exact ⟨f, hf, by rw [hkey, hmodifiers, huser]⟩

theorem entry_inj {h h' : HotkeyBinding φ υ} {e : HotkeyBinding.Entry φ υ}
    (he : h.entry = some e) (he' : h'.entry = some e) : h = h' := by
  obtain ⟨hkey, hmodifiers, hf, huser⟩ := entry_eq_some.mp he
  obtain ⟨hkey', hmodifiers', hf', huser'⟩ := entry_eq_some.mp he'
  obtain ⟨key, modifiers, callback, userData⟩ := h
  obtain ⟨key', modifiers', callback', userData'⟩ := h'
  rw [HotkeyBinding.mk.injEq]
  exact ⟨hkey.trans hkey'.symm, hmodifiers.trans hmodifiers'.symm, hf.trans hf'.symm,
    huser.trans huser'.symm⟩

theorem entries_noHotkeys :
    SlotTable.entries HotkeyBinding.entry (noHotkeys : List (HotkeyBinding φ υ)) = [] := by
  rw [SlotTable.entries, List.filterMap_eq_nil_iff]
  intro h hh
  rw [List.eq_of_mem_replicate hh]
  rfl

theorem hotkeysOk_noHotkeys : HotkeysOk (noHotkeys : List (HotkeyBinding φ υ)) := by
  refine ⟨List.length_replicate, ?_⟩
  rw [SlotTable.Keyed, entries_noHotkeys]
  exact List.nodup_nil

end Entry

variable {hotkeys before after : List (HotkeyBinding φ υ)} {slot binding : HotkeyBinding φ υ}

theorem HotkeysOk.card_lt_iff (h : HotkeysOk hotkeys) :
    (bound hotkeys).card < tuiHotkeyMax ↔ ∃ slot ∈ hotkeys, slot.callback = none := by
  rw [← h.length, SlotTable.card_lt_iff h.keyed]
  simp only [entry_isNone]

omit [DecidableEq φ] [DecidableEq υ] in
theorem HotkeysOk.length_change (h : HotkeysOk (before ++ slot :: after))
    (slot' : HotkeyBinding φ υ) : (before ++ slot' :: after).length = tuiHotkeyMax := by
  rw [← h.length, List.length_append, List.length_append, List.length_cons, List.length_cons]

/-- A slot that is written to. -/
theorem HotkeysOk.write {e : HotkeyBinding.Entry φ υ} (h : HotkeysOk (before ++ slot :: after))
    (he : binding.entry = some e) (hslot : ∀ p, slot.entry = some p → p.1 = e.1)
    (hfree : slot.entry = none → ∀ p ∈ bound (before ++ slot :: after), p.1 ≠ e.1) :
    HotkeysOk (before ++ binding :: after) ∧
      bound (before ++ binding :: after) =
        HotkeyCall.bind (bound (before ++ slot :: after)) (.register binding) := by
  obtain ⟨hkeyed, hbound⟩ := SlotTable.write h.keyed he hslot hfree
  refine ⟨⟨h.length_change _, hkeyed⟩, ?_⟩
  have hroom : (∃ p ∈ bound (before ++ slot :: after), p.1 = e.1) ∨
      (bound (before ++ slot :: after)).card < tuiHotkeyMax := by
    cases hentry : slot.entry with
    | none => exact .inr (h.card_lt_iff.mpr ⟨slot, by simp, (entry_isNone _).mp hentry⟩)
    | some p => exact .inl ⟨p, SlotTable.mem_bindings.mpr ⟨slot, by simp, hentry⟩, hslot p hentry⟩
  rw [HotkeyCall.bind, he]
  exact hbound.trans (if_pos hroom).symm

omit [DecidableEq φ] [DecidableEq υ] in
theorem isFor_eq_true {key modifiers : BitVec 32} {h : HotkeyBinding φ υ} :
    h.isFor key modifiers = true ↔ ∃ e, h.entry = some e ∧ e.1 = (key, modifiers) := by
  rw [HotkeyBinding.isFor, Bool.and_eq_true, Bool.and_eq_true, beq_iff_eq, beq_iff_eq,
    Option.isSome_iff_exists]
  constructor
  · rintro ⟨⟨⟨f, hf⟩, rfl⟩, rfl⟩
    exact ⟨((h.key, h.modifiers), (f, h.userData)), entry_eq_some.mpr ⟨rfl, rfl, hf, rfl⟩, rfl⟩
  · rintro ⟨⟨k, f, userData⟩, hentry, rfl⟩
    obtain ⟨hkey, hmodifiers, hf, -⟩ := entry_eq_some.mp hentry
    exact ⟨⟨⟨f, hf⟩, hkey⟩, hmodifiers⟩

/-- What `tui_hotkey_register` returns and leaves. -/
theorem tuiHotkeyRegister_spec (h : HotkeysOk hotkeys) (key modifiers : BitVec 32) (f : φ)
    (userData : Option υ) :
    let binding : HotkeyBinding φ υ := ⟨key, modifiers, some f, userData⟩
    let r := tuiHotkeyRegister hotkeys binding
    HotkeysOk r.2 ∧ bound r.2 = HotkeyCall.bind (bound hotkeys) (.register binding) ∧
      (r.1 = true ↔ (∃ e ∈ bound hotkeys, e.1 = (key, modifiers)) ∨
        (bound hotkeys).card < tuiHotkeyMax) := by
  intro binding r
  have he : binding.entry = some ((key, modifiers), (f, userData)) := rfl
  have hr : r = ((updateFirst (HotkeyBinding.isFor key modifiers)
        (fun _ ↦ (true, binding)) hotkeys).or
      (updateFirst (fun h : HotkeyBinding φ υ ↦ h.callback.isNone)
        (fun _ ↦ (true, binding)) hotkeys)).getD (false, hotkeys) := rfl
  cases hfound : updateFirst (HotkeyBinding.isFor key modifiers)
      (fun _ ↦ (true, binding)) hotkeys with
  | some found =>
    obtain ⟨before, slot, after, rfl, -, hslot, rfl⟩ := updateFirst_eq_some hfound
    obtain ⟨p, hp, hkey⟩ := isFor_eq_true.mp hslot
    rw [hr, hfound]
    obtain ⟨hok, hbound⟩ := h.write he
      (fun q hq ↦ by rw [← Option.some.inj (hp.symm.trans hq), hkey])
      (fun hnone ↦ by rw [hnone] at hp; cases hp)
    exact ⟨hok, hbound, fun _ ↦ .inl ⟨p, SlotTable.mem_bindings.mpr ⟨slot, by simp, hp⟩, hkey⟩,
      fun _ ↦ rfl⟩
  | none =>
    have hnew : ∀ p ∈ bound hotkeys, p.1 ≠ (key, modifiers) := by
      intro p hp hkey
      obtain ⟨slot, hslot, hentry⟩ := SlotTable.mem_bindings.mp hp
      have hfor := updateFirst_eq_none.mp hfound slot hslot
      rw [isFor_eq_true.mpr ⟨p, hentry, hkey⟩] at hfor
      cases hfor
    cases hfree : updateFirst (fun h : HotkeyBinding φ υ ↦ h.callback.isNone)
        (fun _ ↦ (true, binding)) hotkeys with
    | some free =>
      obtain ⟨before, slot, after, rfl, -, hslot, rfl⟩ := updateFirst_eq_some hfree
      have hnone : slot.callback = none := Option.isNone_iff_eq_none.mp hslot
      rw [hr, hfound, hfree]
      obtain ⟨hok, hbound⟩ := h.write he
        (fun q hq ↦ by rw [(entry_isNone slot).mpr hnone] at hq; cases hq) (fun _ ↦ hnew)
      exact ⟨hok, hbound, fun _ ↦ .inr (h.card_lt_iff.mpr ⟨slot, by simp, hnone⟩), fun _ ↦ rfl⟩
    | none =>
      have hfull : ¬ ((∃ e ∈ bound hotkeys, e.1 = (key, modifiers)) ∨
          (bound hotkeys).card < tuiHotkeyMax) := by
        rintro (⟨p, hp, hkey⟩ | hroom)
        · exact hnew p hp hkey
        · obtain ⟨slot, hslot, hnone⟩ := h.card_lt_iff.mp hroom
          have := updateFirst_eq_none.mp hfree slot hslot
          rw [hnone] at this
          cases this
      rw [hr, hfound, hfree]
      refine ⟨h, ?_, iff_of_false Bool.false_ne_true hfull⟩
      rw [HotkeyCall.bind, he]
      exact (if_neg hfull).symm

theorem sameAs_eq_true {h : HotkeyBinding φ υ} : binding.sameAs h = true ↔ h = binding := by
  obtain ⟨key, modifiers, callback, userData⟩ := h
  obtain ⟨key', modifiers', callback', userData'⟩ := binding
  simp only [HotkeyBinding.sameAs, Bool.and_eq_true, beq_iff_eq, HotkeyBinding.mk.injEq]
  tauto

/-- What `tui_hotkey_unregister` returns and leaves.  Without a callback it finds free slots. -/
theorem tuiHotkeyUnregister_spec (h : HotkeysOk hotkeys) (binding : HotkeyBinding φ υ) :
    let r := tuiHotkeyUnregister hotkeys binding
    HotkeysOk r.2 ∧ bound r.2 = HotkeyCall.bind (bound hotkeys) (.unregister binding) ∧
      ∀ e, binding.entry = some e → (r.1 = true ↔ e ∈ bound hotkeys) := by
  intro r
  have hr : r = (updateFirst (HotkeyBinding.sameAs binding)
      (fun h ↦ (true, { h with callback := none })) hotkeys).getD (false, hotkeys) := rfl
  cases hfound : updateFirst (HotkeyBinding.sameAs binding)
      (fun h ↦ (true, { h with callback := none })) hotkeys with
  | some found =>
    obtain ⟨before, slot, after, rfl, -, hslot, rfl⟩ := updateFirst_eq_some hfound
    obtain rfl := sameAs_eq_true.mp hslot
    have hfree : ({ slot with callback := none } : HotkeyBinding φ υ).entry = none := rfl
    rw [hr, hfound, HotkeyCall.bind]
    cases hentry : slot.entry with
    | none =>
      obtain ⟨hkeyed, hbound⟩ := SlotTable.same h.keyed hentry hfree
      exact ⟨⟨h.length_change _, hkeyed⟩, hbound, fun e he ↦ by cases he⟩
    | some e =>
      obtain ⟨hkeyed, hbound⟩ := SlotTable.free h.keyed hentry hfree
      refine ⟨⟨h.length_change _, hkeyed⟩, hbound, ?_⟩
      intro e' he'
      obtain rfl := Option.some.inj he'
      exact iff_of_true rfl (SlotTable.mem_bindings.mpr ⟨slot, by simp, hentry⟩)
  | none =>
    have hnot : ∀ e, binding.entry = some e → e ∉ bound hotkeys := by
      intro e he hmem
      obtain ⟨slot, hslot, hentry⟩ := SlotTable.mem_bindings.mp hmem
      have hother := updateFirst_eq_none.mp hfound slot hslot
      rw [sameAs_eq_true.mpr (entry_inj hentry he)] at hother
      cases hother
    rw [hr, hfound, HotkeyCall.bind]
    refine ⟨h, ?_, fun e he ↦ iff_of_false Bool.false_ne_true (hnot e he)⟩
    cases hentry : binding.entry with
    | none => rfl
    | some e => exact (Finset.erase_eq_of_notMem (hnot e hentry)).symm

theorem tuiHotkeyDispatch_some {key modifiers : BitVec 32} {c : φ × Option υ}
    (hc : tuiHotkeyDispatch hotkeys key modifiers = some c) :
    ∃ held, ((key, held), c) ∈ bound hotkeys ∧ modifiers &&& held = held := by
  obtain ⟨h, hfind, hcall⟩ := Option.bind_eq_some_iff.mp hc
  have hp := List.find?_some hfind
  simp only [Bool.and_eq_true, beq_iff_eq] at hp
  refine ⟨h.modifiers, SlotTable.mem_bindings.mpr ⟨h, List.mem_of_find?_eq_some hfind, ?_⟩, hp.2⟩
  obtain ⟨f, hf, rfl⟩ := Option.map_eq_some_iff.mp hcall
  exact entry_eq_some.mpr ⟨hp.1.2, rfl, hf, rfl⟩

theorem tuiHotkeyDispatch_eq_none {key modifiers : BitVec 32} :
    tuiHotkeyDispatch hotkeys key modifiers = none ↔
      ∀ held c, ((key, held), c) ∈ bound hotkeys → modifiers &&& held ≠ held := by
  constructor
  · intro hnone held c hmem hheld
    obtain ⟨slot, hslot, hentry⟩ := SlotTable.mem_bindings.mp hmem
    obtain ⟨hkey, hmodifiers, hf, -⟩ := entry_eq_some.mp hentry
    dsimp only at hkey hmodifiers hf
    cases hfind : hotkeys.find? fun h ↦
        h.callback.isSome && h.key == key && modifiers &&& h.modifiers == h.modifiers with
    | none =>
      have := List.find?_eq_none.mp hfind slot hslot
      rw [hf, hkey, hmodifiers, hheld] at this
      simp at this
    | some h =>
      have hp := List.find?_some hfind
      simp only [Bool.and_eq_true, beq_iff_eq] at hp
      rw [tuiHotkeyDispatch, hfind, Option.bind_some, Option.map_eq_none_iff] at hnone
      rw [hnone] at hp
      cases hp.1.1
  · intro hnone
    by_contra hsome
    obtain ⟨c, hc⟩ := Option.ne_none_iff_exists'.mp hsome
    obtain ⟨held, hmem, hheld⟩ := tuiHotkeyDispatch_some hc
    exact hnone held c hmem hheld

/-! ## Runs -/

theorem HotkeysOk.step (h : HotkeysOk hotkeys) (call : HotkeyCall φ υ) :
    HotkeysOk (call.step hotkeys) ∧ bound (call.step hotkeys) = call.bind (bound hotkeys) := by
  cases call with
  | register binding =>
    obtain ⟨key, modifiers, callback, userData⟩ := binding
    cases callback with
    | none => exact ⟨h, rfl⟩
    | some f =>
      obtain ⟨hok, hbound, -⟩ := tuiHotkeyRegister_spec h key modifiers f userData
      exact ⟨hok, hbound⟩
  | unregister binding =>
    obtain ⟨hok, hbound, -⟩ := tuiHotkeyUnregister_spec h binding
    exact ⟨hok, hbound⟩

theorem hotkeysAfter_spec (calls : List (HotkeyCall φ υ)) :
    HotkeysOk (hotkeysAfter calls) ∧ bound (hotkeysAfter calls) = boundAfter calls := by
  induction calls using List.reverseRecOn with
  | nil =>
    refine ⟨hotkeysOk_noHotkeys, ?_⟩
    have hnone : bound (hotkeysAfter ([] : List (HotkeyCall φ υ))) =
        (SlotTable.entries HotkeyBinding.entry
          (noHotkeys : List (HotkeyBinding φ υ))).toFinset := rfl
    rw [hnone, entries_noHotkeys]
    rfl
  | append_singleton calls call ih =>
    obtain ⟨hok, hbound⟩ := ih
    rw [hotkeysAfter, boundAfter, List.foldl_concat, List.foldl_concat, ← hotkeysAfter,
      ← boundAfter, ← hbound]
    exact hok.step call

/-- The bindings of a table that is in order are served. -/
theorem HotkeysOk.serves (h : HotkeysOk hotkeys) : Serves hotkeys (bound hotkeys) where
  register key modifiers f userData := (tuiHotkeyRegister_spec h key modifiers f userData).2.2
  unregister key modifiers f userData :=
    (tuiHotkeyUnregister_spec h ⟨key, modifiers, some f, userData⟩).2.2 _ rfl
  dispatch _ _ _ := tuiHotkeyDispatch_some
  dispatch_none _ _ := tuiHotkeyDispatch_eq_none
  once e he e' he' hkey :=
    List.inj_on_of_nodup_map h.keyed (List.mem_toFinset.mp he) (List.mem_toFinset.mp he') hkey
  room := by
    rw [← h.length, SlotTable.card_bindings h.keyed]
    exact List.length_filterMap_le _ _

/-- **After any registrations and removals, the table serves what they leave bound.** -/
theorem hotkeys_run (calls : List (HotkeyCall φ υ)) :
    Serves (hotkeysAfter calls) (boundAfter calls) := by
  obtain ⟨hok, hbound⟩ := hotkeysAfter_spec calls
  rw [← hbound]
  exact hok.serves

end Rustyaxe.Hotkeys
