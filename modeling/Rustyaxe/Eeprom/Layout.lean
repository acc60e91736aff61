import Mathlib.Algebra.Group.Nat.Defs
import Rustyaxe.CString
import Rustyaxe.Eeprom.Image

/-!
# Settings by name

The table `eeprom_layout` is generated: it has a key and an offset for every setting, in any order.

`eeprom_offset_index` compares as many characters as the key has that is asked for, so the first
entry is found that begins with this key.  The lookup is right for a key exactly if this entry is
the one with the key itself (`lookupExact_iff`).
-/

set_option autoImplicit false

namespace Rustyaxe

/-! ## The code -/

/-- `struct eeprom_layout`, as far as a number is read from it. -/
structure LayoutEntry where
  key : CStr
  offset : ℕ
  deriving DecidableEq, Repr

/-- `eeprom_layout`: no key is empty, no two are the same, and an index is a `uint32_t` other than
`-1`. -/
structure EepromLayout where
  entries : List LayoutEntry
  ne_nil : ∀ e ∈ entries, e.key ≠ []
  distinct : entries.Pairwise fun e e' ↦ strcaseeq e.key e'.key = false
  length_lt : entries.length < 2 ^ 32

/-- The loop of `eeprom_offset_index`, from an index on. -/
def offsetIndexLoop (key : CStr) : (idx : UInt32) → List LayoutEntry → UInt32
  | _, [] => -1
  | idx, e :: entries =>
    if startsWithCase key e.key then idx else offsetIndexLoop key (idx + 1) entries

/-- `eeprom_offset_index` -/
def eepromOffsetIndex (layout : EepromLayout) : (key : Option CStr) → UInt32
  | none => -1
  | some key => offsetIndexLoop key 0 layout.entries

/-- The word that `memcpy` reads from these bytes, with the lowest byte first. -/
def readWord (image : List UInt8) (offset : ℕ) : Option UInt32 :=
  match image.drop offset with
  | a :: b :: c :: d :: _ => some (a.toUInt32 ||| b.toUInt32 <<< 8 ||| c.toUInt32 <<< 16 |||
      d.toUInt32 <<< 24)
  | _ => none

/-- `eeprom_get_int_i`; `none` is a read outside the table or the mapping. -/
def eepromGetIntI (layout : EepromLayout) (e : Eeprom) (idx : UInt32) : Option UInt32 :=
  if e.ready = false ∨ e.corrupted then some (-1)
  else if idx = -1 then some (-1)
  else do
    let image ← e.mmap
    let entry ← layout.entries[idx.toNat]?
    readWord image entry.offset

/-- `eeprom_get_int` -/
def eepromGetInt (layout : EepromLayout) (e : Eeprom) (key : Option CStr) : Option UInt32 :=
  if e.ready = false ∨ e.corrupted then some (-1)
  else eepromGetIntI layout e (eepromOffsetIndex layout key)

/-! ## What a lookup is for -/

/-- The entry with this key, ignoring case. -/
def EepromLayout.entry (layout : EepromLayout) (key : CStr) : Option LayoutEntry :=
  layout.entries.find? fun e ↦ strcaseeq e.key key

/-- The index is that of the entry with the key, or `-1` if there is none, and the number is the
word at its offset. -/
def LookupExact (layout : EepromLayout) (e : Eeprom) (image : List UInt8) (key : CStr) : Prop :=
  match layout.entry key with
  | some entry => layout.entries[(eepromOffsetIndex layout (some key)).toNat]? = some entry ∧
      eepromGetInt layout e (some key) = readWord image entry.offset
  | none => eepromOffsetIndex layout (some key) = -1 ∧
      eepromGetInt layout e (some key) = some (-1)

/-- The first entry that begins with the key is the one with the key. -/
def FirstIsExact (layout : EepromLayout) (key : CStr) : Prop :=
  ∀ e, layout.entries.find? (fun e ↦ startsWithCase key e.key) = some e → strcaseeq e.key key

instance (layout : EepromLayout) (key : CStr) : Decidable (FirstIsExact layout key) :=
  decidable_of_iff
    ((layout.entries.find? fun e ↦ startsWithCase key e.key).all fun e ↦ strcaseeq e.key key)
    (Option.all_eq_true _ _)

/-! ## The loop -/

theorem startsWithCase_of_strcaseeq {key s : CStr} (h : strcaseeq s key = true) :
    startsWithCase key s = true := by
  have hlen : s.length = key.length := by
    simpa using congrArg List.length (beq_iff_eq.mp h)
  rwa [startsWithCase, List.take_of_length_le hlen.le]

/-- The loop finds the first entry that begins with the key. -/
theorem offsetIndexLoop_spec (key : CStr) (entries : List LayoutEntry) (idx : UInt32)
    (hidx : idx.toNat + entries.length < 2 ^ 32) :
    (∃ e, entries.find? (fun e ↦ startsWithCase key e.key) = some e ∧
      idx.toNat ≤ (offsetIndexLoop key idx entries).toNat ∧
      entries[(offsetIndexLoop key idx entries).toNat - idx.toNat]? = some e) ∨
    entries.find? (fun e ↦ startsWithCase key e.key) = none ∧
      offsetIndexLoop key idx entries = -1 := by
  induction entries generalizing idx with
  | nil => exact .inr ⟨rfl, rfl⟩
  | cons e entries ih =>
    rw [List.length_cons] at hidx
    rw [offsetIndexLoop, List.find?_cons]
    cases hstart : startsWithCase key e.key with
    | true => exact .inl ⟨e, rfl, Nat.le_refl _, by rw [if_pos rfl, Nat.sub_self]; rfl⟩
    | false =>
      have hnext : (idx + 1).toNat = idx.toNat + 1 := by
        rw [UInt32.toNat_add, UInt32.toNat_one, Nat.mod_eq_of_lt (by omega)]
      rw [if_neg Bool.false_ne_true]
      refine (ih (idx + 1) (by omega)).imp ?_ id
      rintro ⟨e', hfind, hle, hget⟩
      refine ⟨e', hfind, by omega, ?_⟩
      rw [← hget, hnext, show (offsetIndexLoop key (idx + 1) entries).toNat - idx.toNat =
        (offsetIndexLoop key (idx + 1) entries).toNat - (idx.toNat + 1) + 1 by omega]
      rfl

/-- `eeprom_offset_index` finds the first entry that begins with the key. -/
theorem eepromOffsetIndex_spec (layout : EepromLayout) (key : CStr) :
    (∃ e, layout.entries.find? (fun e ↦ startsWithCase key e.key) = some e ∧
      layout.entries[(eepromOffsetIndex layout (some key)).toNat]? = some e) ∨
    layout.entries.find? (fun e ↦ startsWithCase key e.key) = none ∧
      eepromOffsetIndex layout (some key) = -1 := by
  refine (offsetIndexLoop_spec key layout.entries 0 ?_).imp ?_ id
  · rw [UInt32.toNat_zero, Nat.zero_add]
    exact layout.length_lt
  · rintro ⟨e, hfind, -, hget⟩
    exact ⟨e, hfind, hget⟩

/-- An index in the table is not `-1`. -/
theorem ne_neg_one_of_getElem? {layout : EepromLayout} {idx : UInt32} {e : LayoutEntry}
    (h : layout.entries[idx.toNat]? = some e) : idx ≠ -1 := by
  rintro rfl
  have hlt := (List.getElem?_eq_some_iff.mp h).1
  have := layout.length_lt
  rw [show (-1 : UInt32).toNat = 2 ^ 32 - 1 by decide] at hlt
  omega

theorem eepromGetInt_mapped (layout : EepromLayout) (fd : UInt32) (image : List UInt8)
    (key : Option CStr) : eepromGetInt layout (.mapped fd image) key =
      if eepromOffsetIndex layout key = -1 then some (-1)
      else layout.entries[(eepromOffsetIndex layout key).toNat]?.bind fun entry ↦
        readWord image entry.offset := by
  simp [eepromGetInt, eepromGetIntI, Eeprom.mapped, Option.bind]

theorem EepromLayout.strcaseeq_entry {layout : EepromLayout} {key : CStr} {e : LayoutEntry}
    (h : layout.entry key = some e) : strcaseeq e.key key = true := by
  rw [EepromLayout.entry] at h
  simpa using List.find?_some h

/-- The entry with a key is the only one that equals it. -/
theorem EepromLayout.eq_entry {layout : EepromLayout} {key : CStr} {e : LayoutEntry}
    (hmem : e ∈ layout.entries) (heq : strcaseeq e.key key = true) : layout.entry key = some e := by
  obtain ⟨before, after, hsplit⟩ := List.append_of_mem hmem
  have hdistinct := layout.distinct
  rw [hsplit, List.pairwise_append] at hdistinct
  rw [EepromLayout.entry, hsplit, List.find?_append, List.find?_eq_none.mpr, Option.none_or]
  · exact List.find?_cons_of_pos heq
  intro e' he' heq'
  have hne := hdistinct.2.2 e' he' e List.mem_cons_self
  rw [strcaseeq, beq_iff_eq] at heq heq'
  rw [strcaseeq, heq, heq', beq_self_eq_true] at hne
  cases hne

/-- **A lookup by name is exact when the first entry that begins with the key is the one with the
key.** -/
theorem lookupExact_iff (layout : EepromLayout) (fd : UInt32) (image : List UInt8) (key : CStr) :
    LookupExact layout (.mapped fd image) image key ↔ FirstIsExact layout key := by
  rw [LookupExact, FirstIsExact, eepromGetInt_mapped]
  rcases eepromOffsetIndex_spec layout key with ⟨e, hfind, hget⟩ | ⟨hfind, hidx⟩
  · rw [hfind, hget, if_neg (ne_neg_one_of_getElem? hget)]
    have hmem : e ∈ layout.entries := List.mem_of_find?_eq_some hfind
    cases hentry : layout.entry key with
    | some entry =>
      constructor
      · rintro ⟨heq, -⟩ e' he'
        rw [← Option.some.inj he', Option.some.inj heq]
        exact layout.strcaseeq_entry hentry
      · intro hexact
        rw [layout.eq_entry hmem (hexact e rfl)] at hentry
        exact ⟨hentry, by rw [← Option.some.inj hentry]; rfl⟩
    | none =>
      refine ⟨fun h ↦ absurd h.1 (ne_neg_one_of_getElem? hget), fun hexact ↦ ?_⟩
      rw [layout.eq_entry hmem (hexact e rfl)] at hentry
      cases hentry
  · rw [hfind, hidx, if_pos rfl]
    have hentry : layout.entry key = none := by
      refine List.find?_eq_none.mpr fun e he heq ↦ ?_
      exact List.find?_eq_none.mp hfind e he (startsWithCase_of_strcaseeq heq)
    rw [hentry]
    exact ⟨fun _ e he ↦ (by cases he), fun _ ↦ ⟨rfl, rfl⟩⟩

/-- Two settings, the first of which has a key that begins with the other's. -/
def pinLayout : EepromLayout where
  entries := [⟨lit "pin/show", 4⟩, ⟨lit "pin", 8⟩]
  ne_nil := by decide +kernel
  distinct := by decide +kernel
  length_lt := by decide

/-- `pin` is read from where `pin/show` is. -/
theorem not_lookupExact_pin : ¬ LookupExact pinLayout
    (.mapped 3 [0, 0, 0, 0, 1, 0, 0, 0, 2, 0, 0, 0]) [0, 0, 0, 0, 1, 0, 0, 0, 2, 0, 0, 0]
    (lit "pin") := by
  intro h
  have hentry : pinLayout.entry (lit "pin") = some ⟨lit "pin", 8⟩ := by decide +kernel
  rw [LookupExact, hentry] at h
  exact absurd h.2 (by decide +kernel)

end Rustyaxe
