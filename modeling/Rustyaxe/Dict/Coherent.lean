import Mathlib.Logic.Function.Basic
import Rustyaxe.Dict.Lookup

/-!
# The invariant of the dictionary, and the map it represents

`Dict.entryOf d key` is the live slot of `key`, and `Dict.toMap d` the finite map from keys to
typed values that the table stands for.  `Coherent` is what every operation keeps: sizes are
powers of two, every live slot stores the hash of its key, no key is live twice, every live key is
on its own probe path, `used` counts the live slots, and `fill` is *at least* the number of slots
that are not `NULL`.  On a coherent table a lookup that returns finds exactly the entry of the
map (`dictGetKp_eq_some`), and it does return if there is a `NULL` slot or the key is there.

`fill` may be larger than the count it is meant to keep, because `dict_store` counts the
replacement of a value as a new slot; `Coherent.storeAt_live` is the place to see it.
-/

set_option autoImplicit false

namespace Rustyaxe

open ProbeSearch

/-- Is the slot live? -/
def isLive : Slot → Bool
  | .full _ => true
  | _ => false

/-- Does the slot have a key other than `NULL`? -/
def isNonNull : Slot → Bool
  | .empty => false
  | _ => true

/-- The live slots of a list of slots, in order. -/
def liveEntries : List Slot → List Keypair
  | [] => []
  | .full kp :: table => kp :: liveEntries table
  | .empty :: table => liveEntries table
  | .deleted :: table => liveEntries table

theorem mem_liveEntries {kp : Keypair} : ∀ {table : List Slot},
    kp ∈ liveEntries table ↔ Cell.full kp ∈ table
  | [] => by simp [liveEntries]
  | .full a :: table => by
    rw [liveEntries, List.mem_cons, List.mem_cons, mem_liveEntries, Cell.full.injEq]
  | .empty :: table => by rw [liveEntries, mem_liveEntries]; simp
  | .deleted :: table => by rw [liveEntries, mem_liveEntries]; simp

theorem length_liveEntries : ∀ table : List Slot,
    (liveEntries table).length = table.countP isLive
  | [] => rfl
  | .full a :: table => by
    rw [liveEntries, List.length_cons, length_liveEntries table, List.countP_cons_of_pos rfl]
  | .empty :: table => by
    rw [liveEntries, length_liveEntries table, List.countP_cons_of_neg (by simp [isLive])]
  | .deleted :: table => by
    rw [liveEntries, length_liveEntries table, List.countP_cons_of_neg (by simp [isLive])]

namespace Dict

variable (d : Dict)

/-- How many slots are live. -/
def liveCount : ℕ := d.table.countP isLive

/-- How many slots have a key other than `NULL`. -/
def nonNullCount : ℕ := d.table.countP isNonNull

/-- The live slots, in the order of the table. -/
def entries : List Keypair := liveEntries d.table

/-- The live slot of `key`. -/
def entryOf (key : CStr) : Option Keypair := d.entries.find? (·.key == key)

/-- The finite map a table represents. -/
def toMap : CStr → Option DictValue := fun key ↦ (d.entryOf key).map Keypair.value

variable {d}

theorem mem_entries {kp : Keypair} : kp ∈ d.entries ↔ ∃ i, d.slot i = .full kp := by
  rw [entries, mem_liveEntries, mem_table_iff]
  exact ⟨fun ⟨i, _, h⟩ ↦ ⟨i, h⟩, fun ⟨i, h⟩ ↦ ⟨i, d.lt_size_of_full h, h⟩⟩

theorem entryOf_key {key : CStr} {kp : Keypair} (h : d.entryOf key = some kp) : kp.key = key := by
  have := List.find?_some h
  simpa using this

theorem entryOf_mem {key : CStr} {kp : Keypair} (h : d.entryOf key = some kp) :
    ∃ i, d.slot i = .full kp :=
  mem_entries.mp (List.mem_of_find?_eq_some h)

theorem entryOf_eq_none {key : CStr} :
    d.entryOf key = none ↔ ∀ i kp, d.slot i = .full kp → kp.key ≠ key := by
  simp only [entryOf, List.find?_eq_none, beq_iff_eq, mem_entries]
  exact ⟨fun h i kp hi ↦ h kp ⟨i, hi⟩, fun h kp ⟨i, hi⟩ ↦ h i kp hi⟩

theorem exists_mem_of_toMap {key : CStr} {v : DictValue} (h : d.toMap key = some v) :
    ∃ kp ∈ d.entries, kp.key = key ∧ kp.value = v := by
  rw [toMap, Option.map_eq_some_iff] at h
  obtain ⟨kp, hkp, rfl⟩ := h
  exact ⟨kp, mem_entries.mpr (entryOf_mem hkp), entryOf_key hkp, rfl⟩

theorem length_entries : d.entries.length = d.liveCount := length_liveEntries d.table

theorem hasNull_iff : d.HasNull ↔ d.nonNullCount < d.size := by
  have hle : d.nonNullCount ≤ d.size := List.countP_le_length
  have hall : d.nonNullCount = d.size ↔ ∀ s ∈ d.table, isNonNull s = true :=
    List.countP_eq_length
  constructor
  · rintro ⟨i, hi, hnull⟩
    refine lt_of_le_of_ne hle fun he ↦ ?_
    have := hall.mp he _ (mem_table_iff d |>.mpr ⟨i, hi, hnull⟩)
    simp [isNonNull] at this
  · intro hlt
    by_contra hno
    refine absurd (hall.mpr fun s hs ↦ ?_) (Nat.ne_of_lt hlt)
    obtain ⟨i, hi, rfl⟩ := (mem_table_iff d).mp hs
    cases hc : d.slot i with
    | empty => exact absurd ⟨i, hi, hc⟩ hno
    | deleted => rfl
    | full a => rfl

/-- Writing a slot moves the counts by what it held and what it holds now. -/
theorem countP_set {d' : Dict} {i : ℕ} {s : Slot} (ht : d'.table = d.table.set i s)
    (hi : i < d.size) (f : Slot → Bool) :
    d'.table.countP f + (f (d.slot i)).toNat = d.table.countP f + (f s).toNat := by
  have hi' : i < d.table.length := hi
  have hle : (if f (d.slot i) then 1 else 0) ≤ d.table.countP f := by
    rw [d.slot_eq_getElem hi']
    exact List.boole_getElem_le_countP hi'
  rw [ht, List.countP_set hi', ← d.slot_eq_getElem hi']
  generalize d.table.countP f = c at hle ⊢
  cases h : f (d.slot i) <;> cases f s <;> simp [h] at hle ⊢ <;> omega

end Dict

/-! ## The invariant -/

variable (dictHash : CStr → UInt32)

/-- What every operation keeps, with or without a `NULL` slot left. -/
structure Coherent (d : Dict) : Prop where
  /-- The size is a power of two. -/
  pow : ∃ k, d.size = 2 ^ k
  /-- A live slot stores the hash of its key. -/
  hash : ∀ i kp, d.slot i = .full kp → kp.hash = dictHash kp.key
  /-- No two live slots hold equal keys. -/
  inj : ∀ i j a b, d.slot i = .full a → d.slot j = .full b → a.key = b.key → i = j
  /-- A live key is met on its own probe sequence before any `NULL` slot. -/
  path : ∀ i kp, d.slot i = .full kp →
    OnPath d.slot (probeIndex d.size (dictHash kp.key).toNat) i
  /-- `used` counts the live slots. -/
  used : d.used = d.liveCount
  /-- `fill` is no less than the number of slots that are not `NULL`. -/
  fill : d.nonNullCount ≤ d.fill

/-- A lookup of any key returns. -/
def LookupsReturn (d : Dict) : Prop := ∀ key, ∃ i, dictLookup d key (dictHash key) = some i

variable {dictHash}

namespace Coherent

variable {d : Dict} (hd : Coherent dictHash d)
include hd

theorem entryOf_of_slot {i : ℕ} {kp : Keypair} (hi : d.slot i = .full kp) :
    d.entryOf kp.key = some kp := by
  cases h : d.entryOf kp.key with
  | none => exact absurd rfl (Dict.entryOf_eq_none.mp h i kp hi)
  | some kp' =>
    obtain ⟨j, hj⟩ := Dict.entryOf_mem h
    obtain rfl := hd.inj i j kp kp' hi hj (Dict.entryOf_key h).symm
    rw [hi] at hj
    obtain rfl : kp = kp' := by simpa using hj
    rfl

/-- The entries are those of the map. -/
theorem toMap_of_mem {kp : Keypair} (h : kp ∈ d.entries) : d.toMap kp.key = some kp.value := by
  obtain ⟨i, hi⟩ := Dict.mem_entries.mp h
  rw [Dict.toMap, hd.entryOf_of_slot hi]
  rfl

theorem keyMatches_iff {i : ℕ} {kp : Keypair} (hi : d.slot i = .full kp) (key : CStr) :
    keyMatches key (dictHash key) kp = true ↔ kp.key = key := by
  rw [keyMatches, Bool.and_eq_true, beq_iff_eq, beq_iff_eq, hd.hash i kp hi]
  exact ⟨fun h ↦ h.2, fun h ↦ ⟨by rw [h], h⟩⟩

/-- **A live key is found**, whatever else the table holds. -/
theorem dictLookup_of_slot {i : ℕ} {kp : Keypair} (hi : d.slot i = .full kp) :
    dictLookup d kp.key (dictHash kp.key) = some i := by
  obtain ⟨k, hk⟩ := hd.pow
  rw [dictLookup_eq_search]
  refine search_of_onPath (probeIndex_cover hk _ (d.lt_size_of_full hi))
    (hd.path i kp hi) hi ((hd.keyMatches_iff hi kp.key).mpr rfl) (fun j b hj hb ↦ ?_)
  exact hd.inj j i b kp hj hi ((hd.keyMatches_iff hj kp.key).mp hb)

/-- What a lookup returns on a coherent table: the slot of the key, or, if the key is absent, a
free slot on its path. -/
theorem dictLookup_cases {key : CStr} {i : ℕ} (h : dictLookup d key (dictHash key) = some i) :
    (∃ kp, d.slot i = .full kp ∧ kp.key = key) ∨
      ((d.slot i = .empty ∨ d.slot i = .deleted) ∧ d.entryOf key = none ∧
        OnPath d.slot (probeIndex d.size (dictHash key).toNat) i) := by
  rcases dictLookup_eq_some h with ⟨ep, hep, hm⟩ | ⟨hfree, hpath⟩
  · exact .inl ⟨ep, hep, (hd.keyMatches_iff hep key).mp hm⟩
  · refine .inr ⟨hfree, Dict.entryOf_eq_none.mpr ?_, hpath⟩
    rintro j kp hj rfl
    obtain rfl : j = i := Option.some_inj.mp ((hd.dictLookup_of_slot hj).symm.trans h)
    rcases hfree with hfree | hfree <;> simp [hj] at hfree

theorem dictLookup_isSome (key : CStr) (h : d.HasNull ∨ ∃ kp, d.entryOf key = some kp) :
    ∃ i, dictLookup d key (dictHash key) = some i := by
  obtain ⟨k, hk⟩ := hd.pow
  rcases h with h | ⟨kp, hkp⟩
  · exact dictLookup_isSome_of_hasNull hk h key _
  · obtain ⟨i, hi⟩ := Dict.entryOf_mem hkp
    obtain rfl := Dict.entryOf_key hkp
    exact ⟨i, hd.dictLookup_of_slot hi⟩

theorem lookupsReturn_of_hasNull (h : d.HasNull) : LookupsReturn dictHash d :=
  fun _ ↦ hd.dictLookup_isSome _ (.inl h)

/-- A lookup goes round forever exactly when the key is absent and no slot is `NULL`. -/
theorem dictLookup_none_iff (key : CStr) :
    dictLookup d key (dictHash key) = none ↔ ¬ d.HasNull ∧ d.entryOf key = none := by
  constructor
  · intro h
    refine ⟨fun hnull ↦ ?_, ?_⟩
    · have ⟨i, hi⟩ : ∃ i, dictLookup d key (dictHash key) = some i :=
        hd.dictLookup_isSome key (.inl hnull)
      simp [h] at hi
    · by_contra hne
      obtain ⟨i, hi⟩ := hd.dictLookup_isSome key (.inr (Option.ne_none_iff_exists'.mp hne))
      simp [h] at hi
  · rintro ⟨hnull, hnone⟩
    by_contra hne
    obtain ⟨i, hi⟩ := Option.ne_none_iff_exists'.mp hne
    obtain ⟨k, hk⟩ := hd.pow
    rw [(dictLookup_eq_none_iff hk key (dictHash key)).mpr] at hi
    · simp at hi
    · intro j hj
      refine ⟨fun he ↦ hnull ⟨j, hj, he⟩, fun ep hep ↦ ?_⟩
      rw [← Bool.not_eq_true, hd.keyMatches_iff hep]
      exact Dict.entryOf_eq_none.mp hnone j ep hep

/-- **A lookup that returns finds the entry of the map.** -/
theorem dictGetKp_eq_some {key : CStr} {r : Option Keypair}
    (h : dictGetKp dictHash d key = some r) : r = d.entryOf key := by
  rw [dictGetKp, Option.bind_eq_bind, Option.bind_eq_some_iff] at h
  obtain ⟨i, hi, hr⟩ := h
  rcases hd.dictLookup_cases hi with ⟨kp, hkp, rfl⟩ | ⟨hfree, hnone, -⟩
  · rw [hd.entryOf_of_slot hkp]
    simpa [hkp] using hr.symm
  · rw [hnone]
    rcases hfree with hfree | hfree <;> simpa [hfree] using hr.symm

theorem dictGetKp_of_isSome {key : CStr} (h : d.HasNull ∨ ∃ kp, d.entryOf key = some kp) :
    dictGetKp dictHash d key = some (d.entryOf key) := by
  obtain ⟨i, hi⟩ := hd.dictLookup_isSome key h
  have : ∃ r, dictGetKp dictHash d key = some r := by
    rw [dictGetKp, hi]
    cases hs : d.slot i <;> exact ⟨_, by simp [hs]; rfl⟩
  obtain ⟨r, hr⟩ := this
  rw [hr, hd.dictGetKp_eq_some hr]

end Coherent

end Rustyaxe
