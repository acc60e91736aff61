import Rustyaxe.Dict.Coherent

/-!
# What the mutators do to a coherent table

One specification for each operation, over any coherent table and for any outcome of its
allocations.

* `Coherent.storeAt_free`, `Coherent.storeAt_live`: writing an entry into a free slot on its path,
  and over the entry of the same key.
* `Coherent.dictDel_eq`: deleting.
* `Coherent.dictResize_eq`: growing.  Either the table stays as it is, or it is replaced by one
  with the same entries, no dummies, exact counters and more than half its slots `NULL`.
* `Coherent.dictStore_eq`: storing, assembled from these.

What they do to the map is always said through `Dict.entryOf`.
-/

set_option autoImplicit false

namespace Rustyaxe

open ProbeSearch

variable {dictHash : CStr → UInt32}

/-! ## Writing one slot -/

/-- Writing a live entry into slot `i` keeps the structural clauses of the invariant. -/
theorem Coherent.set_full {d d' : Dict} (hd : Coherent dictHash d) {i : ℕ} {kp : Keypair}
    (ht : d'.table = d.table.set i (.full kp)) (hi : i < d.size)
    (hhash : kp.hash = dictHash kp.key)
    (hpath : OnPath d.slot (probeIndex d.size (dictHash kp.key).toNat) i)
    (huniq : ∀ j a, d.slot j = .full a → a.key = kp.key → j = i)
    (hused : d'.used = d'.liveCount) (hfill : d'.nonNullCount ≤ d'.fill) :
    Coherent dictHash d' := by
  have hslot := d.slot_set ht hi
  have hsize : d'.size = d.size := by rw [Dict.size, ht, List.length_set, Dict.size]
  have hfull : ∀ j a, d'.slot j = .full a → (j = i ∧ a = kp) ∨ (j ≠ i ∧ d.slot j = .full a) := by
    intro j a hj
    rw [hslot] at hj
    split at hj
    · rename_i h; exact .inl ⟨h, by simpa using hj.symm⟩
    · rename_i h; exact .inr ⟨h, hj⟩
  have hmono : ∀ j, d'.slot j = .empty → d.slot j = .empty := by
    intro j hj
    rw [hslot] at hj
    split at hj
    · simp at hj
    · exact hj
  refine ⟨hsize ▸ hd.pow, ?_, ?_, ?_, hused, hfill⟩
  · intro j a hj
    rcases hfull j a hj with ⟨-, rfl⟩ | ⟨-, hj⟩
    · exact hhash
    · exact hd.hash j a hj
  · intro j l a b hj hl hab
    rcases hfull j a hj with ⟨rfl, rfl⟩ | ⟨hji, hj⟩ <;>
      rcases hfull l b hl with ⟨rfl, rfl⟩ | ⟨hli, hl⟩
    · rfl
    · exact (huniq l b hl hab.symm).symm
    · exact huniq j a hj hab
    · exact hd.inj j l a b hj hl hab
  · intro j a hj
    rw [hsize]
    rcases hfull j a hj with ⟨rfl, rfl⟩ | ⟨-, hj⟩
    · exact hpath.mono hmono
    · exact (hd.path j a hj).mono hmono

/-- A coherent table with the same entries represents the same map. -/
theorem Coherent.entryOf_congr {d d' : Dict} (hd' : Coherent dictHash d') {key : CStr}
    (h : ∀ kp : Keypair, kp.key = key → (kp ∈ d'.entries ↔ kp ∈ d.entries)) :
    d'.entryOf key = d.entryOf key := by
  cases he : d.entryOf key with
  | some kp =>
    obtain rfl := Dict.entryOf_key he
    obtain ⟨j, hj⟩ := Dict.mem_entries.mp
      ((h kp rfl).mpr (Dict.mem_entries.mpr (Dict.entryOf_mem he)))
    exact hd'.entryOf_of_slot hj
  | none =>
    refine Dict.entryOf_eq_none.mpr fun i kp hi hk ↦ ?_
    obtain ⟨j, hj⟩ := Dict.mem_entries.mp ((h kp hk).mp (Dict.mem_entries.mpr ⟨i, hi⟩))
    exact Dict.entryOf_eq_none.mp he j kp hj hk

/-- The map after writing the entry of a key: the new entry there, and the old map elsewhere. -/
theorem Coherent.entryOf_set_full {d d' : Dict} (hd' : Coherent dictHash d') {i : ℕ}
    {kp : Keypair} (ht : d'.table = d.table.set i (.full kp)) (hi : i < d.size)
    (hold : ∀ a, d.slot i = .full a → a.key = kp.key) (key : CStr) :
    d'.entryOf key = if key = kp.key then some kp else d.entryOf key := by
  have hslot := d.slot_set ht hi
  split
  · rename_i h
    rw [h]
    exact hd'.entryOf_of_slot (i := i) (by rw [hslot, if_pos rfl])
  · rename_i hne
    refine hd'.entryOf_congr fun a ha ↦ ?_
    rw [Dict.mem_entries, Dict.mem_entries]
    constructor
    · rintro ⟨j, hj⟩
      rw [hslot] at hj
      split at hj
      · exact absurd (by rw [← ha]; simp at hj; rw [hj]) hne
      · exact ⟨j, hj⟩
    · rintro ⟨j, hj⟩
      refine ⟨j, ?_⟩
      rw [hslot, if_neg ?_]
      · exact hj
      · rintro rfl
        exact hne (ha ▸ hold a hj)

@[simp] theorem dictStoreAt_table (d : Dict) (i : ℕ) (key : CStr) (val : DictValue)
    (hash : UInt32) :
    (dictStoreAt d i key val hash).table = d.table.set i (.full ⟨key, val, hash⟩) := by
  rw [dictStoreAt]
  cases d.slot i <;> rfl

theorem dictStoreAt_size (d : Dict) (i : ℕ) (key : CStr) (val : DictValue) (hash : UInt32) :
    (dictStoreAt d i key val hash).size = d.size := by
  rw [Dict.size, dictStoreAt_table, List.length_set, Dict.size]

section StoreAt

variable {d : Dict} (hd : Coherent dictHash d) {i : ℕ} {key : CStr} (val : DictValue)
include hd

/-- **Insertion**: an absent key goes into a free slot on its path. -/
theorem Coherent.storeAt_free (hi : i < d.size) (hfree : d.slot i = .empty ∨ d.slot i = .deleted)
    (hnone : d.entryOf key = none)
    (hpath : OnPath d.slot (probeIndex d.size (dictHash key).toNat) i) :
    Coherent dictHash (dictStoreAt d i key val (dictHash key)) ∧
      ∀ k, (dictStoreAt d i key val (dictHash key)).entryOf k
        = if k = key then some ⟨key, val, dictHash key⟩ else d.entryOf k := by
  have ht := dictStoreAt_table d i key val (dictHash key)
  have hlive := Dict.countP_set ht hi isLive
  have hnn := Dict.countP_set ht hi isNonNull
  have hfill := hd.fill
  have hco : Coherent dictHash (dictStoreAt d i key val (dictHash key)) := by
    refine hd.set_full ht hi rfl hpath (fun j a hj hak ↦ ?_) ?_ ?_
    · exact absurd hak (Dict.entryOf_eq_none.mp hnone j a hj)
    · have hu := hd.used
      rw [Dict.liveCount] at hu ⊢
      rcases hfree with h | h <;> simp [h, isLive] at hlive <;>
        simp only [dictStoreAt, h, hlive] <;> omega
    · rw [Dict.nonNullCount] at hfill ⊢
      have hpos : d.slot i = .deleted → 0 < d.table.countP isNonNull := fun h ↦
        List.countP_pos_iff.mpr ⟨_, (Dict.mem_table_iff d).mpr ⟨i, hi, h⟩, rfl⟩
      rcases hfree with h | h
      · simp [h, isNonNull] at hnn
        simp only [dictStoreAt, h] at hnn ⊢
        omega
      · have := hpos h
        simp [h, isNonNull] at hnn
        simp only [dictStoreAt, h] at hnn ⊢
        omega
  refine ⟨hco, hco.entryOf_set_full ht hi fun a ha ↦ ?_⟩
  rcases hfree with h | h <;> simp [h] at ha

/-- **Overwriting**: the entry of a live key is replaced in place.  `fill` is counted up all the
same, which is why the invariant only bounds it from below. -/
theorem Coherent.storeAt_live {kp : Keypair} (hi : d.slot i = .full kp) (hk : kp.key = key) :
    Coherent dictHash (dictStoreAt d i key val (dictHash key)) ∧
      ∀ k, (dictStoreAt d i key val (dictHash key)).entryOf k
        = if k = key then some ⟨key, val, dictHash key⟩ else d.entryOf k := by
  subst hk
  have hlt : i < d.size := d.lt_size_of_full hi
  have ht := dictStoreAt_table d i kp.key val (dictHash kp.key)
  have hlive := Dict.countP_set ht hlt isLive
  have hnn := Dict.countP_set ht hlt isNonNull
  have hco : Coherent dictHash (dictStoreAt d i kp.key val (dictHash kp.key)) := by
    refine hd.set_full ht hlt rfl (hd.path i kp hi) (fun j a hj hak ↦ ?_) ?_ ?_
    · exact hd.inj j i a kp hj hi hak
    · have hu := hd.used
      have hpos : 0 < d.table.countP isLive :=
        List.countP_pos_iff.mpr ⟨_, (Dict.mem_table_iff d).mpr ⟨i, hlt, hi⟩, rfl⟩
      rw [Dict.liveCount] at hu ⊢
      simp [hi, isLive] at hlive
      simp only [dictStoreAt, hi, hlive]
      omega
    · have hfill := hd.fill
      rw [Dict.nonNullCount] at hfill ⊢
      simp [hi, isNonNull] at hnn
      simp only [dictStoreAt, hi] at hnn ⊢
      omega
  refine ⟨hco, hco.entryOf_set_full ht hlt fun a ha ↦ ?_⟩
  rw [hi] at ha
  obtain rfl : kp = a := by simpa using ha
  rfl

end StoreAt

/-- What storing does to the two sides of the `fill` clause: they move together for a new entry,
and apart for a replacement. -/
theorem dictStoreAt_fill {d : Dict} {i : ℕ} (hi : i < d.size) (hfill : d.nonNullCount ≤ d.fill)
    (key : CStr) (val : DictValue) (hash : UInt32) :
    (dictStoreAt d i key val hash).fill + (isNonNull (d.slot i) && d.isFree i).toNat = d.fill + 1 ∧
      (dictStoreAt d i key val hash).nonNullCount + (isNonNull (d.slot i)).toNat
        = d.nonNullCount + 1 := by
  have hnn := Dict.countP_set (dictStoreAt_table d i key val hash) hi isNonNull
  refine ⟨?_, hnn⟩
  have hpos : d.slot i = .deleted → 0 < d.nonNullCount := fun h ↦
    List.countP_pos_iff.mpr ⟨_, (Dict.mem_table_iff d).mpr ⟨i, hi, h⟩, rfl⟩
  cases h : d.slot i with
  | empty => simp [dictStoreAt, h, isNonNull]
  | deleted =>
    have := hpos h
    simp only [dictStoreAt, h, isNonNull, Dict.isFree, Bool.and_self, Bool.toNat_true]
    omega
  | full a => simp [dictStoreAt, h, isNonNull, Dict.isFree]

/-! ## Deleting -/

/-- `dict_del` on the slot it found. -/
def dictDelAt (d : Dict) (i : ℕ) : Dict :=
  { d with used := d.used - 1, table := d.table.set i .deleted }

theorem Coherent.delAt {d : Dict} (hd : Coherent dictHash d) {i : ℕ} {kp : Keypair}
    (hi : d.slot i = .full kp) :
    Coherent dictHash (dictDelAt d i) ∧ (dictDelAt d i).nonNullCount = d.nonNullCount ∧
      ∀ k, (dictDelAt d i).entryOf k = if k = kp.key then none else d.entryOf k := by
  have hlt : i < d.size := d.lt_size_of_full hi
  have ht : (dictDelAt d i).table = d.table.set i .deleted := rfl
  have hsize : (dictDelAt d i).size = d.size := by rw [Dict.size, ht, List.length_set, Dict.size]
  have hslot := d.slot_set ht hlt
  have hfull : ∀ j a, (dictDelAt d i).slot j = .full a → j ≠ i ∧ d.slot j = .full a := by
    intro j a hj
    rw [hslot] at hj
    split at hj
    · simp at hj
    · rename_i h; exact ⟨h, hj⟩
  have hlive := Dict.countP_set ht hlt isLive
  have hnn := Dict.countP_set ht hlt isNonNull
  simp [hi, isLive] at hlive
  simp [hi, isNonNull] at hnn
  have hco : Coherent dictHash (dictDelAt d i) := by
    refine ⟨hsize ▸ hd.pow, fun j a hj ↦ hd.hash j a (hfull j a hj).2,
      fun j l a b hj hl hab ↦ hd.inj j l a b (hfull j a hj).2 (hfull l b hl).2 hab,
      fun j a hj ↦ ?_, ?_, ?_⟩
    · rw [hsize]
      refine (hd.path j a (hfull j a hj).2).mono fun l hl ↦ ?_
      rw [hslot] at hl
      split at hl
      · simp at hl
      · exact hl
    · have hu := hd.used
      rw [Dict.liveCount] at hu ⊢
      simp only [dictDelAt] at hlive ⊢
      omega
    · have hf := hd.fill
      rw [Dict.nonNullCount] at hf ⊢
      rw [hnn]
      exact hf
  refine ⟨hco, by rw [Dict.nonNullCount, hnn, Dict.nonNullCount], fun k ↦ ?_⟩
  split
  · rename_i h
    subst h
    refine Dict.entryOf_eq_none.mpr fun j a hj hak ↦ (hfull j a hj).1 ?_
    exact hd.inj j i a kp (hfull j a hj).2 hi hak
  · rename_i hne
    refine hco.entryOf_congr fun a ha ↦ ?_
    rw [Dict.mem_entries, Dict.mem_entries]
    constructor
    · rintro ⟨j, hj⟩
      exact ⟨j, (hfull j a hj).2⟩
    · rintro ⟨j, hj⟩
      refine ⟨j, ?_⟩
      rw [hslot, if_neg ?_]
      · exact hj
      · rintro rfl
        rw [hi] at hj
        exact hne (by rw [← ha]; simp at hj; rw [hj])

/-- **`dict_del`** deletes the slot of the key, or fails and changes nothing. -/
theorem Coherent.dictDel_eq {d : Dict} (hd : Coherent dictHash d) {key : CStr}
    {r : Bool × Dict} (h : dictDel dictHash d key = some r) :
    (∃ i kp, d.slot i = .full kp ∧ kp.key = key ∧ r = (true, dictDelAt d i)) ∨
      (d.entryOf key = none ∧ r = (false, d)) := by
  rw [dictDel, Option.bind_eq_bind, Option.bind_eq_some_iff] at h
  obtain ⟨i, hi, hr⟩ := h
  rcases hd.dictLookup_cases hi with ⟨kp, hkp, hk⟩ | ⟨hfree, hnone, -⟩
  · rw [hkp] at hr
    exact .inl ⟨i, kp, hkp, hk, by simpa [dictDelAt] using hr.symm⟩
  · rcases hfree with hfree | hfree <;> rw [hfree] at hr <;>
      exact .inr ⟨hnone, by simpa using hr.symm⟩

/-! ## Growing -/

theorem growSize_eq (bound : ℕ) : ∀ fuel n, ∃ j, growSize bound fuel n = n * 2 ^ j
  | 0, n => ⟨0, by simp [growSize]⟩
  | fuel + 1, n => by
    rw [growSize]
    split
    · obtain ⟨j, hj⟩ := growSize_eq bound fuel (n * 2)
      exact ⟨j + 1, by rw [hj]; ring⟩
    · exact ⟨0, by simp⟩

/-- The loop stops above its bound: the fuel `dictResize` gives it is enough. -/
theorem lt_growSize {bound : ℕ} : ∀ {fuel n : ℕ}, 0 < n → bound < n + fuel →
    bound < growSize bound fuel n
  | 0, n, _, h => by simpa [growSize] using h
  | fuel + 1, n, hn, h => by
    rw [growSize]
    split
    · exact lt_growSize (by omega) (by omega)
    · omega

theorem growSize_of_lt {bound n : ℕ} (h : bound < n) (fuel : ℕ) : growSize bound fuel n = n := by
  cases fuel with
  | zero => rfl
  | succ fuel => rw [growSize, if_neg (by omega)]

/-- `dict_resize` keeps the table as it is exactly when `factor * used` is below its size. -/
theorem growSize_eq_self_iff {d : Dict} (hpos : 0 < d.size) :
    growSize (resizeBound d) (resizeBound d + 1) d.size = d.size ↔ resizeBound d < d.size := by
  constructor
  · intro h
    have := @lt_growSize (resizeBound d) (resizeBound d + 1) d.size hpos (by omega)
    omega
  · exact fun h ↦ growSize_of_lt h _

theorem two_mul_used_le_resizeBound (d : Dict) : 2 * d.used ≤ resizeBound d := by
  rw [resizeBound]
  split <;> omega

/-- The grown size is at most twice the bound it had to exceed. -/
theorem growSize_le {bound : ℕ} : ∀ {fuel n : ℕ}, n ≤ 2 * bound →
    growSize bound fuel n ≤ 2 * bound
  | 0, _, h => h
  | fuel + 1, n, h => by
    rw [growSize]
    split
    · exact growSize_le (by omega)
    · exact h

/-- In a table of at most `2 ^ 30` slots with `fill` below `2 ^ 30` no `unsigned` expression of
`dict_store` or `dict_resize` wraps. -/
theorem resize_no_wrap {d : Dict} (hsize : d.size ≤ 2 ^ 30) (hfill : d.fill < 2 ^ 30)
    (hused : d.used < d.size) :
    3 * (d.fill + 1) < 2 ^ 32 ∧ d.size * 2 < 2 ^ 32 ∧ resizeBound d < 2 ^ 31 ∧
      growSize (resizeBound d) (resizeBound d + 1) d.size < 2 ^ 32 := by
  have hbound : resizeBound d < 2 ^ 31 := by
    rw [resizeBound]
    split
    · omega
    · rename_i h
      rw [dictBigsz] at h
      omega
  refine ⟨by omega, by omega, hbound, ?_⟩
  rcases Nat.lt_or_ge (resizeBound d) d.size with h | h
  · rw [growSize_of_lt h]; omega
  · have := @growSize_le (resizeBound d) (resizeBound d + 1) d.size (by omega)
    omega

/-- A table made by rehashing the entries `L`: coherent, without dummies, with exact counters. -/
structure Rehashed (dictHash : CStr → UInt32) (nd : Dict) (L : List Keypair) : Prop where
  coherent : Coherent dictHash nd
  clean : ∀ i, nd.slot i ≠ .deleted
  fillUsed : nd.fill = nd.used
  count : nd.liveCount = L.length
  mem : ∀ kp, kp ∈ nd.entries ↔ kp ∈ L

theorem Dict.nonNullCount_of_clean {d : Dict} (h : ∀ i, d.slot i ≠ .deleted) :
    d.nonNullCount = d.liveCount := by
  refine List.countP_congr fun s hs ↦ ?_
  obtain ⟨i, -, rfl⟩ := (Dict.mem_table_iff d).mp hs
  cases hc : d.slot i with
  | deleted => exact absurd hc (h i)
  | empty => rfl
  | full a => rfl

theorem slot_emptyTable (n i : ℕ) : (emptyTable n).slot i = .empty := by
  rw [Dict.slot, emptyTable, List.getD_eq_getElem?_getD, List.getElem?_replicate]
  split <;> rfl

theorem rehashed_emptyTable {n k : ℕ} (hn : n = 2 ^ k) :
    Rehashed dictHash (emptyTable n) [] := by
  have hentries : (emptyTable n).entries = [] := by
    refine List.eq_nil_iff_forall_not_mem.mpr fun kp hkp ↦ ?_
    obtain ⟨i, hi⟩ := Dict.mem_entries.mp hkp
    rw [slot_emptyTable] at hi
    simp at hi
  have hlive : (emptyTable n).liveCount = 0 := by rw [← Dict.length_entries, hentries]; rfl
  have hclean : ∀ i, (emptyTable n).slot i ≠ .deleted := by simp [slot_emptyTable]
  refine ⟨⟨⟨k, by simp [Dict.size, emptyTable, hn]⟩, ?_, ?_, ?_, hlive.symm, ?_⟩, hclean, rfl,
    by simpa using hlive, by simp [hentries]⟩
  · simp [slot_emptyTable]
  · simp [slot_emptyTable]
  · simp [slot_emptyTable]
  · rw [Dict.nonNullCount_of_clean hclean, hlive]
    exact Nat.zero_le _

/-- One step of the rehash: a fresh entry goes into a `NULL` slot. -/
theorem Rehashed.addP {nd : Dict} {L : List Keypair} (h : Rehashed dictHash nd L)
    {src : Keypair} (hhash : src.hash = dictHash src.key) (hfresh : ∀ kp ∈ L, kp.key ≠ src.key)
    (hroom : L.length < nd.size) :
    ∃ nd', dictAddP dictHash nd src = some nd' ∧ nd'.size = nd.size ∧
      Rehashed dictHash nd' (L ++ [src]) := by
  obtain ⟨k, hk⟩ := h.coherent.pow
  have hnull : nd.HasNull := by
    rw [Dict.hasNull_iff, Dict.nonNullCount_of_clean h.clean, h.count]
    exact hroom
  obtain ⟨i, hi⟩ := dictLookup_isSome_of_hasNull hk hnull src.key (dictHash src.key)
  have hlt : i < nd.size := dictLookup_lt hk hi
  have hnone : nd.entryOf src.key = none := by
    refine Dict.entryOf_eq_none.mpr fun j kp hj ↦ hfresh kp ?_
    exact (h.mem kp).mp (Dict.mem_entries.mpr ⟨j, hj⟩)
  rcases h.coherent.dictLookup_cases hi with ⟨kp, hkp, hkk⟩ | ⟨hfree, -, hpath⟩
  · exact absurd hkk (Dict.entryOf_eq_none.mp hnone i kp hkp)
  have hempty : nd.slot i = .empty := hfree.resolve_right (h.clean i)
  have heq : dictStoreAt nd i src.key src.value (dictHash src.key)
      = { fill := nd.fill + 1, used := nd.used + 1, table := nd.table.set i (.full src) } := by
    rw [dictStoreAt, hempty, ← hhash]
  obtain ⟨hco, hmap⟩ := h.coherent.storeAt_free src.value hlt hfree hnone hpath
  rw [heq] at hco hmap
  have hslot := @Dict.slot_set nd ⟨nd.fill + 1, nd.used + 1, nd.table.set i (.full src)⟩ i
    (.full src) rfl hlt
  refine ⟨_, ?_, ?_, hco, ?_, by simp [h.fillUsed], ?_, ?_⟩
  · rw [dictAddP, hi, ← hhash]
    rfl
  · simp [Dict.size]
  · intro j
    rw [hslot]
    split
    · simp
    · exact h.clean j
  · have hu := hco.used
    have hu' := h.coherent.used
    have hc := h.count
    simp only [List.length_append, List.length_singleton]
    rw [← hu, ← hc, ← hu']
  · intro kp
    rw [List.mem_append, List.mem_singleton, ← h.mem kp, Dict.mem_entries, Dict.mem_entries]
    constructor
    · rintro ⟨j, hj⟩
      rw [hslot] at hj
      split at hj
      · exact .inr (by simpa using hj.symm)
      · exact .inl ⟨j, hj⟩
    · rintro (⟨j, hj⟩ | rfl)
      · refine ⟨j, ?_⟩
        rw [hslot, if_neg ?_]
        · exact hj
        · rintro rfl
          simp [hempty] at hj
      · exact ⟨i, by rw [hslot, if_pos rfl]⟩

theorem dictRehash_eq_foldlM : ∀ (table : List Slot) (nd : Dict),
    dictRehash dictHash nd table = (liveEntries table).foldlM (dictAddP dictHash) nd
  | [], nd => rfl
  | .full src :: table, nd => by
    rw [dictRehash, List.foldlM_cons, liveEntries, List.foldlM_cons]
    exact congrArg (_ >>= ·) (funext fun nd' ↦ dictRehash_eq_foldlM table nd')
  | .empty :: table, nd => dictRehash_eq_foldlM table nd
  | .deleted :: table, nd => dictRehash_eq_foldlM table nd

/-- The whole rehash. -/
theorem Rehashed.foldlM_addP : ∀ {rest : List Keypair} {nd : Dict} {L : List Keypair},
    Rehashed dictHash nd L → (∀ kp ∈ rest, kp.hash = dictHash kp.key) →
    ((L ++ rest).map Keypair.key).Nodup → (L ++ rest).length < nd.size →
    ∃ nd', rest.foldlM (dictAddP dictHash) nd = some nd' ∧ nd'.size = nd.size ∧
      Rehashed dictHash nd' (L ++ rest)
  | [], nd, L, h, _, _, _ => ⟨nd, rfl, rfl, by simpa using h⟩
  | src :: rest, nd, L, h, hhash, hnd, hroom => by
    have hfresh : ∀ kp ∈ L, kp.key ≠ src.key := by
      intro kp hkp hkey
      rw [List.map_append, List.map_cons, List.nodup_append] at hnd
      exact hnd.2.2 _ (List.mem_map_of_mem hkp) _ (by simp) hkey
    have hlen : (L ++ src :: rest).length = L.length + rest.length + 1 := by simp; omega
    obtain ⟨nd', hadd, hsize, h'⟩ := h.addP (hhash src (by simp)) hfresh (by omega)
    have happ : L ++ src :: rest = L ++ [src] ++ rest := by simp
    obtain ⟨nd'', hfold, hsize', h''⟩ := @foldlM_addP rest nd' (L ++ [src]) h'
      (fun kp hkp ↦ hhash kp (List.mem_cons_of_mem _ hkp))
      (by rwa [← happ]) (by rw [← happ, hsize]; exact hroom)
    refine ⟨nd'', ?_, hsize'.trans hsize, happ ▸ h''⟩
    rw [List.foldlM_cons, hadd]
    exact hfold

theorem nodup_liveEntries : ∀ {table : List Slot},
    (∀ (i j : ℕ) (a b : Keypair), table[i]? = some (Cell.full a) →
      table[j]? = some (Cell.full b) → a.key = b.key → i = j) →
    ((liveEntries table).map Keypair.key).Nodup
  | [], _ => by simp [liveEntries]
  | s :: table, h => by
    have htail := @nodup_liveEntries table fun i j a b hi hj hab ↦ by
      have := h (i + 1) (j + 1) a b (by simpa using hi) (by simpa using hj) hab
      omega
    cases s with
    | full kp =>
      rw [liveEntries, List.map_cons, List.nodup_cons]
      refine ⟨fun hmem ↦ ?_, htail⟩
      obtain ⟨a, ha, hak⟩ := List.mem_map.mp hmem
      obtain ⟨j, hj⟩ := List.mem_iff_getElem?.mp (mem_liveEntries.mp ha)
      have := h 0 (j + 1) kp a rfl (by simpa using hj) hak.symm
      omega
    | empty => exact htail
    | deleted => exact htail

theorem Coherent.nodup_entries {d : Dict} (hd : Coherent dictHash d) :
    (d.entries.map Keypair.key).Nodup := by
  have hslot : ∀ {l : ℕ} {kp : Keypair}, d.table[l]? = some (.full kp) → d.slot l = .full kp := by
    intro l kp hl
    rw [Dict.slot, List.getD_eq_getElem?_getD, hl, Option.getD_some]
  exact nodup_liveEntries fun i j a b hi hj hab ↦ hd.inj i j a b (hslot hi) (hslot hj) hab

/-- **`dict_resize`** leaves the table alone, or fails and leaves it alone, or replaces it by a
clean one with the same entries and a `NULL` slot.  It always returns. -/
theorem Coherent.dictResize_eq {d : Dict} (hd : Coherent dictHash d) (calloc : Bool) :
    (resizeBound d < d.size ∧ dictResize dictHash calloc d = some (true, d)) ∨
      (d.size ≤ resizeBound d ∧ calloc = false ∧ dictResize dictHash calloc d = some (false, d)) ∨
      (d.size ≤ resizeBound d ∧ calloc = true ∧ ∃ nd, dictResize dictHash calloc d = some (true, nd)
        ∧ Rehashed dictHash nd d.entries ∧ 2 * nd.used < nd.size) := by
  obtain ⟨k, hk⟩ := hd.pow
  have hpos : 0 < d.size := hk ▸ Nat.two_pow_pos k
  rcases Nat.lt_or_ge (resizeBound d) d.size with hlt | hge
  · refine .inl ⟨hlt, ?_⟩
    rw [dictResize, if_pos ((growSize_eq_self_iff hpos).mpr hlt)]
  · have hne : growSize (resizeBound d) (resizeBound d + 1) d.size ≠ d.size := fun h ↦
      absurd ((growSize_eq_self_iff hpos).mp h) (by omega)
    cases calloc with
    | false => exact .inr (.inl ⟨hge, rfl, by rw [dictResize, if_neg hne, if_pos rfl]⟩)
    | true =>
      refine .inr (.inr ⟨hge, rfl, ?_⟩)
      obtain ⟨j, hj⟩ := growSize_eq (resizeBound d) (resizeBound d + 1) d.size
      have hbig := @lt_growSize (resizeBound d) (resizeBound d + 1) d.size hpos (by omega)
      have htwo := two_mul_used_le_resizeBound d
      have hlen : d.entries.length = d.used := by rw [Dict.length_entries, hd.used]
      have hstart : Rehashed dictHash
          (emptyTable (growSize (resizeBound d) (resizeBound d + 1) d.size)) [] :=
        rehashed_emptyTable (k := k + j) (by rw [hj, hk, pow_add])
      have hsize : (emptyTable (growSize (resizeBound d) (resizeBound d + 1) d.size)).size
          = growSize (resizeBound d) (resizeBound d + 1) d.size := by simp [Dict.size, emptyTable]
      obtain ⟨nd, hfold, hnd, h⟩ := @Rehashed.foldlM_addP dictHash d.entries _ _ hstart
        (fun kp hkp ↦ let ⟨i, hi⟩ := Dict.mem_entries.mp hkp; hd.hash i kp hi)
        (by simpa using hd.nodup_entries) (by simp only [List.nil_append]; omega)
      rw [List.nil_append] at h
      refine ⟨nd, ?_, h, ?_⟩
      · rw [dictResize, if_neg hne, if_neg (by simp), dictRehash_eq_foldlM]
        show (d.entries.foldlM (dictAddP dictHash) _ >>= _) = _
        rw [hfold]
        rfl
      · rw [hnd, hsize, h.coherent.used, h.count, hlen]
        omega

/-! ## Storing -/

/-- What `dict_store` can do with a key and a value: fail and change nothing, replace the value of
a live key, put a new key into a free slot of the table as it is, or grow the table first. -/
inductive StoreStep (dictHash : CStr → UInt32) (d : Dict) (key : CStr) (val : DictValue) :
    Bool → Dict → Prop
  | failed : StoreStep dictHash d key val false d
  | replaced {i : ℕ} {kp : Keypair} (hi : d.slot i = .full kp) (hk : kp.key = key) :
      StoreStep dictHash d key val true (dictStoreAt d i key val (dictHash key))
  | inserted {i : ℕ} (hlookup : dictLookup d key (dictHash key) = some i)
      (hfree : d.slot i = .empty ∨ d.slot i = .deleted) (hnone : d.entryOf key = none)
      (hroom : 3 * (d.fill + 1) < d.size * 2 ∨ resizeBound d < d.size) :
      StoreStep dictHash d key val true (dictStoreAt d i key val (dictHash key))
  | grown {nd : Dict} {i : ℕ} (hnone : d.entryOf key = none)
      (hfull : d.size * 2 ≤ 3 * (d.fill + 1) ∧ d.size ≤ resizeBound d)
      (hnd : Rehashed dictHash nd d.entries) (hsize : 2 * nd.used < nd.size)
      (hlookup : dictLookup nd key (dictHash key) = some i) (hempty : nd.slot i = .empty) :
      StoreStep dictHash d key val true (dictStoreAt nd i key val (dictHash key))

theorem Rehashed.entryOf_eq {d nd : Dict} (h : Rehashed dictHash nd d.entries) (key : CStr) :
    nd.entryOf key = d.entryOf key :=
  h.coherent.entryOf_congr fun kp _ ↦ h.mem kp

theorem Rehashed.hasNull {nd : Dict} {L : List Keypair} (h : Rehashed dictHash nd L)
    (hsize : 2 * nd.used < nd.size) : nd.HasNull := by
  rw [Dict.hasNull_iff, Dict.nonNullCount_of_clean h.clean, ← h.coherent.used]
  omega

theorem isFree_iff {d : Dict} {i : ℕ} :
    d.isFree i = true ↔ d.slot i = .empty ∨ d.slot i = .deleted := by
  rw [Dict.isFree]
  cases d.slot i <;> simp

/-- **`dict_store`, call by call.**  It returns whenever the first lookup does, with success if
its allocations succeed. -/
theorem Coherent.dictStore_eq {d : Dict} (hd : Coherent dictHash d) (mem : StoreAlloc) (key : CStr)
    (val : DictValue) :
    (dictLookup d key (dictHash key) = none ∧ dictStore dictHash mem d key val = none) ∨
      ∃ rc d', dictStore dictHash mem d key val = some (rc, d') ∧
        StoreStep dictHash d key val rc d' ∧ (mem = .ok → rc = true) := by
  cases hl : dictLookup d key (dictHash key) with
  | none => exact .inl ⟨rfl, by rw [dictStore, hl]; rfl⟩
  | some i =>
    refine .inr ?_
    rw [dictStore, hl]
    simp only [Option.bind_eq_bind, Option.bind_some, Option.pure_def]
    by_cases hk : mem.newkey = false
    · exact ⟨false, d, by rw [if_pos hk], .failed, fun h ↦ by simp [h, StoreAlloc.ok] at hk⟩
    rw [if_neg hk]
    by_cases hs : val.hasString = true ∧ mem.newstr = false
    · exact ⟨false, d, by rw [if_pos hs], .failed, fun h ↦ by simp [h, StoreAlloc.ok] at hs⟩
    rw [if_neg hs]
    rcases hd.dictLookup_cases hl with ⟨kp, hkp, hkk⟩ | ⟨hfree, hnone, hpath⟩
    · have hnf : d.isFree i = false := by rw [Dict.isFree, hkp]
      exact ⟨true, _, by simp [hnf], .replaced hkp hkk, fun _ ↦ rfl⟩
    · rw [isFree_iff.mpr hfree]
      by_cases hfill : 3 * (d.fill + 1) ≥ d.size * 2
      · rw [if_pos ⟨rfl, hfill⟩]
        rcases hd.dictResize_eq mem.newtable with ⟨hlt, hr⟩ | ⟨-, hcalloc, hr⟩ |
          ⟨hge, hcalloc, nd, hr, hnd, hsize⟩
        · refine ⟨true, _, ?_, .inserted hl hfree hnone (.inr hlt), fun _ ↦ rfl⟩
          rw [hr]
          simp [hl]
        · refine ⟨false, d, by rw [hr]; simp, .failed, fun h ↦ ?_⟩
          simp [h, StoreAlloc.ok] at hcalloc
        · obtain ⟨k, hpow⟩ := hnd.coherent.pow
          obtain ⟨i', hi'⟩ := dictLookup_isSome_of_hasNull hpow (hnd.hasNull hsize) key
            (dictHash key)
          refine ⟨true, _, ?_, .grown hnone ⟨hfill, hge⟩ hnd hsize hi' ?_, fun _ ↦ rfl⟩
          · rw [hr]
            simp [hi']
          · rcases hnd.coherent.dictLookup_cases hi' with ⟨kp, hkp, hkk⟩ | ⟨hfree', -, -⟩
            · exact absurd hkk (Dict.entryOf_eq_none.mp (hnd.entryOf_eq key ▸ hnone) i' kp hkp)
            · exact hfree'.resolve_right (hnd.clean i')
      · rw [if_neg (by simp [hfill])]
        exact ⟨true, _, rfl, .inserted hl hfree hnone (.inl (by omega)), fun _ ↦ rfl⟩

theorem Coherent.dictStore_step {d d' : Dict} (hd : Coherent dictHash d) {mem : StoreAlloc}
    {key : CStr} {val : DictValue} {rc : Bool}
    (h : dictStore dictHash mem d key val = some (rc, d')) :
    StoreStep dictHash d key val rc d' := by
  rcases hd.dictStore_eq mem key val with ⟨-, hnone⟩ | ⟨rc', d'', hsome, hstep, -⟩
  · rw [hnone] at h
    simp at h
  · rw [hsome] at h
    obtain ⟨rfl, rfl⟩ : rc' = rc ∧ d'' = d' := by simpa using h
    exact hstep

/-- With its allocations succeeding and a `NULL` slot to stop at, or the key in the table,
`dict_store` succeeds. -/
theorem Coherent.dictStore_ok {d : Dict} (hd : Coherent dictHash d) (key : CStr) (val : DictValue)
    (h : d.HasNull ∨ ∃ kp, d.entryOf key = some kp) :
    ∃ d', dictStore dictHash .ok d key val = some (true, d') ∧
      StoreStep dictHash d key val true d' := by
  obtain ⟨i, hi⟩ := hd.dictLookup_isSome key h
  rcases hd.dictStore_eq .ok key val with ⟨hnone, -⟩ | ⟨rc, d', hsome, hstep, hrc⟩
  · rw [hi] at hnone
    simp at hnone
  · obtain rfl := hrc rfl
    exact ⟨d', hsome, hstep⟩

/-- **Every successful store keeps the invariant and updates the map at its key.** -/
theorem StoreStep.spec {d d' : Dict} (hd : Coherent dictHash d) {key : CStr} {val : DictValue}
    (h : StoreStep dictHash d key val true d') :
    Coherent dictHash d' ∧ ∀ k, d'.entryOf k
      = if k = key then some ⟨key, val, dictHash key⟩ else d.entryOf k := by
  cases h with
  | replaced hi hk => exact hd.storeAt_live val hi hk
  | inserted hlookup hfree hnone _ =>
    obtain ⟨k, hpow⟩ := hd.pow
    rcases hd.dictLookup_cases hlookup with ⟨kp, hkp, hk⟩ | ⟨-, -, hpath⟩
    · exact absurd hk (Dict.entryOf_eq_none.mp hnone _ kp hkp)
    · exact hd.storeAt_free val (dictLookup_lt hpow hlookup) hfree hnone hpath
  | grown hnone _ hnd _ hlookup hempty =>
    obtain ⟨k, hpow⟩ := hnd.coherent.pow
    have hnone' := (hnd.entryOf_eq key).trans hnone
    rcases hnd.coherent.dictLookup_cases hlookup with ⟨kp, hkp, hk⟩ | ⟨-, -, hpath⟩
    · exact absurd hk (Dict.entryOf_eq_none.mp hnone' _ kp hkp)
    · obtain ⟨hco, hmap⟩ := hnd.coherent.storeAt_free val (dictLookup_lt hpow hlookup)
        (.inl hempty) hnone' hpath
      exact ⟨hco, fun k ↦ by rw [hmap, hnd.entryOf_eq]⟩

end Rustyaxe
