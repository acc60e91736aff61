import Rustyaxe.Dict.Refinement

/-!
# Counters of 32 bits

`fill`, `used` and `size` are `unsigned`, and `fill` goes up with every replacement, whatever the
size of the table.  So it comes round, and then `3 * (fill + 1)` says that there is room where there
is none.  `dictStore32` is `dict_store` with that arithmetic, and `dictStore32_eq` says how far
`dictStore` is the same: for at most `2 ^ 30` slots and `fill` below `2 ^ 30`.

What the counter says does not matter to the table, so the invariant is `Coherent` with `fill`
counted afresh (`Coherent32`), and `StoreStep32` is what a store can do.
-/

set_option autoImplicit false

namespace Rustyaxe

open ProbeSearch

/-! ## The code -/

/-- `factor * d->used` of `dict_resize`. -/
def resizeBound32 (d : Dict) : ℕ := resizeBound d % 2 ^ 32

/-- `while (newsize <= bound) newsize *= 2`, which never ends once `newsize` has become zero
(`growSize32_spec`). -/
def growSize32 (bound : ℕ) : (fuel newsize : ℕ) → Option ℕ
  | 0, _ => none
  | fuel + 1, newsize =>
    if newsize ≤ bound then growSize32 bound fuel (newsize * 2 % 2 ^ 32) else some newsize

/-- The end of `dict_store`.  `used` counts live slots, so it does not come round. -/
def dictStoreAt32 (d : Dict) (i : ℕ) (key : CStr) (val : DictValue) (hash : UInt32) : Dict :=
  let d := match d.slot i with
    | .full _ => { d with used := d.used - 1 }
    | .deleted => { d with fill := if d.fill = 0 then 2 ^ 32 - 1 else d.fill - 1 }
    | .empty => d
  { fill := (d.fill + 1) % 2 ^ 32, used := d.used + 1,
    table := d.table.set i (.full ⟨key, val, hash⟩) }

section Hash

variable (dictHash : CStr → UInt32)

/-- `dict_resize` -/
def dictResize32 (calloc : Bool) (d : Dict) : Option (Bool × Dict) := do
  let newsize ← growSize32 (resizeBound32 d) 33 d.size
  if newsize = d.size then some (true, d)
  else if calloc = false then some (false, d)
  else do
    let nd ← dictRehash dictHash (emptyTable newsize) d.table
    some (true, nd)

/-- `dict_store` -/
def dictStore32 (mem : StoreAlloc) (d : Dict) (key : CStr) (val : DictValue) :
    Option (Bool × Dict) := do
  let hash := dictHash key
  let i ← dictLookup d key hash
  if mem.newkey = false then return (false, d)
  if val.hasString ∧ mem.newstr = false then return (false, d)
  if d.isFree i ∧ 3 * (d.fill + 1) % 2 ^ 32 ≥ d.size * 2 % 2 ^ 32 then
    let (rc, d) ← dictResize32 dictHash mem.newtable d
    if rc = false then return (false, d)
    let i ← dictLookup d key hash
    return (true, dictStoreAt32 d i key val hash)
  return (true, dictStoreAt32 d i key val hash)

end Hash

/-- A new key has the table grown: the counter asks for it, and there are keys enough. -/
def Dict.grows (d : Dict) : Prop :=
  d.size * 2 % 2 ^ 32 ≤ 3 * (d.fill + 1) % 2 ^ 32 ∧ d.size ≤ resizeBound32 d

/-! ## The invariant -/

/-- The table with `fill` counted afresh. -/
def Dict.recounted (d : Dict) : Dict := { d with fill := d.nonNullCount }

/-- The table is coherent, whatever `fill` is. -/
structure Coherent32 (dictHash : CStr → UInt32) (d : Dict) : Prop where
  table : Coherent dictHash d.recounted
  size : d.size < 2 ^ 32
  fill : d.fill < 2 ^ 32

variable {dictHash : CStr → UInt32} {d : Dict} {key : CStr} {val : DictValue}

theorem Coherent.recounted (hd : Coherent dictHash d) : Coherent dictHash d.recounted :=
  ⟨hd.pow, hd.hash, hd.inj, hd.path, hd.used, le_rfl⟩

theorem dictLookup_recounted (d : Dict) (key : CStr) (hash : UInt32) :
    dictLookup d.recounted key hash = dictLookup d key hash := by
  rw [dictLookup_eq_search, dictLookup_eq_search]
  rfl

@[simp] theorem dictStoreAt32_table (d : Dict) (i : ℕ) (key : CStr) (val : DictValue)
    (hash : UInt32) :
    (dictStoreAt32 d i key val hash).table = d.table.set i (.full ⟨key, val, hash⟩) := by
  rw [dictStoreAt32]
  cases d.slot i <;> rfl

/-- The counter apart, a store does what it does with natural numbers. -/
theorem dictStoreAt32_recounted (d : Dict) (i : ℕ) (key : CStr) (val : DictValue) (hash : UInt32) :
    (dictStoreAt32 d i key val hash).recounted =
      (dictStoreAt d.recounted i key val hash).recounted := by
  have hslot : d.recounted.slot i = d.slot i := rfl
  rw [Dict.recounted, Dict.recounted, Dict.nonNullCount, Dict.nonNullCount, dictStoreAt32_table,
    dictStoreAt_table, dictStoreAt32, dictStoreAt, hslot]
  cases d.slot i <;> rfl

/-- The counter goes up, but where a deleted slot is taken. -/
theorem dictStoreAt32_fill (hfill : d.fill < 2 ^ 32) (i : ℕ) (key : CStr) (val : DictValue)
    (hash : UInt32) :
    (dictStoreAt32 d i key val hash).fill =
      if d.slot i = .deleted then d.fill else (d.fill + 1) % 2 ^ 32 := by
  rw [dictStoreAt32]
  cases hslot : d.slot i with
  | empty => rfl
  | full kp => rfl
  | deleted =>
    rw [if_pos rfl]
    dsimp only
    split <;> omega

theorem dictStoreAt32_size (d : Dict) (i : ℕ) (key : CStr) (val : DictValue) (hash : UInt32) :
    (dictStoreAt32 d i key val hash).size = d.size := by
  rw [Dict.size, dictStoreAt32_table, List.length_set, Dict.size]

/-! ## Growing -/

theorem growSize32_zero (bound : ℕ) : ∀ fuel, growSize32 bound fuel 0 = none
  | 0 => rfl
  | fuel + 1 => by
    rw [growSize32, if_pos (Nat.zero_le _), Nat.zero_mul, Nat.zero_mod]
    exact growSize32_zero bound fuel

/-- **The loop of `dict_resize`** stops at a power of two above the bound, or never: if it has to go
beyond `2 ^ 31`. -/
theorem growSize32_spec (bound : ℕ) : ∀ {fuel k : ℕ}, 32 < fuel + k → k < 32 →
    (2 ^ 31 ≤ bound ∧ growSize32 bound fuel (2 ^ k) = none) ∨
      ∃ j < 32, bound < 2 ^ j ∧ growSize32 bound fuel (2 ^ k) = some (2 ^ j)
  | 0, k, hfuel, hk => by omega
  | fuel + 1, k, hfuel, hk => by
    rw [growSize32]
    split
    case isFalse hlt => exact .inr ⟨k, hk, Nat.lt_of_not_le hlt, rfl⟩
    case isTrue hle =>
      by_cases hlast : k = 31
      · subst hlast
        exact .inl ⟨hle, growSize32_zero bound fuel⟩
      · have hdouble : 2 ^ k * 2 % 2 ^ 32 = 2 ^ (k + 1) := by
          rw [← pow_succ]
          exact Nat.mod_eq_of_lt (Nat.pow_lt_pow_right (by omega) (by omega))
        rw [hdouble]
        exact growSize32_spec bound (by omega) (by omega)

/-- Below `2 ^ 31` the loop is that of `growSize`. -/
theorem growSize_of_growSize32 {bound m : ℕ} (hbound : bound < 2 ^ 31) :
    ∀ {fuel fuel' n : ℕ}, growSize32 bound fuel n = some m → bound < n + fuel' → 0 < n →
      growSize bound fuel' n = m
  | 0, fuel', n, h, _, _ => by cases h
  | fuel + 1, fuel', n, h, hfuel, hpos => by
    rw [growSize32] at h
    split at h
    case isFalse hlt =>
      rw [growSize_of_lt (by omega)]
      exact Option.some.inj h
    case isTrue hle =>
      obtain ⟨fuel', rfl⟩ : ∃ f, fuel' = f + 1 := ⟨fuel' - 1, by omega⟩
      rw [Nat.mod_eq_of_lt (by omega)] at h
      rw [growSize, if_pos hle]
      exact growSize_of_growSize32 hbound h (by omega) (by omega)

namespace Coherent32

variable (hd : Coherent32 dictHash d)
include hd

theorem exists_pow : ∃ k < 32, d.size = 2 ^ k := by
  obtain ⟨k, hk⟩ := hd.table.pow
  have hk : d.size = 2 ^ k := hk
  have hsize := hd.size
  rw [hk] at hsize
  exact ⟨k, (Nat.pow_lt_pow_iff_right Nat.one_lt_two).mp hsize, hk⟩

theorem length_entries : d.entries.length = d.used := by
  rw [Dict.length_entries]
  exact hd.table.used.symm

theorem used_lt {i : ℕ} (hi : i < d.size) (hfree : d.isFree i = true) : d.used < d.size := by
  refine lt_of_le_of_ne (hd.table.used ▸ List.countP_le_length) fun he ↦ ?_
  have hall := List.countP_eq_length.mp (hd.table.used.symm.trans he)
  have hlive := hall _ ((Dict.mem_table_iff d).mpr ⟨i, hi, rfl⟩)
  rcases isFree_iff.mp hfree with h | h <;> rw [h] at hlive <;> cases hlive

/-- With a free slot in the table `factor * used` does not come round. -/
theorem resizeBound32_eq {i : ℕ} (hi : i < d.size) (hfree : d.isFree i = true) :
    resizeBound32 d = resizeBound d := by
  obtain ⟨k, hk, hpow⟩ := hd.exists_pow
  have hle : d.size ≤ 2 ^ 31 := hpow ▸ Nat.pow_le_pow_right Nat.two_pos (by omega)
  have hused := hd.used_lt hi hfree
  refine Nat.mod_eq_of_lt ?_
  rw [resizeBound, dictBigsz]
  split <;> omega

/-- **`dict_resize`** leaves the table alone, or never returns, or fails, or replaces the table by a
clean one with the same entries. -/
theorem dictResize32_eq {i : ℕ} (hi : i < d.size) (hfree : d.isFree i = true) (calloc : Bool) :
    (resizeBound32 d < d.size ∧ dictResize32 dictHash calloc d = some (true, d)) ∨
      d.size ≤ resizeBound32 d ∧
        (dictResize32 dictHash calloc d = none ∨
          calloc = false ∧ dictResize32 dictHash calloc d = some (false, d) ∨
          ∃ nd, dictResize32 dictHash calloc d = some (true, nd) ∧ Rehashed dictHash nd d.entries ∧
            0 < nd.used ∧ 2 * nd.used < nd.size ∧ nd.size < 2 ^ 32) := by
  obtain ⟨k, hk, hpow⟩ := hd.exists_pow
  rcases Nat.lt_or_ge (resizeBound32 d) d.size with hlt | hge
  · refine .inl ⟨hlt, ?_⟩
    rw [dictResize32, growSize32, if_neg (by omega)]
    exact if_pos rfl
  refine .inr ⟨hge, ?_⟩
  have hspec := @growSize32_spec (resizeBound32 d) 33 k (by omega) hk
  rw [← hpow] at hspec
  rcases hspec with ⟨-, hnone⟩ | ⟨j, hj, hbound, hsome⟩
  · exact .inl (by rw [dictResize32, hnone]; rfl)
  refine .inr ?_
  have hne : 2 ^ j ≠ d.size := by omega
  rw [dictResize32, hsome, Option.bind_eq_bind, Option.bind_some, if_neg hne]
  cases calloc with
  | false => exact .inl ⟨rfl, rfl⟩
  | true =>
    refine .inr ?_
    have htwo := two_mul_used_le_resizeBound d
    have hlen := hd.length_entries
    rw [hd.resizeBound32_eq hi hfree] at hbound hge
    have hsize : (emptyTable (2 ^ j)).size = 2 ^ j := by simp [Dict.size, emptyTable]
    obtain ⟨nd, hfold, hnd, h⟩ := @Rehashed.foldlM_addP dictHash d.entries _ _
      (rehashed_emptyTable rfl) (fun kp hkp ↦
        (Dict.mem_entries.mp hkp).elim fun i hi ↦ hd.table.hash i kp hi)
      (by rw [List.nil_append]; exact hd.table.nodup_entries) (by rw [List.nil_append, hsize]; omega)
    rw [List.nil_append] at h
    have hused : nd.used = d.used := by rw [h.coherent.used, h.count, hlen]
    refine ⟨nd, ?_, h, ?_, ?_, ?_⟩
    · rw [if_neg (by simp), dictRehash_eq_foldlM]
      exact congrArg (Option.bind · fun nd ↦ some (true, nd)) hfold
    · refine Nat.pos_of_ne_zero fun hzero ↦ ?_
      rw [resizeBound, ← hused, hzero, Nat.mul_zero] at hge
      omega
    · rw [hnd, hsize, hused]
      omega
    · rw [hnd, hsize]
      exact Nat.pow_lt_pow_right Nat.one_lt_two hj

end Coherent32

/-! ## Storing -/

/-- What `dict_store` can do with a key and a value. -/
inductive StoreStep32 (dictHash : CStr → UInt32) (d : Dict) (key : CStr) (val : DictValue) :
    Bool → Dict → Prop
  | failed : StoreStep32 dictHash d key val false d
  | replaced {i : ℕ} {kp : Keypair} (hi : d.slot i = .full kp) (hk : kp.key = key) :
      StoreStep32 dictHash d key val true (dictStoreAt32 d i key val (dictHash key))
  | inserted {i : ℕ} (hlookup : dictLookup d key (dictHash key) = some i)
      (hfree : d.slot i = .empty ∨ d.slot i = .deleted) (hstay : ¬ d.grows) :
      StoreStep32 dictHash d key val true (dictStoreAt32 d i key val (dictHash key))
  | grown {nd : Dict} {i : ℕ} (hnone : d.entryOf key = none) (hnd : Rehashed dictHash nd d.entries)
      (hpos : 0 < nd.used) (hsize : 2 * nd.used < nd.size) (hlt : nd.size < 2 ^ 32)
      (hlookup : dictLookup nd key (dictHash key) = some i) (hempty : nd.slot i = .empty) :
      StoreStep32 dictHash d key val true (dictStoreAt32 nd i key val (dictHash key))

namespace Coherent32

variable (hd : Coherent32 dictHash d)
include hd

theorem dictLookup_cases {i : ℕ} (h : dictLookup d key (dictHash key) = some i) :
    (∃ kp, d.slot i = .full kp ∧ kp.key = key) ∨
      ((d.slot i = .empty ∨ d.slot i = .deleted) ∧ d.entryOf key = none ∧
        OnPath d.slot (probeIndex d.size (dictHash key).toNat) i) :=
  hd.table.dictLookup_cases ((dictLookup_recounted d key _).trans h)

theorem lookup_lt {i : ℕ} (h : dictLookup d key (dictHash key) = some i) : i < d.size := by
  obtain ⟨k, -, hpow⟩ := hd.exists_pow
  exact dictLookup_lt hpow h

/-- **`dict_store`, call by call.** -/
theorem dictStore32_step {mem : StoreAlloc} {rc : Bool} {d' : Dict}
    (h : dictStore32 dictHash mem d key val = some (rc, d')) :
    StoreStep32 dictHash d key val rc d' := by
  rw [dictStore32, Option.bind_eq_bind, Option.bind_eq_some_iff] at h
  obtain ⟨i, hl, h⟩ := h
  simp only [Option.bind_eq_bind, Option.pure_def] at h
  split at h
  · cases h
    exact .failed
  split at h
  · cases h
    exact .failed
  split at h
  case isFalse hstay =>
    cases h
    rcases hd.dictLookup_cases hl with ⟨kp, hkp, hkk⟩ | ⟨hfree, -, -⟩
    · exact .replaced hkp hkk
    · exact .inserted hl hfree fun hgrows ↦ hstay ⟨isFree_iff.mpr hfree, hgrows.1⟩
  case isTrue hfull =>
    rcases hd.dictLookup_cases hl with ⟨kp, hkp, hkk⟩ | ⟨hfree, hnone, -⟩
    · rw [Dict.isFree, hkp] at hfull
      cases hfull.1
    rcases hd.dictResize32_eq (hd.lookup_lt hl) hfull.1 mem.newtable with
      ⟨hlt, hr⟩ | ⟨-, hr | ⟨-, hr⟩ | ⟨nd, hr, hnd, hpos, hsize, hsize32⟩⟩
    · rw [hr, Option.bind_some, if_neg (by simp), hl] at h
      cases h
      exact .inserted hl hfree fun hgrows ↦ Nat.not_le_of_lt hlt hgrows.2
    · rw [hr] at h
      cases h
    · rw [hr, Option.bind_some, if_pos rfl] at h
      cases h
      exact .failed
    · rw [hr, Option.bind_some, if_neg (by simp), Option.bind_eq_some_iff] at h
      obtain ⟨i', hl', h⟩ := h
      cases h
      refine .grown hnone hnd hpos hsize hsize32 hl' ?_
      rcases hnd.coherent.dictLookup_cases hl' with ⟨kp, hkp, hkk⟩ | ⟨hfree', -, -⟩
      · exact absurd hkk (Dict.entryOf_eq_none.mp ((hnd.entryOf_eq key).trans hnone) i' kp hkp)
      · exact hfree'.resolve_right (hnd.clean i')

/-- A store that has no table to grow returns. -/
theorem dictStore32_stays {i : ℕ} (hl : dictLookup d key (dictHash key) = some i)
    (hstay : d.isFree i = true → ¬ d.grows) :
    dictStore32 dictHash .ok d key val =
      some (true, dictStoreAt32 d i key val (dictHash key)) := by
  rw [dictStore32, hl]
  simp only [Option.bind_eq_bind, Option.bind_some, Option.pure_def, StoreAlloc.ok,
    Bool.true_eq_false, and_false, if_false]
  split
  case isFalse => rfl
  case isTrue hfull =>
    rcases hd.dictResize32_eq (hd.lookup_lt hl) hfull.1 true with ⟨-, hr⟩ | ⟨hge, -⟩
    · rw [hr, Option.bind_some, if_neg (by simp), hl]
      rfl
    · exact absurd ⟨hfull.2, hge⟩ (hstay hfull.1)

end Coherent32

/-- **A store keeps the invariant.** -/
theorem StoreStep32.coherent {d' : Dict} {rc : Bool} (hd : Coherent32 dictHash d)
    (h : StoreStep32 dictHash d key val rc d') : Coherent32 dictHash d' := by
  have hlt : ∀ {d : Dict} {i : ℕ}, d.fill < 2 ^ 32 →
      (dictStoreAt32 d i key val (dictHash key)).fill < 2 ^ 32 := by
    intro d i hfill
    rw [dictStoreAt32_fill hfill]
    split
    · exact hfill
    · exact Nat.mod_lt _ (Nat.two_pow_pos 32)
  have hsize := hd.size
  cases h with
  | failed => exact hd
  | @replaced i kp hi hk =>
    refine ⟨?_, by rwa [dictStoreAt32_size], hlt hd.fill⟩
    rw [dictStoreAt32_recounted]
    exact (hd.table.storeAt_live val hi hk).1.recounted
  | @inserted i hlookup hfree hstay =>
    refine ⟨?_, by rwa [dictStoreAt32_size], hlt hd.fill⟩
    rcases hd.dictLookup_cases hlookup with ⟨kp, hkp, -⟩ | ⟨-, hnone, hpath⟩
    · rcases hfree with h | h <;> rw [hkp] at h <;> cases h
    rw [dictStoreAt32_recounted]
    exact (hd.table.storeAt_free val (hd.lookup_lt hlookup) hfree hnone hpath).1.recounted
  | @grown nd i hnone hnd hpos htwo hnsize hlookup hempty =>
    obtain ⟨k, hpow⟩ := hnd.coherent.pow
    have hfill : nd.fill < 2 ^ 32 := by
      have := hnd.fillUsed
      omega
    refine ⟨?_, by rwa [dictStoreAt32_size], hlt hfill⟩
    rcases hnd.coherent.dictLookup_cases hlookup with ⟨kp, hkp, -⟩ | ⟨-, hnone', hpath⟩
    · rw [hkp] at hempty
      cases hempty
    rw [dictStoreAt32_recounted]
    exact (hnd.coherent.recounted.storeAt_free val (dictLookup_lt hpow hlookup) (.inl hempty)
      hnone' hpath).1.recounted

/-! ## Small tables -/

theorem Coherent.dictStoreAt32_eq (hd : Coherent dictHash d) (hfill : d.fill < 2 ^ 30) {i : ℕ}
    (hi : i < d.size) (key : CStr) (val : DictValue) (hash : UInt32) :
    dictStoreAt32 d i key val hash = dictStoreAt d i key val hash := by
  rw [dictStoreAt32, dictStoreAt]
  cases hslot : d.slot i with
  | empty => simp only [Nat.mod_eq_of_lt (show d.fill + 1 < 2 ^ 32 by omega)]
  | full kp => simp only [Nat.mod_eq_of_lt (show d.fill + 1 < 2 ^ 32 by omega)]
  | deleted =>
    have hpos : 0 < d.nonNullCount :=
      List.countP_pos_iff.mpr ⟨_, (Dict.mem_table_iff d).mpr ⟨i, hi, hslot⟩, rfl⟩
    have hcount := hd.fill
    simp only [if_neg (show d.fill ≠ 0 by omega),
      Nat.mod_eq_of_lt (show d.fill - 1 + 1 < 2 ^ 32 by omega)]

theorem Coherent.coherent32 (hd : Coherent dictHash d) (hsize : d.size ≤ 2 ^ 30)
    (hfill : d.fill < 2 ^ 30) : Coherent32 dictHash d :=
  ⟨hd.recounted, by omega, by omega⟩

theorem Coherent.dictResize32_eq (hd : Coherent dictHash d) (hsize : d.size ≤ 2 ^ 30)
    (hfill : d.fill < 2 ^ 30) {i : ℕ} (hi : i < d.size) (hfree : d.isFree i = true)
    (calloc : Bool) : dictResize32 dictHash calloc d = dictResize dictHash calloc d := by
  have hd32 := hd.coherent32 hsize hfill
  obtain ⟨k, hk, hpow⟩ := hd32.exists_pow
  have hbound := hd32.resizeBound32_eq hi hfree
  have hlt := (resize_no_wrap hsize hfill (hd32.used_lt hi hfree)).2.2.1
  obtain ⟨hge, -⟩ | ⟨j, hj, -, hsome⟩ := @growSize32_spec (resizeBound d) 33 k (by omega) hk
  · omega
  have hgrow := @growSize_of_growSize32 _ _ hlt 33 (resizeBound d + 1) _ hsome
    (by have := Nat.two_pow_pos k; omega) (Nat.two_pow_pos k)
  rw [dictResize32, dictResize, hbound, hpow, hsome, hgrow]
  rfl

/-- **In a table of at most `2 ^ 30` slots nothing comes round**, as long as `fill` is below
`2 ^ 30`. -/
theorem Coherent.dictStore32_eq (hd : Coherent dictHash d) (hsize : d.size ≤ 2 ^ 30)
    (hfill : d.fill < 2 ^ 30) (mem : StoreAlloc) (key : CStr) (val : DictValue) :
    dictStore32 dictHash mem d key val = dictStore dictHash mem d key val := by
  rw [dictStore32, dictStore]
  cases hl : dictLookup d key (dictHash key) with
  | none => rfl
  | some i =>
    have hi := (hd.coherent32 hsize hfill).lookup_lt hl
    have hat := hd.dictStoreAt32_eq hfill hi key val (dictHash key)
    simp only [Option.bind_eq_bind, Option.bind_some, Option.pure_def,
      Nat.mod_eq_of_lt (show 3 * (d.fill + 1) < 2 ^ 32 by omega),
      Nat.mod_eq_of_lt (show d.size * 2 < 2 ^ 32 by omega), hat]
    split
    · rfl
    split
    · rfl
    split
    case isFalse => rfl
    case isTrue hfull =>
      rw [hd.dictResize32_eq hsize hfill hi hfull.1]
      rcases hd.dictResize_eq mem.newtable with ⟨-, hr⟩ | ⟨-, -, hr⟩ | ⟨-, -, nd, hr, hnd, -⟩
      · rw [hr, Option.bind_some, Option.bind_some, hl, Option.bind_some, Option.bind_some, hat]
      · rw [hr]
        rfl
      · have hused : nd.fill = d.used := by
          rw [hnd.fillUsed, hnd.coherent.used, hnd.count, Dict.length_entries, hd.used]
        have hlt := (hd.coherent32 hsize hfill).used_lt hi hfull.1
        rw [hr, Option.bind_some, Option.bind_some]
        cases hl' : dictLookup nd key (dictHash key) with
        | none => rfl
        | some i' =>
          obtain ⟨k, hpow⟩ := hnd.coherent.pow
          rw [Option.bind_some, Option.bind_some, hnd.coherent.dictStoreAt32_eq (by omega)
            (dictLookup_lt hpow hl')]

end Rustyaxe
