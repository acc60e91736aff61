import Rustyaxe.Dict.Refinement

/-!
# Whole dictionaries: enumeration, merging, cloning and differences

The functions of `dict.c` that walk one dictionary and store into another.  They all iterate with
`dict_enumerate_typed`; `dictEnumerateAll` is that loop, and `dictEnumerateAll_eq` says that it
yields the live slots in the order of the table.

A result of type `Option (Option Dict)` is, from the outside in: did the call return, and did it
return a dictionary or `NULL`.
-/

set_option autoImplicit false

namespace Rustyaxe

/-! ## Enumeration -/

/-- The scan of `dict_enumerate_typed` over what is left of the table: the rank to go on from, and
the entry. -/
def scanLive : List Slot → (rank : ℕ) → Option (ℕ × Keypair)
  | [], _ => none
  | .full kp :: _, rank => some (rank + 1, kp)
  | .empty :: table, rank => scanLive table (rank + 1)
  | .deleted :: table, rank => scanLive table (rank + 1)

/-- `dict_enumerate_typed`; `none` is the rank `-1`. -/
def dictEnumerateTyped (d : Dict) (rank : ℕ) : Option (ℕ × Keypair) :=
  scanLive (d.table.drop rank) rank

/-- `while ((rank = dict_enumerate_typed(d, rank, ...)) >= 0)`: the entries the body sees. -/
def enumerateLoop (d : Dict) : (fuel rank : ℕ) → List Keypair
  | 0, _ => []
  | fuel + 1, rank =>
    match dictEnumerateTyped d rank with
    | none => []
    | some (rank, kp) => kp :: enumerateLoop d fuel rank

/-- The entries a loop over the whole dictionary sees. -/
def dictEnumerateAll (d : Dict) : List Keypair := enumerateLoop d (d.size + 1) 0

/-- The value that `dict_enumerate` yields: `NULL` unless it is a string. -/
def enumerateValue : DictValue → Option CStr
  | .str s => s
  | _ => none

/-- What a scan from `rank` over `table` finds: the first live slot, and where the rest begins. -/
def ScanFinds (table : List Slot) (rank : ℕ) : Option (ℕ × Keypair) → Prop
  | none => liveEntries table = []
  | some (r, kp) => rank < r ∧ liveEntries table = kp :: liveEntries (table.drop (r - rank))

theorem ScanFinds.skip {table : List Slot} {rank : ℕ} {o : Option (ℕ × Keypair)} {s : Slot}
    (h : ScanFinds table (rank + 1) o) (hs : liveEntries (s :: table) = liveEntries table) :
    ScanFinds (s :: table) rank o := by
  cases o with
  | none => exact hs.trans h
  | some p =>
    obtain ⟨h1, h2⟩ := h
    refine ⟨by omega, ?_⟩
    rw [hs, h2, show p.1 - rank = (p.1 - (rank + 1)) + 1 by omega, List.drop_succ_cons]

theorem scanLive_finds : ∀ (table : List Slot) (rank : ℕ),
    ScanFinds table rank (scanLive table rank)
  | [], _ => rfl
  | .full kp :: table, rank => by simp [scanLive, ScanFinds, liveEntries]
  | .empty :: table, rank => (scanLive_finds table (rank + 1)).skip rfl
  | .deleted :: table, rank => (scanLive_finds table (rank + 1)).skip rfl

theorem enumerateLoop_eq (d : Dict) : ∀ fuel rank : ℕ, d.size < rank + fuel →
    enumerateLoop d fuel rank = liveEntries (d.table.drop rank)
  | 0, rank, h => by
    have hle : d.table.length ≤ rank := Nat.le_of_lt h
    rw [enumerateLoop, List.drop_eq_nil_of_le hle, liveEntries]
  | fuel + 1, rank, h => by
    have hs := scanLive_finds (d.table.drop rank) rank
    rw [enumerateLoop, dictEnumerateTyped]
    cases hc : scanLive (d.table.drop rank) rank with
    | none => rw [hc] at hs; exact hs.symm
    | some p =>
      obtain ⟨r, kp⟩ := p
      rw [hc] at hs
      obtain ⟨h1, h2⟩ := hs
      dsimp only
      rw [h2, enumerateLoop_eq d fuel r (by omega), List.drop_drop, Nat.add_sub_of_le h1.le]

/-- The loop yields the live slots, in the order of the table. -/
@[simp] theorem dictEnumerateAll_eq (d : Dict) : dictEnumerateAll d = d.entries := by
  rw [dictEnumerateAll, enumerateLoop_eq d _ _ (by omega), List.drop_zero, Dict.entries]

section Hash

variable (dictHash : CStr → UInt32)

/-! ## Merging and cloning -/

/-- `dict_new`: `NULL` if one of its allocations fails. -/
def dictNewCall (calloc : Bool) : Option Dict := if calloc then some dictNew else none

/-- The loop of `dict_merge`.  `mem n` are the allocations of the `n`-th `dict_copy_entry`. -/
def dictMergeLoop (mem : ℕ → StoreAlloc) : ℕ → Dict → List Keypair → Option (Bool × Dict)
  | _, dst, [] => some (true, dst)
  | n, dst, tmp :: rest => do
    let (rc, dst) ← dictStore dictHash (mem n) dst tmp.key tmp.value
    if rc = false then return (false, dst)
    dictMergeLoop mem (n + 1) dst rest

/-- `dict_merge`: copy every entry of `src` into `dst`. -/
def dictMerge (mem : ℕ → StoreAlloc) (dst src : Dict) : Option (Bool × Dict) :=
  dictMergeLoop dictHash mem 0 dst (dictEnumerateAll src)

/-- `dict_clone` -/
def dictClone (calloc : Bool) (mem : ℕ → StoreAlloc) (source : Dict) : Option (Option Dict) :=
  match dictNewCall calloc with
  | none => some none
  | some copy => do
    let (rc, copy) ← dictMerge dictHash mem copy source
    return if rc then some copy else none

/-- `dict_merge_new`, for two dictionaries that are there. -/
def dictMergeNew (calloc : Bool) (memA memB : ℕ → StoreAlloc) (a b : Dict) :
    Option (Option Dict) :=
  match dictNewCall calloc with
  | none => some none
  | some merged => do
    let (rc, merged) ← dictMerge dictHash memA merged a
    if rc = false then return none
    let (rc, merged) ← dictMerge dictHash memB merged b
    return if rc then some merged else none

/-! ## Differences -/

/-- `a == b` for two `float`s, from their bits: a NaN equals nothing, and the zeros are equal. -/
def floatEq (a b : UInt32) : Bool :=
  (a &&& 0x7fffffff ≤ 0x7f800000) && (b &&& 0x7fffffff ≤ 0x7f800000) &&
    (a == b || ((a ||| b) &&& 0x7fffffff == 0))

/-- `a == b` for two `double`s, from their bits. -/
def doubleEq (a b : UInt64) : Bool :=
  (a &&& 0x7fffffffffffffff ≤ 0x7ff0000000000000) &&
    (b &&& 0x7fffffffffffffff ≤ 0x7ff0000000000000) &&
    (a == b || ((a ||| b) &&& 0x7fffffffffffffff == 0))

/-- `dict_values_equal` -/
def dictValuesEqual : DictValue → DictValue → Bool
  | .null, .null => true
  | .str a, .str b => a == b
  | .int a, .int b => a == b
  | .uint a, .uint b => a == b
  | .long a, .long b => a == b
  | .ulong a, .ulong b => a == b
  | .llong a, .llong b => a == b
  | .ullong a, .ullong b => a == b
  | .float a, .float b => floatEq a b
  | .double a, .double b => doubleEq a b
  | .bool a, .bool b => a == b
  | .char a, .char b => a == b
  | .ptr a, .ptr b => a == b
  | _, _ => false

/-- A loop of `dict_diff`: store `value cur` for every entry `cur` that is not `same`. -/
def diffLoop (mem : ℕ → StoreAlloc) (same : Keypair → Option Bool) (value : Keypair → DictValue) :
    ℕ → Dict → List Keypair → Option (Option Dict)
  | _, diff, [] => some (some diff)
  | n, diff, cur :: rest => do
    if ← same cur then diffLoop mem same value (n + 1) diff rest
    else
      let (rc, diff) ← dictStore dictHash (mem n) diff cur.key (value cur)
      if rc = false then return none
      diffLoop mem same value (n + 1) diff rest

/-- The test of the first loop, over `b`: `a` has an entry of the key, and it is equal. -/
def sameIn (a : Dict) (cur : Keypair) : Option Bool := do
  let old ← dictGetKp dictHash a cur.key
  return old.any fun old ↦ dictValuesEqual old.value cur.value

/-- The test of the second loop, over `a`: `b` has an entry of the key. -/
def presentIn (b : Dict) (cur : Keypair) : Option Bool := do
  let found ← dictGetKp dictHash b cur.key
  return found.isSome

/-- `dict_diff` -/
def dictDiff (calloc : Bool) (memChanged memRemoved : ℕ → StoreAlloc) (a b : Dict) :
    Option (Option Dict) :=
  match dictNewCall calloc with
  | none => some none
  | some diff => do
    let diff ← diffLoop dictHash memChanged (sameIn dictHash a) Keypair.value 0 diff
      (dictEnumerateAll b)
    match diff with
    | none => some none
    -- a key that `b` lacks is stored with the deletion marker `VAL_NULL`
    | some diff =>
      diffLoop dictHash memRemoved (presentIn dictHash b) (fun _ ↦ .null) 0 diff
        (dictEnumerateAll a)

end Hash

/-- The value is not a floating-point number, so `==` on it is equality. -/
def DictValue.isExact : DictValue → Bool
  | .float _ => false
  | .double _ => false
  | _ => true

theorem dictValuesEqual_iff {a b : DictValue} (hb : b.isExact) :
    dictValuesEqual a b = true ↔ a = b := by
  cases a <;> cases b <;> simp_all [dictValuesEqual, DictValue.isExact]

variable {dictHash : CStr → UInt32}

/-! ## What they do to the map -/

theorem dictMergeLoop_spec {mem : ℕ → StoreAlloc} : ∀ {L : List Keypair} {n : ℕ} {dst dst' : Dict},
    Coherent dictHash dst → (L.map Keypair.key).Nodup →
    dictMergeLoop dictHash mem n dst L = some (true, dst') →
    Coherent dictHash dst' ∧ ∀ k, dst'.toMap k
      = ((L.find? (·.key == k)).map Keypair.value).or (dst.toMap k)
  | [], n, dst, dst', hd, _, h => by
    obtain rfl : dst = dst' := by simpa [dictMergeLoop] using h
    exact ⟨hd, fun k ↦ rfl⟩
  | kp :: L, n, dst, dst', hd, hnd, h => by
    rw [dictMergeLoop, Option.bind_eq_bind, Option.bind_eq_some_iff] at h
    obtain ⟨⟨rc, d⟩, hs, hrest⟩ := h
    cases rc with
    | false => simp at hrest
    | true =>
      obtain ⟨hco, hmap⟩ := (hd.dictStore_step hs).spec hd
      rw [List.map_cons, List.nodup_cons] at hnd
      obtain ⟨hco', hmap'⟩ := dictMergeLoop_spec hco hnd.2 (by simpa using hrest)
      refine ⟨hco', fun k ↦ ?_⟩
      rw [hmap', Dict.toMap, hmap, List.find?_cons]
      by_cases hk : k = kp.key
      · have hnone : L.find? (·.key == k) = none := by
          refine List.find?_eq_none.mpr fun a ha hak ↦ hnd.1 ?_
          rw [← hk, ← eq_of_beq hak]
          exact List.mem_map_of_mem ha
        simp [hk ▸ hnone, hk]
      · have : (kp.key == k) = false := by simpa using Ne.symm hk
        rw [if_neg hk, this]
        rfl

/-- **A clone represents the map of its source.** -/
theorem dictClone_spec {calloc : Bool} {mem : ℕ → StoreAlloc} {source copy : Dict}
    (hs : Coherent dictHash source) (h : dictClone dictHash calloc mem source = some (some copy)) :
    Coherent dictHash copy ∧ copy.toMap = source.toMap := by
  rw [dictClone, dictNewCall] at h
  cases calloc with
  | false => simp at h
  | true =>
    simp only [if_true, Option.bind_eq_bind, Option.bind_eq_some_iff] at h
    obtain ⟨⟨rc, d⟩, hm, hrc⟩ := h
    cases rc with
    | false => simp at hrc
    | true =>
      obtain rfl : d = copy := by simpa using hrc
      rw [dictMerge, dictEnumerateAll_eq] at hm
      obtain ⟨hco, hmap⟩ := dictMergeLoop_spec wellFormed_dictNew.toCoherent hs.nodup_entries hm
      refine ⟨hco, funext fun k ↦ ?_⟩
      have hnew : dictNew.toMap k = none := rfl
      rw [hmap, hnew, Option.or_none]
      rfl

theorem diffLoop_spec {mem : ℕ → StoreAlloc} {same : Keypair → Option Bool}
    {value : Keypair → DictValue} {P : Keypair → Prop}
    (hsame : ∀ {cur r}, same cur = some r → (r = true ↔ P cur)) :
    ∀ {L : List Keypair} {n : ℕ} {diff diff' : Dict}, Coherent dictHash diff →
      diffLoop dictHash mem same value n diff L = some (some diff') →
      Coherent dictHash diff' ∧ ∀ k, diff'.entryOf k = none ↔ diff.entryOf k = none ∧
        ∀ kp ∈ L, kp.key = k → P kp
  | [], n, diff, diff', hd, h => by
    obtain rfl : diff = diff' := by simpa [diffLoop] using h
    exact ⟨hd, by simp⟩
  | cur :: L, n, diff, diff', hd, h => by
    rw [diffLoop, Option.bind_eq_bind, Option.bind_eq_some_iff] at h
    obtain ⟨r, hr, hrest⟩ := h
    cases r with
    | true =>
      obtain ⟨hco, hmap⟩ := diffLoop_spec hsame hd (by simpa using hrest)
      refine ⟨hco, fun k ↦ (hmap k).trans (and_congr_right fun _ ↦ ?_)⟩
      rw [List.forall_mem_cons]
      exact (and_iff_right fun _ ↦ (hsame hr).mp rfl).symm
    | false =>
      simp only [Bool.false_eq_true, if_false, Option.bind_eq_bind, Option.bind_eq_some_iff]
        at hrest
      obtain ⟨⟨rc, d⟩, hs, hrest⟩ := hrest
      cases rc with
      | false => simp at hrest
      | true =>
        obtain ⟨hcod, hmapd⟩ := (hd.dictStore_step hs).spec hd
        obtain ⟨hco, hmap⟩ := diffLoop_spec hsame hcod (by simpa using hrest)
        refine ⟨hco, fun k ↦ (hmap k).trans ?_⟩
        rw [hmapd, List.forall_mem_cons]
        by_cases hk : k = cur.key
        · subst hk
          simp only [if_true, reduceCtorEq, false_and, false_iff]
          exact fun h ↦ absurd ((hsame hr).mpr (h.2.1 trivial)) (by simp)
        · rw [if_neg hk]
          exact and_congr_right fun _ ↦ (and_iff_right fun h ↦ absurd h.symm hk).symm

theorem Coherent.sameIn_iff {a : Dict} (ha : Coherent dictHash a) {cur : Keypair} {r : Bool}
    (h : sameIn dictHash a cur = some r) :
    r = true ↔ ∃ old, a.toMap cur.key = some old ∧ dictValuesEqual old cur.value = true := by
  rw [sameIn, Option.bind_eq_bind, Option.bind_eq_some_iff] at h
  obtain ⟨old, hold, hr⟩ := h
  obtain rfl := ha.dictGetKp_eq_some hold
  obtain rfl := Option.some_inj.mp hr
  rw [Dict.toMap]
  cases a.entryOf cur.key <;> simp

theorem Coherent.presentIn_iff {b : Dict} (hb : Coherent dictHash b) {cur : Keypair} {r : Bool}
    (h : presentIn dictHash b cur = some r) : r = true ↔ b.toMap cur.key ≠ none := by
  rw [presentIn, Option.bind_eq_bind, Option.bind_eq_some_iff] at h
  obtain ⟨found, hfound, hr⟩ := h
  obtain rfl := hb.dictGetKp_eq_some hfound
  obtain rfl := Option.some_inj.mp hr
  rw [Ne, Dict.toMap_eq_none, Option.isSome_iff_ne_none]

/-- On a coherent table an entry is what the map has at its key. -/
theorem Coherent.mem_entries_iff {d : Dict} (hd : Coherent dictHash d) {k : CStr} {kp : Keypair} :
    (kp ∈ d.entries ∧ kp.key = k) ↔ d.entryOf k = some kp := by
  rw [Dict.mem_entries]
  exact ⟨fun ⟨⟨i, hi⟩, hk⟩ ↦ hk ▸ hd.entryOf_of_slot hi,
    fun h ↦ ⟨Dict.entryOf_mem h, Dict.entryOf_key h⟩⟩

/-- **The difference has an entry for exactly the keys at which the two maps differ**: those whose
presence, type or value is not the same. -/
theorem dictDiff_spec {calloc : Bool} {memC memR : ℕ → StoreAlloc} {a b diff : Dict}
    (ha : Coherent dictHash a) (hb : Coherent dictHash b)
    (hexact : ∀ kp ∈ b.entries, kp.value.isExact)
    (h : dictDiff dictHash calloc memC memR a b = some (some diff)) :
    Coherent dictHash diff ∧ ∀ k, diff.entryOf k ≠ none ↔ a.toMap k ≠ b.toMap k := by
  rw [dictDiff, dictNewCall] at h
  cases calloc with
  | false => simp at h
  | true =>
    simp only [if_true, Option.bind_eq_bind, Option.bind_eq_some_iff, dictEnumerateAll_eq] at h
    obtain ⟨d, hchanged, hremoved⟩ := h
    cases d with
    | none => simp at hremoved
    | some d =>
      obtain ⟨hcod, hmapd⟩ := diffLoop_spec ha.sameIn_iff wellFormed_dictNew.toCoherent hchanged
      obtain ⟨hco, hmap⟩ := diffLoop_spec hb.presentIn_iff hcod hremoved
      refine ⟨hco, fun k ↦ not_congr ?_⟩
      have hnew : dictNew.entryOf k = none := rfl
      rw [hmap, hmapd, and_iff_right hnew]
      constructor
      · rintro ⟨hsame, hpresent⟩
        cases hbk : b.entryOf k with
        | some kp =>
          obtain ⟨hmem, rfl⟩ := hb.mem_entries_iff.mpr hbk
          obtain ⟨old, hold, heq⟩ := hsame kp hmem rfl
          rw [hold, (dictValuesEqual_iff (hexact kp hmem)).mp heq, Dict.toMap, hbk]
          rfl
        | none =>
          rw [Dict.toMap_eq_none.mpr hbk, Dict.toMap_eq_none]
          by_contra hne
          obtain ⟨kp, hkp⟩ := Option.ne_none_iff_exists'.mp hne
          obtain ⟨hmem, rfl⟩ := ha.mem_entries_iff.mpr hkp
          exact hpresent kp hmem rfl (Dict.toMap_eq_none.mpr hbk)
      · intro heq
        refine ⟨fun kp hmem hkey ↦ ?_, fun kp hmem hkey ↦ ?_⟩
        · refine ⟨kp.value, ?_, (dictValuesEqual_iff (hexact kp hmem)).mpr rfl⟩
          rw [hkey, heq, Dict.toMap, hb.mem_entries_iff.mp ⟨hmem, hkey⟩]
          rfl
        · rw [hkey, ← heq, Ne, Dict.toMap_eq_none, ha.mem_entries_iff.mp ⟨hmem, hkey⟩]
          simp

end Rustyaxe
