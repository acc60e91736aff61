import Rustyaxe.Dict.Merge

/-!
# Storing under allocation failure

`dict_store` makes up to three allocations and `dict_resize` has a way back: when a `dict_add_p`
fails in the middle of the rehash, the old table is put back and both counters are counted again.
`Rustyaxe.Dict.Table` leaves that way back out.  Here it is written down, with every status the
source tests (`dictResizeChecked`, `dictStoreChecked`), and shown to be what it should be.

* `dictRollback_eq`: counting again gives back a table whose counters were exact, and makes exact
  those of one whose counters were not.
* `dictStoreChecked_eq`: with the statuses tested, `dict_store` computes what `dictStore` computes.
* `dictStoreChecked_atomic`: **whatever its allocations do, a store happens or does not happen.**

The last part says which memory a store asks for (`StoreAlloc.Suffices`), and with it when a merge,
a clone or a difference is not made.
-/

set_option autoImplicit false

namespace Rustyaxe

section Source

variable (dictHash : CStr → UInt32)

/-- `dict_add_p`, with the test it begins with.  The status is `false` for `-1`. -/
def dictAddPChecked (d : Dict) : (src : Slot) → Option (Bool × Dict)
  | .full src => do
    let d ← dictAddP dictHash d src
    some (true, d)
  | _ => some (false, d)

/-- The rehash loop of `dict_resize`, which stops at the first entry that cannot be added. -/
def dictRehashChecked (d : Dict) : (oldtable : List Slot) → Option (Bool × Dict)
  | [] => some (true, d)
  | slot :: oldtable =>
    if isLive slot then do
      let (rc, d) ← dictAddPChecked dictHash d slot
      if rc = false then return (false, d)
      dictRehashChecked d oldtable
    else dictRehashChecked d oldtable

/-- The loop that counts `fill` and `used` again. -/
def recount : (oldtable : List Slot) → (fill used : ℕ) → ℕ × ℕ
  | [], fill, used => (fill, used)
  | slot :: oldtable, fill, used =>
    if isNonNull slot then
      recount oldtable (fill + 1) (if isLive slot then used + 1 else used)
    else recount oldtable fill used

/-- The way back of `dict_resize`: the old table, with its counters counted again. -/
def dictRollback (oldtable : List Slot) : Dict :=
  let (fill, used) := recount oldtable 0 0
  ⟨fill, used, oldtable⟩

/-- `dict_resize`, with the way back. -/
def dictResizeChecked (calloc : Bool) (d : Dict) : Option (Bool × Dict) :=
  let newsize := growSize (resizeBound d) (resizeBound d + 1) d.size
  if newsize = d.size then some (true, d)
  else if calloc = false then some (false, d)
  else do
    let (rc, nd) ← dictRehashChecked dictHash (emptyTable newsize) d.table
    if rc = false then return (false, dictRollback d.table)
    return (true, nd)

/-- `dict_store`, over the `dict_resize` with the way back. -/
def dictStoreChecked (mem : StoreAlloc) (d : Dict) (key : CStr) (val : DictValue) :
    Option (Bool × Dict) := do
  let hash := dictHash key
  let i ← dictLookup d key hash
  if mem.newkey = false then return (false, d)
  if val.hasString ∧ mem.newstr = false then return (false, d)
  if d.isFree i ∧ 3 * (d.fill + 1) ≥ d.size * 2 then
    let (rc, d) ← dictResizeChecked dictHash mem.newtable d
    if rc = false then return (false, d)
    -- the resize may have moved the slot
    let i ← dictLookup d key hash
    return (true, dictStoreAt d i key val hash)
  return (true, dictStoreAt d i key val hash)

end Source

variable {dictHash : CStr → UInt32}

/-! ## The way back -/

theorem recount_eq : ∀ (oldtable : List Slot) (fill used : ℕ),
    recount oldtable fill used
      = (fill + oldtable.countP isNonNull, used + oldtable.countP isLive)
  | [], fill, used => by simp [recount]
  | slot :: oldtable, fill, used => by
    rw [recount]
    cases slot with
    | empty => simp [isNonNull, isLive, recount_eq oldtable]
    | deleted =>
      simp only [isNonNull, isLive, if_true, Bool.false_eq_true, if_false, recount_eq oldtable,
        List.countP_cons]
      rw [Nat.add_right_comm]
      rfl
    | full kp =>
      simp only [isNonNull, isLive, if_true, recount_eq oldtable, List.countP_cons]
      rw [Nat.add_right_comm fill, Nat.add_right_comm used]
      rfl

/-- **Going back** restores the table, and counts what is in it. -/
theorem dictRollback_eq (d : Dict) :
    dictRollback d.table = { d with fill := d.nonNullCount, used := d.liveCount } := by
  rw [dictRollback, recount_eq, Nat.zero_add, Nat.zero_add]
  rfl

/-- On a table whose counters are exact, going back changes nothing at all. -/
theorem Exact.dictRollback_eq {d : Dict} (hd : Exact dictHash d) : dictRollback d.table = d := by
  rw [Rustyaxe.dictRollback_eq, ← hd.fillEq, ← hd.used]

/-! ## The statuses of the rehash -/

/-- The loop only hands live slots to `dict_add_p`, which then succeeds. -/
theorem dictRehashChecked_eq : ∀ (oldtable : List Slot) (d : Dict),
    dictRehashChecked dictHash d oldtable = (dictRehash dictHash d oldtable).map (true, ·)
  | [], d => rfl
  | .empty :: oldtable, d => by
    rw [dictRehashChecked, if_neg (by simp [isLive]), dictRehashChecked_eq oldtable d]
    rfl
  | .deleted :: oldtable, d => by
    rw [dictRehashChecked, if_neg (by simp [isLive]), dictRehashChecked_eq oldtable d]
    rfl
  | .full src :: oldtable, d => by
    have hlive : isLive (.full src) = true := rfl
    have hcons : dictRehash dictHash d (.full src :: oldtable)
        = (dictAddP dictHash d src).bind (dictRehash dictHash · oldtable) := List.foldlM_cons
    rw [dictRehashChecked, if_pos hlive, dictAddPChecked, hcons]
    cases dictAddP dictHash d src with
    | none => rfl
    | some d' => exact dictRehashChecked_eq oldtable d'

/-- **The way back is never taken.** -/
theorem dictResizeChecked_eq (calloc : Bool) (d : Dict) :
    dictResizeChecked dictHash calloc d = dictResize dictHash calloc d := by
  rw [dictResizeChecked, dictResize, dictRehashChecked_eq]
  split
  · rfl
  · split
    · rfl
    · cases dictRehash dictHash
        (emptyTable (growSize (resizeBound d) (resizeBound d + 1) d.size)) d.table <;> rfl

theorem dictStoreChecked_eq (mem : StoreAlloc) (d : Dict) (key : CStr) (val : DictValue) :
    dictStoreChecked dictHash mem d key val = dictStore dictHash mem d key val := by
  simp only [dictStoreChecked, dictStore, dictResizeChecked_eq]

/-! ## Atomicity -/

/-- A store that fails leaves the dictionary as it was, counters included. -/
theorem StoreStep.eq_of_failed {d d' : Dict} {key : CStr} {val : DictValue}
    (h : StoreStep dictHash d key val false d') : d' = d := by
  cases h
  rfl

/-- With a `NULL` slot to stop at, `dict_store` returns, and what it returned is one of its
steps. -/
theorem Coherent.dictStoreChecked_step {d : Dict} (hd : Coherent dictHash d) (hnull : d.HasNull)
    (mem : StoreAlloc) (key : CStr) (val : DictValue) :
    ∃ rc d', dictStoreChecked dictHash mem d key val = some (rc, d') ∧
      StoreStep dictHash d key val rc d' := by
  obtain ⟨i, hi⟩ := hd.dictLookup_isSome key (.inl hnull)
  rcases hd.dictStore_eq mem key val with ⟨hnone, -⟩ | ⟨rc, d', hstore, hstep, -⟩
  · rw [hi] at hnone
    simp at hnone
  · exact ⟨rc, d', by rw [dictStoreChecked_eq, hstore], hstep⟩

/-- **A store is atomic.**  For every outcome of the key copy, the string copy and the growth of
the table: if `dict_store` succeeds, the map is the old one with the key set; if it fails, the map
is the old one, and the table is well formed, so that `used` counts its live slots and `fill` those
that are not `NULL`. -/
theorem dictStoreChecked_atomic {d : Dict} (hd : WellFormed dictHash d) (mem : StoreAlloc)
    (key : CStr) (val : DictValue) :
    ∃ rc d', dictStoreChecked dictHash mem d key val = some (rc, d') ∧
      (rc = true → d'.toMap = Function.update d.toMap key (some val)) ∧
      (rc = false → d'.toMap = d.toMap ∧ WellFormed dictHash d' ∧
        d'.used = d'.liveCount ∧ d'.fill = d'.nonNullCount) := by
  obtain ⟨rc, d', hstore, hstep⟩ := hd.dictStoreChecked_step hd.null mem key val
  refine ⟨rc, d', hstore, ?_, ?_⟩
  · rintro rfl
    exact toMap_update (hstep.spec hd.toCoherent).2
  · rintro rfl
    obtain rfl := hstep.eq_of_failed
    exact ⟨rfl, hd, hd.used, hd.fillEq⟩

/-- A string whose copy cannot be allocated, under a key that is there and under one whose slot is
taken. -/
theorem dictStoreChecked_atomic_probedTable :
    (∃ d', dictStoreChecked dictHashMurmur ⟨true, false, true⟩ probedTable [100] (.str (some [98]))
        = some (false, d') ∧ d'.toMap = probedTable.toMap ∧ WellFormed dictHashMurmur d' ∧
        d'.used = d'.liveCount ∧ d'.fill = d'.nonNullCount) ∧
      ∃ d', dictStoreChecked dictHashMurmur ⟨true, false, true⟩ probedTable [106] (.str (some [98]))
        = some (false, d') ∧ d'.toMap = probedTable.toMap ∧ WellFormed dictHashMurmur d' ∧
        d'.used = d'.liveCount ∧ d'.fill = d'.nonNullCount := by
  obtain ⟨rc, d', hstore, -, hfailed⟩ := dictStoreChecked_atomic wellFormed_probedTable
    ⟨true, false, true⟩ [100] (.str (some [98]))
  obtain ⟨rc', d'', hstore', -, hfailed'⟩ := dictStoreChecked_atomic wellFormed_probedTable
    ⟨true, false, true⟩ [106] (.str (some [98]))
  obtain rfl : rc = false := by
    have hrc : (dictStoreChecked dictHashMurmur ⟨true, false, true⟩ probedTable [100]
        (.str (some [98]))).map Prod.fst = some false := by decide
    simpa [hstore] using hrc
  obtain rfl : rc' = false := by
    have hrc : (dictStoreChecked dictHashMurmur ⟨true, false, true⟩ probedTable [106]
        (.str (some [98]))).map Prod.fst = some false := by decide
    simpa [hstore'] using hrc
  exact ⟨⟨d', hstore, hfailed rfl⟩, d'', hstore', hfailed' rfl⟩

/-! ## The memory that is asked for -/

/-- The table is grown before the key is stored. -/
def Grows (d : Dict) (key : CStr) : Prop :=
  d.entryOf key = none ∧ d.size * 2 ≤ 3 * (d.fill + 1) ∧ d.size ≤ resizeBound d

/-- The memory that the store of this key and value asks for is there. -/
def StoreAlloc.Suffices (mem : StoreAlloc) (d : Dict) (key : CStr) (val : DictValue) : Prop :=
  mem.newkey = true ∧ (val.hasString = true → mem.newstr = true) ∧
    (Grows d key → mem.newtable = true)

/-- **A store that returns succeeds** exactly if it gets its memory. -/
theorem Coherent.dictStore_rc_iff {d d' : Dict} (hd : Coherent dictHash d) {mem : StoreAlloc}
    {key : CStr} {val : DictValue} {rc : Bool}
    (h : dictStore dictHash mem d key val = some (rc, d')) :
    rc = true ↔ mem.Suffices d key val := by
  rw [dictStore, Option.bind_eq_bind, Option.bind_eq_some_iff] at h
  obtain ⟨i, hi, h⟩ := h
  rw [StoreAlloc.Suffices]
  by_cases hkey : mem.newkey = false
  · rw [if_pos hkey] at h
    obtain ⟨rfl, -⟩ : false = rc ∧ d = d' := by simpa using h
    simp [hkey]
  rw [if_neg hkey, Bool.not_eq_false] at *
  by_cases hstr : val.hasString = true ∧ mem.newstr = false
  · rw [if_pos hstr] at h
    obtain ⟨rfl, -⟩ : false = rc ∧ d = d' := by simpa using h
    simp [hstr]
  rw [if_neg hstr] at h
  have hstr' : val.hasString = true → mem.newstr = true := fun hval ↦ by
    simpa [hval] using hstr
  rw [and_iff_right hkey, and_iff_right hstr']
  rcases hd.dictLookup_cases hi with ⟨kp, hkp, hkk⟩ | ⟨hfree, hnone, -⟩
  · -- the value of a live key is replaced
    have hlive : d.entryOf key ≠ none := by
      rw [← hkk, hd.entryOf_of_slot hkp]
      simp
    obtain ⟨rfl, -⟩ : true = rc ∧ _ = d' := by simpa [Dict.isFree, hkp] using h
    exact iff_of_true rfl fun hgrows ↦ absurd hgrows.1 hlive
  · rw [isFree_iff.mpr hfree] at h
    by_cases hfill : 3 * (d.fill + 1) ≥ d.size * 2
    · rw [if_pos ⟨rfl, hfill⟩] at h
      rcases hd.dictResize_eq mem.newtable with ⟨hlt, hr⟩ | ⟨hge, hcalloc, hr⟩ |
        ⟨-, hcalloc, nd, hr, -⟩
      · rw [hr] at h
        obtain ⟨rfl, -⟩ : true = rc ∧ _ = d' := by simpa [hi] using h
        exact iff_of_true rfl fun hgrows ↦ absurd hgrows.2.2 (by omega)
      · rw [hr] at h
        obtain ⟨rfl, -⟩ : false = rc ∧ d = d' := by simpa using h
        refine iff_of_false (by simp) fun hgrows ↦ ?_
        rw [hgrows ⟨hnone, hfill, hge⟩] at hcalloc
        cases hcalloc
      · rw [hr] at h
        obtain ⟨j, -, hj⟩ := Option.bind_eq_some_iff.mp (by simpa using h)
        obtain ⟨rfl, -⟩ : true = rc ∧ _ = d' := by simpa using hj
        exact iff_of_true rfl fun _ ↦ hcalloc
    · rw [if_neg (by simp [hfill])] at h
      obtain ⟨rfl, -⟩ : true = rc ∧ _ = d' := by simpa using h
      exact iff_of_true rfl fun hgrows ↦ absurd hgrows.2.1 hfill

theorem Coherent.of_dictStore {d d' : Dict} (hd : Coherent dictHash d) {mem : StoreAlloc}
    {key : CStr} {val : DictValue} {rc : Bool}
    (h : dictStore dictHash mem d key val = some (rc, d')) : Coherent dictHash d' := by
  have hstep := hd.dictStore_step h
  cases rc with
  | true => exact (hstep.spec hd).1
  | false => exact hstep.eq_of_failed ▸ hd

section Memory

variable (dictHash)

/-- The memory that storing the entries one after the other asks for is there. -/
def MergeSuffices (mem : ℕ → StoreAlloc) : ℕ → Dict → List Keypair → Prop
  | _, _, [] => True
  | n, dst, kp :: rest => (mem n).Suffices dst kp.key kp.value ∧
      ∀ dst', dictStore dictHash (mem n) dst kp.key kp.value = some (true, dst') →
        MergeSuffices mem (n + 1) dst' rest

/-- The memory that a pass of `dict_diff` asks for is there. -/
def DiffSuffices (mem : ℕ → StoreAlloc) (same : Keypair → Option Bool)
    (value : Keypair → DictValue) : ℕ → Dict → List Keypair → Prop
  | _, _, [] => True
  | n, diff, cur :: rest =>
    (same cur = some true → DiffSuffices mem same value (n + 1) diff rest) ∧
    (same cur = some false → (mem n).Suffices diff cur.key (value cur) ∧
      ∀ diff', dictStore dictHash (mem n) diff cur.key (value cur) = some (true, diff') →
        DiffSuffices mem same value (n + 1) diff' rest)

end Memory

theorem dictMergeLoop_rc_iff {mem : ℕ → StoreAlloc} : ∀ {L : List Keypair} {n : ℕ}
    {dst dst' : Dict} {rc : Bool}, Coherent dictHash dst →
    dictMergeLoop dictHash mem n dst L = some (rc, dst') →
    Coherent dictHash dst' ∧ (rc = true ↔ MergeSuffices dictHash mem n dst L) := by
  intro L
  induction L with
  | nil =>
    intro n dst dst' rc hd h
    obtain ⟨rfl, rfl⟩ : true = rc ∧ dst = dst' := by simpa [dictMergeLoop] using h
    exact ⟨hd, iff_of_true rfl trivial⟩
  | cons kp L ih =>
    intro n dst dst' rc hd h
    rw [dictMergeLoop, Option.bind_eq_bind, Option.bind_eq_some_iff] at h
    obtain ⟨⟨rc', d⟩, hs, hrest⟩ := h
    have hrc := hd.dictStore_rc_iff hs
    rw [MergeSuffices, ← hrc, hs]
    cases rc' with
    | false =>
      obtain ⟨rfl, rfl⟩ : false = rc ∧ d = dst' := by simpa using hrest
      exact ⟨hd.of_dictStore hs, by simp⟩
    | true =>
      obtain ⟨hco, hiff⟩ := ih (hd.of_dictStore hs) (by simpa using hrest)
      exact ⟨hco, by simp [hiff]⟩

theorem diffLoop_isSome_iff {mem : ℕ → StoreAlloc} {same : Keypair → Option Bool}
    {value : Keypair → DictValue} : ∀ {L : List Keypair} {n : ℕ} {diff : Dict} {r : Option Dict},
    Coherent dictHash diff → diffLoop dictHash mem same value n diff L = some r →
    (∀ d ∈ r, Coherent dictHash d) ∧
      (r.isSome = true ↔ DiffSuffices dictHash mem same value n diff L) := by
  intro L
  induction L with
  | nil =>
    intro n diff r hd h
    obtain rfl : some diff = r := by simpa [diffLoop] using h
    exact ⟨fun d hd' ↦ Option.some.inj hd' ▸ hd, iff_of_true rfl trivial⟩
  | cons cur L ih =>
    intro n diff r hd h
    rw [diffLoop, Option.bind_eq_bind, Option.bind_eq_some_iff] at h
    obtain ⟨b, hb, hrest⟩ := h
    rw [DiffSuffices, hb]
    cases b with
    | true =>
      obtain ⟨hco, hiff⟩ := ih hd (by simpa using hrest)
      exact ⟨hco, by simp [hiff]⟩
    | false =>
      simp only [Bool.false_eq_true, if_false, Option.bind_eq_bind, Option.bind_eq_some_iff]
        at hrest
      obtain ⟨⟨rc, d⟩, hs, hrest⟩ := hrest
      have hrc := hd.dictStore_rc_iff hs
      rw [← hrc, hs]
      cases rc with
      | false =>
        obtain rfl : none = r := by simpa using hrest
        exact ⟨by simp, by simp⟩
      | true =>
        obtain ⟨hco, hiff⟩ := ih (hd.of_dictStore hs) (by simpa using hrest)
        exact ⟨hco, by simp [hiff]⟩

/-- The memory that `dict_clone` asks for is there. -/
def CloneSuffices (dictHash : CStr → UInt32) (calloc : Bool) (mem : ℕ → StoreAlloc)
    (source : Dict) : Prop :=
  calloc = true ∧ MergeSuffices dictHash mem 0 dictNew source.entries

/-- The memory that the two passes of `dict_diff` ask for is there. -/
def DictDiffSuffices (dictHash : CStr → UInt32) (calloc : Bool)
    (memChanged memRemoved : ℕ → StoreAlloc) (a b : Dict) : Prop :=
  calloc = true ∧
    DiffSuffices dictHash memChanged (sameIn dictHash a) Keypair.value 0 dictNew b.entries ∧
    ∀ diff, diffLoop dictHash memChanged (sameIn dictHash a) Keypair.value 0 dictNew b.entries
        = some (some diff) →
      DiffSuffices dictHash memRemoved (presentIn dictHash b) (fun _ ↦ .null) 0 diff a.entries

/-- **A clone is made** exactly if it gets its memory. -/
theorem dictClone_isSome_iff {calloc : Bool} {mem : ℕ → StoreAlloc} {source : Dict}
    {copy : Option Dict} (h : dictClone dictHash calloc mem source = some copy) :
    copy.isSome = true ↔ CloneSuffices dictHash calloc mem source := by
  rw [dictClone, dictNewCall] at h
  rw [CloneSuffices]
  cases calloc with
  | false =>
    obtain rfl : none = copy := by simpa using h
    simp
  | true =>
    simp only [if_true, Option.bind_eq_bind, Option.bind_eq_some_iff, dictMerge,
      dictEnumerateAll_eq] at h
    obtain ⟨⟨rc, d⟩, hmerge, hcopy⟩ := h
    rw [← (dictMergeLoop_rc_iff wellFormed_dictNew.toCoherent hmerge).2]
    obtain rfl := Option.some.inj hcopy
    cases rc <;> simp

/-- **A difference is made** exactly if it gets its memory. -/
theorem dictDiff_isSome_iff {calloc : Bool} {memC memR : ℕ → StoreAlloc} {a b : Dict}
    {diff : Option Dict} (h : dictDiff dictHash calloc memC memR a b = some diff) :
    diff.isSome = true ↔ DictDiffSuffices dictHash calloc memC memR a b := by
  rw [dictDiff, dictNewCall] at h
  rw [DictDiffSuffices]
  cases calloc with
  | false =>
    obtain rfl : none = diff := by simpa using h
    simp
  | true =>
    simp only [if_true, Option.bind_eq_bind, Option.bind_eq_some_iff, dictEnumerateAll_eq] at h
    obtain ⟨changed, hchanged, h⟩ := h
    obtain ⟨hco, hiff⟩ := diffLoop_isSome_iff wellFormed_dictNew.toCoherent hchanged
    rw [← hiff, hchanged]
    cases changed with
    | none =>
      obtain rfl : none = diff := by simpa using h
      simp
    | some changed =>
      obtain ⟨-, hiff'⟩ := diffLoop_isSome_iff (hco changed rfl) h
      simp [hiff']

end Rustyaxe
