import Rustyaxe.Dict.Merge

/-!
# Tables that are only added to

The decoders build a table from `dict_new` and only ever store in it.  Such a table has no deleted
slots (`Built`), so no store takes the last `NULL` slot of a table that is not grown: every lookup
returns, and every store succeeds if its allocations do.  So does merging into one.

As long as the keys that are stored are new, as they are in `json2dict` and in the enumeration
round trips, the counters are exact as well (`AddOnly`).
-/

set_option autoImplicit false

namespace Rustyaxe

/-- The invariant of a table nothing has been deleted from. -/
structure Built (dictHash : CStr → UInt32) (d : Dict) : Prop extends Coherent dictHash d where
  null : d.HasNull
  clean : ∀ i, d.slot i ≠ .deleted
  /-- There is more than one slot. -/
  size : 2 ≤ d.size

/-- The invariant of a table nothing has been deleted from and no value replaced in. -/
structure AddOnly (dictHash : CStr → UInt32) (d : Dict) : Prop extends WellFormed dictHash d where
  clean : ∀ i, d.slot i ≠ .deleted
  /-- There is more than one slot. -/
  size : 2 ≤ d.size

variable {dictHash : CStr → UInt32}

theorem addOnly_dictNew : AddOnly dictHash dictNew :=
  ⟨wellFormed_dictNew, fun i ↦ by simp [dictNew, slot_emptyTable], by decide⟩

theorem AddOnly.built {d : Dict} (hd : AddOnly dictHash d) : Built dictHash d :=
  ⟨hd.toCoherent, hd.null, hd.clean, hd.size⟩

theorem built_dictNew : Built dictHash dictNew := addOnly_dictNew.built

theorem clean_dictStoreAt {d : Dict} (hclean : ∀ i, d.slot i ≠ .deleted) (i : ℕ) (key : CStr)
    (val : DictValue) (hash : UInt32) (j : ℕ) :
    (dictStoreAt d i key val hash).slot j ≠ .deleted := by
  by_cases hi : i < d.size
  · rw [d.slot_set (dictStoreAt_table d i key val hash) hi]
    split
    · simp
    · exact hclean j
  · rw [Dict.slot, dictStoreAt_table, List.set_eq_of_length_le (by simpa [Dict.size] using hi)]
    exact hclean j

namespace Built

variable {d : Dict} (hd : Built dictHash d)
include hd

/-- In such a table a new key never takes the last `NULL` slot. -/
theorem hasNull_step {d' : Dict} {key : CStr} {val : DictValue} {rc : Bool}
    (h : StoreStep dictHash d key val rc d') : d'.HasNull := by
  have hnull := Dict.hasNull_iff.mp hd.null
  have hused := hd.used
  have hlive := Dict.nonNullCount_of_clean hd.clean
  have hfill := hd.fill
  have hsize := hd.size
  obtain ⟨k, hpow⟩ := hd.pow
  rw [Dict.hasNull_iff]
  cases h with
  | failed => exact hnull
  | @replaced i kp hi hk =>
    have hcount := (dictStoreAt_fill (d.lt_size_of_full hi) hfill key val (dictHash key)).2
    rw [hi] at hcount
    simp only [isNonNull, Bool.toNat_true] at hcount
    rw [dictStoreAt_size]
    omega
  | @inserted i hlookup hfree hnone hroom =>
    have hcount := (dictStoreAt_fill (dictLookup_lt hpow hlookup) hfill key val (dictHash key)).2
    have hfactor := two_mul_used_le_resizeBound d
    rw [dictStoreAt_size]
    omega
  | @grown nd i hnone hfull hnd hsize' hlookup hempty =>
    obtain ⟨k', hpow'⟩ := hnd.coherent.pow
    have hcount := (dictStoreAt_fill (dictLookup_lt hpow' hlookup) hnd.coherent.fill key val
      (dictHash key)).2
    have hclean := Dict.nonNullCount_of_clean hnd.clean
    have hused' := hnd.coherent.used
    have hcopied := hnd.count
    rw [Dict.length_entries] at hcopied
    have hpos : d.used ≠ 0 := by
      intro hzero
      have hgrown := hfull.2
      rw [resizeBound, hzero, Nat.mul_zero] at hgrown
      omega
    rw [dictStoreAt_size]
    omega

theorem step {d' : Dict} {key : CStr} {val : DictValue} {rc : Bool}
    (h : StoreStep dictHash d key val rc d') : Built dictHash d' := by
  have hnull := hd.hasNull_step h
  cases h with
  | failed => exact hd
  | replaced hi hk =>
    exact ⟨(hd.storeAt_live val hi hk).1, hnull, clean_dictStoreAt hd.clean _ _ _ _,
      by rw [dictStoreAt_size]; exact hd.size⟩
  | inserted hlookup hfree hnone hroom =>
    exact ⟨(StoreStep.inserted hlookup hfree hnone hroom).spec hd.toCoherent |>.1, hnull,
      clean_dictStoreAt hd.clean _ _ _ _, by rw [dictStoreAt_size]; exact hd.size⟩
  | @grown nd i hnone hfull hnd hsize hlookup hempty =>
    refine ⟨(StoreStep.grown hnone hfull hnd hsize hlookup hempty).spec hd.toCoherent |>.1, hnull,
      clean_dictStoreAt hnd.clean _ _ _ _, ?_⟩
    have hu : nd.used = d.used := by
      rw [hnd.coherent.used, hnd.count, Dict.length_entries, hd.used]
    have hpos : d.used ≠ 0 := by
      intro h0
      have := hfull.2
      have := hd.size
      rw [resizeBound, h0, Nat.mul_zero] at *
      omega
    rw [dictStoreAt_size]
    omega

/-- **Every store returns and keeps the invariant.**  It either fails and changes nothing, or
updates the map at its key, as it does if its allocations succeed. -/
theorem dictStore_spec (mem : StoreAlloc) (key : CStr) (val : DictValue) :
    ∃ rc d', dictStore dictHash mem d key val = some (rc, d') ∧ Built dictHash d' ∧
      d'.toMap = (if rc then Function.update d.toMap key (some val) else d.toMap) ∧
      (mem = .ok → rc = true) := by
  obtain ⟨i, hi⟩ := hd.dictLookup_isSome key (.inl hd.null)
  rcases hd.dictStore_eq mem key val with ⟨hnone, -⟩ | ⟨rc, d', hsome, hstep, hrc⟩
  · rw [hi] at hnone
    simp at hnone
  · refine ⟨rc, d', hsome, hd.step hstep, ?_, hrc⟩
    cases rc with
    | false =>
      cases hstep
      rfl
    | true => exact toMap_update (hstep.spec hd.toCoherent).2

end Built

/-- Copying entries into such a table always returns, and succeeds if its allocations do. -/
theorem dictMergeLoop_returns {mem : ℕ → StoreAlloc} : ∀ (L : List Keypair) (n : ℕ) {dst : Dict},
    Built dictHash dst → ∃ rc dst', dictMergeLoop dictHash mem n dst L = some (rc, dst') ∧
      Built dictHash dst' ∧ ((∀ n, mem n = .ok) → rc = true)
  | [], _, dst, hdst => ⟨true, dst, rfl, hdst, fun _ ↦ rfl⟩
  | kp :: L, n, dst, hdst => by
    obtain ⟨rc, d, hstore, hd, -, hrc⟩ := hdst.dictStore_spec (mem n) kp.key kp.value
    cases rc with
    | false =>
      refine ⟨false, d, by rw [dictMergeLoop, hstore]; rfl, hd, fun hmem ↦ ?_⟩
      exact hrc (hmem n)
    | true =>
      obtain ⟨rc', dst', hloop, hdst', hok⟩ := dictMergeLoop_returns L (n + 1) hd
      exact ⟨rc', dst', by rw [dictMergeLoop, hstore]; exact hloop, hdst', hok⟩

/-- **Merging** puts one map over the other, or fails. -/
theorem Built.dictMerge_spec {dst src : Dict} (hdst : Built dictHash dst)
    (hsrc : Coherent dictHash src) (mem : ℕ → StoreAlloc) :
    ∃ rc d, dictMerge dictHash mem dst src = some (rc, d) ∧ Built dictHash d ∧
      (rc = true → ∀ k, d.toMap k = (src.toMap k).or (dst.toMap k)) ∧
      ((∀ n, mem n = .ok) → rc = true) := by
  obtain ⟨rc, d, hloop, hd, hok⟩ :=
    @dictMergeLoop_returns dictHash mem (dictEnumerateAll src) 0 dst hdst
  refine ⟨rc, d, hloop, hd, ?_, hok⟩
  rintro rfl k
  rw [dictEnumerateAll_eq] at hloop
  exact (dictMergeLoop_spec hdst.toCoherent hsrc.nodup_entries hloop).2 k

/-- **`dict_merge_new`** returns the two maps, the second over the first, or `NULL`. -/
theorem dictMergeNew_spec {a b : Dict} (ha : Coherent dictHash a) (hb : Coherent dictHash b)
    (calloc : Bool) (memA memB : ℕ → StoreAlloc) :
    ∃ r, dictMergeNew dictHash calloc memA memB a b = some r ∧
      (∀ m ∈ r, Built dictHash m ∧ ∀ k, m.toMap k = (b.toMap k).or (a.toMap k)) ∧
      (calloc = true → (∀ n, memA n = .ok) → (∀ n, memB n = .ok) → r.isSome) := by
  rw [dictMergeNew, dictNewCall]
  cases calloc with
  | false => exact ⟨none, rfl, fun m hm ↦ by simp at hm, fun h ↦ by simp at h⟩
  | true =>
    obtain ⟨rc, m, hm, hbuilt, hmap, hok⟩ := built_dictNew.dictMerge_spec ha memA
    simp only [if_true, hm, Option.bind_eq_bind, Option.bind_some]
    cases rc with
    | false => exact ⟨none, rfl, fun m hm ↦ by simp at hm, fun _ h ↦ by simpa using hok h⟩
    | true =>
      obtain ⟨rc', m', hm', hbuilt', hmap', hok'⟩ := hbuilt.dictMerge_spec hb memB
      rw [hm']
      cases rc' with
      | false => exact ⟨none, rfl, fun m hm ↦ by simp at hm, fun _ _ h ↦ by simpa using hok' h⟩
      | true =>
        refine ⟨some m', rfl, fun m'' hm'' ↦ ?_, fun _ _ _ ↦ rfl⟩
        obtain rfl := Option.some.inj hm''
        refine ⟨hbuilt', fun k ↦ ?_⟩
        have hnew : dictNew.toMap k = none := rfl
        rw [hmap' rfl, hmap rfl, hnew, Option.or_none]

namespace AddOnly

variable {d : Dict} (hd : AddOnly dictHash d)
include hd

/-- `dict_get_type` reads the map. -/
theorem dictGetType_eq (key : CStr) : dictGetType dictHash d key
    = some (match d.toMap key with
      | some v => v.valType
      | none => .valEnd) :=
  opCorrect_getType hd.toWellFormed key

theorem step {d' : Dict} {key : CStr} {val : DictValue} (hnone : d.entryOf key = none)
    (h : StoreStep dictHash d key val true d') : AddOnly dictHash d' :=
  have hb := hd.built.step h
  ⟨⟨h.exact hd.toExact hnone, hb.null⟩, hb.clean, hb.size⟩

/-- **Storing a new key succeeds**, and the table stays one that has only been added to. -/
theorem store {key : CStr} (hnone : d.toMap key = none) (val : DictValue) :
    ∃ d', dictStore dictHash .ok d key val = some (true, d') ∧ AddOnly dictHash d' ∧
      d'.toMap = Function.update d.toMap key (some val) := by
  obtain ⟨d', hstore, hstep⟩ := hd.dictStore_ok key val (.inl hd.null)
  exact ⟨d', hstore, hd.step (Dict.toMap_eq_none.mp hnone) hstep,
    toMap_update (hstep.spec hd.toCoherent).2⟩

end AddOnly

/-! ## Dictionaries of texts -/

/-- A dictionary with one text more. -/
def withText (d : Dict) (text : CStr × CStr) : Dict :=
  ((dictStore dictHashMurmur .ok d text.1 (.str (some text.2))).map (·.2)).getD d

/-- A dictionary of texts. -/
def textsDict (texts : List (CStr × CStr)) : Dict := texts.foldl withText dictNew

theorem built_textsDict (texts : List (CStr × CStr)) :
    Built dictHashMurmur (textsDict texts) := by
  have hbuilt : ∀ d, Built dictHashMurmur d → Built dictHashMurmur (texts.foldl withText d) := by
    induction texts with
    | nil => exact fun d hd ↦ hd
    | cons text texts ih =>
      intro d hd
      obtain ⟨rc, d', hstore, hd', -⟩ := hd.dictStore_spec .ok text.1 (.str (some text.2))
      rw [List.foldl_cons, withText, hstore]
      exact ih d' hd'
  exact hbuilt dictNew built_dictNew

end Rustyaxe
