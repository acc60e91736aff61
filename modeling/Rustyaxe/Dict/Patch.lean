import Mathlib.Data.List.Nodup
import Rustyaxe.Dict.AddOnly
import Rustyaxe.Dict.Churn
import Rustyaxe.Lib.MapDelta

/-!
# Carrying a difference out

`dict_diff` says how to get from one dictionary to another: its entries are stored with
`dict_merge` semantics, except those with the deletion marker `VAL_NULL`, whose keys are deleted.
`dictPatch` does that.  On a clone of the first dictionary it gives the second one, if that has no
`VAL_NULL` of its own: the two passes of `dict_diff` compute `MapDelta.delta` of the two maps
(`dictDiff_ok`), and `dictPatch` is `MapDelta.apply` (`dictPatch_ok`).

One thing is in the way, the lookups.  `dict_diff` looks up the keys of each dictionary in the
other one, and a table without a `NULL` slot sends it round forever for a key it does not hold
(`Rustyaxe.Dict.Churn`).  `diffPatches_iff` is the exact statement.
-/

set_option autoImplicit false

namespace Rustyaxe

open Runs

section Source

variable (dictHash : CStr → UInt32)

/-- Delete the keys of some entries, present or not. -/
def dictDelLoop (dst : Dict) : List Keypair → Option Dict
  | [] => some dst
  | cur :: rest => do
    let (_, dst) ← dictDel dictHash dst cur.key
    dictDelLoop dst rest

/-- Carry out a difference: store what is not `VAL_NULL` as `dict_merge` does, and delete the keys
of what is. -/
def dictPatch (mem : ℕ → StoreAlloc) (dst diff : Dict) : Option (Bool × Dict) := do
  let (rc, dst) ← dictMergeLoop dictHash mem 0 dst
    ((dictEnumerateAll diff).filter fun cur ↦ cur.value.valType != .valNull)
  if rc = false then return (false, dst)
  let dst ← dictDelLoop dictHash dst
    ((dictEnumerateAll diff).filter fun cur ↦ cur.value.valType == .valNull)
  return (true, dst)

/-- With all allocations succeeding, the difference of `a` and `b`, carried out on a clone of `a`,
gives `b`; and it has no key at which the two agree. -/
def DiffPatches (a b : Dict) : Prop :=
  ∃ diff copy patched,
    dictDiff dictHash true (fun _ ↦ .ok) (fun _ ↦ .ok) a b = some (some diff) ∧
    dictClone dictHash true (fun _ ↦ .ok) a = some (some copy) ∧
    dictPatch dictHash (fun _ ↦ .ok) copy diff = some (true, patched) ∧
    patched.toMap = b.toMap ∧ ∀ key, a.toMap key = b.toMap key → diff.toMap key = none

end Source

/-- The keys of `src` can all be looked up in `d`. -/
def Dict.HoldsOrHasNull (d src : Dict) : Prop :=
  d.HasNull ∨ ∀ key, src.toMap key ≠ none → d.toMap key ≠ none

variable {dictHash : CStr → UInt32}

/-! ## Lists of entries as maps -/

/-- In a list of entries with different keys, the value at a key is that of its entry. -/
theorem valueAt_eq_some_iff {L : List Keypair} (hnd : (L.map Keypair.key).Nodup) {key : CStr}
    {v : DictValue} : (L.find? (·.key == key)).map Keypair.value = some v
      ↔ ∃ kp ∈ L, kp.key = key ∧ kp.value = v := by
  rw [Option.map_eq_some_iff]
  constructor
  · rintro ⟨kp, hfind, hv⟩
    exact ⟨kp, List.mem_of_find?_eq_some hfind, by simpa using List.find?_some hfind, hv⟩
  · rintro ⟨kp, hmem, hkey, hv⟩
    refine ⟨kp, ?_, hv⟩
    cases hfind : L.find? (·.key == key) with
    | none => exact absurd hkey (by simpa using List.find?_eq_none.mp hfind kp hmem)
    | some kp' =>
      have hkey' : kp'.key = key := by simpa using List.find?_some hfind
      have := List.inj_on_of_nodup_map hnd (List.mem_of_find?_eq_some hfind) hmem
        (hkey'.trans hkey.symm)
      rw [this]

/-- The map of a coherent table, through its entries. -/
theorem Coherent.toMap_eq_some {d : Dict} (hd : Coherent dictHash d) {key : CStr}
    {v : DictValue} : d.toMap key = some v ↔ ∃ kp ∈ d.entries, kp.key = key ∧ kp.value = v := by
  rw [Dict.toMap, Option.map_eq_some_iff]
  constructor
  · rintro ⟨kp, hkp, hv⟩
    obtain ⟨hmem, hkey⟩ := hd.mem_entries_iff.mpr hkp
    exact ⟨kp, hmem, hkey, hv⟩
  · rintro ⟨kp, hmem, hkey, hv⟩
    exact ⟨kp, hd.mem_entries_iff.mp ⟨hmem, hkey⟩, hv⟩

/-! ## The two passes of `dict_diff` -/

/-- What a pass stores: the entries that are not `same`, with their new values. -/
def storedBy (same : Keypair → Option Bool) (value : Keypair → DictValue) (L : List Keypair) :
    List Keypair :=
  (L.filter fun cur ↦ same cur == some false).map fun cur ↦ { cur with value := value cur }

theorem mem_storedBy {same : Keypair → Option Bool} {value : Keypair → DictValue}
    {L : List Keypair} {key : CStr} {v : DictValue} :
    (∃ kp ∈ storedBy same value L, kp.key = key ∧ kp.value = v)
      ↔ ∃ cur ∈ L, same cur = some false ∧ cur.key = key ∧ value cur = v := by
  constructor
  · rintro ⟨kp, hmem, hkey, hv⟩
    obtain ⟨cur, hcur, rfl⟩ := List.mem_map.mp hmem
    rw [List.mem_filter, beq_iff_eq] at hcur
    exact ⟨cur, hcur.1, hcur.2, hkey, hv⟩
  · rintro ⟨cur, hmem, hsame, hkey, hv⟩
    refine ⟨_, List.mem_map.mpr ⟨cur, ?_, rfl⟩, hkey, hv⟩
    rw [List.mem_filter, beq_iff_eq]
    exact ⟨hmem, hsame⟩

theorem nodup_storedBy {same : Keypair → Option Bool} {value : Keypair → DictValue}
    {L : List Keypair} (hnd : (L.map Keypair.key).Nodup) :
    ((storedBy same value L).map Keypair.key).Nodup := by
  have hkeys : (storedBy same value L).map Keypair.key
      = (L.filter fun cur ↦ same cur == some false).map Keypair.key := by
    rw [storedBy, List.map_map]
    rfl
  rw [hkeys]
  exact hnd.sublist (List.filter_sublist.map _)

/-- **A pass merges** what it stores, if its lookups return. -/
theorem diffLoop_eq_merge {same : Keypair → Option Bool} {value : Keypair → DictValue} :
    ∀ {L : List Keypair} (n m : ℕ) (diff : Dict), (∀ cur ∈ L, same cur ≠ none) →
      diffLoop dictHash (fun _ ↦ .ok) same value n diff L
        = (dictMergeLoop dictHash (fun _ ↦ .ok) m diff (storedBy same value L)).map
            fun r ↦ if r.1 then some r.2 else none
  | [], _, _, _, _ => rfl
  | cur :: L, n, m, diff, h => by
    rw [List.forall_mem_cons] at h
    obtain ⟨r, hr⟩ := Option.ne_none_iff_exists'.mp h.1
    rw [diffLoop, hr]
    cases r with
    | true =>
      have hskip : storedBy same value (cur :: L) = storedBy same value L := by
        rw [storedBy, List.filter_cons_of_neg (by simp [hr]), storedBy]
      rw [hskip, ← diffLoop_eq_merge (n + 1) m diff h.2]
      rfl
    | false =>
      have hstore : storedBy same value (cur :: L)
          = { cur with value := value cur } :: storedBy same value L := by
        rw [storedBy, List.filter_cons_of_pos (by simp [hr]), storedBy, List.map_cons]
      rw [hstore, dictMergeLoop]
      simp only [Option.bind_eq_bind, Option.bind_some, Bool.false_eq_true, if_false]
      cases dictStore dictHash .ok diff cur.key (value cur) with
      | none => rfl
      | some r =>
        obtain ⟨rc, d⟩ := r
        cases rc with
        | false => rfl
        | true => exact diffLoop_eq_merge (n + 1) (m + 1) d h.2

/-- A pass that meets a lookup that does not return does not return. -/
theorem diffLoop_eq_none {same : Keypair → Option Bool} (value : Keypair → DictValue) :
    ∀ {L : List Keypair} (n : ℕ) {diff : Dict}, Built dictHash diff → (∃ cur ∈ L, same cur = none) →
      diffLoop dictHash (fun _ ↦ .ok) same value n diff L = none
  | [], _, _, _, h => by simp at h
  | cur :: L, n, diff, hdiff, h => by
    rw [diffLoop]
    cases hr : same cur with
    | none => rfl
    | some r =>
      have hrest : ∃ cur ∈ L, same cur = none := by
        obtain ⟨cur', hmem, hnone⟩ := h
        rcases List.mem_cons.mp hmem with rfl | hmem
        · simp [hr] at hnone
        · exact ⟨cur', hmem, hnone⟩
      cases r with
      | true => exact diffLoop_eq_none value (n + 1) hdiff hrest
      | false =>
        obtain ⟨rc, d, hstore, hd, -, hrc⟩ := hdiff.dictStore_spec .ok cur.key (value cur)
        obtain rfl := hrc rfl
        simp only [Option.bind_eq_bind, Option.bind_some, Bool.false_eq_true, if_false, hstore]
        exact diffLoop_eq_none value (n + 1) hd hrest

/-- **One pass**, when its lookups return: what it stores, over what was there. -/
theorem diffLoop_ok {same : Keypair → Option Bool} (value : Keypair → DictValue)
    {L : List Keypair} (n : ℕ) {diff : Dict} (hdiff : Built dictHash diff)
    (hnd : (L.map Keypair.key).Nodup) (h : ∀ cur ∈ L, same cur ≠ none) :
    ∃ diff', diffLoop dictHash (fun _ ↦ .ok) same value n diff L = some (some diff') ∧
      Built dictHash diff' ∧ ∀ key, ∃ w, diff'.toMap key = w.or (diff.toMap key) ∧
        ∀ v, w = some v ↔ ∃ cur ∈ L, same cur = some false ∧ cur.key = key ∧ value cur = v := by
  obtain ⟨rc, diff', hloop, hbuilt, hok⟩ :=
    @dictMergeLoop_returns dictHash (fun _ ↦ .ok) (storedBy same value L) 0 diff hdiff
  obtain rfl := hok fun _ ↦ rfl
  have hmap := (dictMergeLoop_spec hdiff.toCoherent (nodup_storedBy hnd) hloop).2
  refine ⟨diff', ?_, hbuilt, fun key ↦ ⟨_, hmap key, fun v ↦ ?_⟩⟩
  · rw [diffLoop_eq_merge n 0 diff h, hloop]
    rfl
  · rw [valueAt_eq_some_iff (nodup_storedBy hnd), mem_storedBy]

/-! ## The whole difference -/

section Diff

variable {a b : Dict} (ha : Coherent dictHash a) (hb : Coherent dictHash b)
include ha

theorem Coherent.sameIn_eq_none_iff {cur : Keypair} :
    sameIn dictHash a cur = none ↔ ¬ a.HasNull ∧ a.entryOf cur.key = none := by
  rw [← ha.dictLookup_none_iff, sameIn, dictGetKp]
  cases dictLookup a cur.key (dictHash cur.key) with
  | none => simp
  | some i => cases hs : a.slot i <;> simp [hs]

theorem Coherent.presentIn_eq_none_iff {cur : Keypair} :
    presentIn dictHash a cur = none ↔ ¬ a.HasNull ∧ a.entryOf cur.key = none := by
  rw [← ha.dictLookup_none_iff, presentIn, dictGetKp]
  cases dictLookup a cur.key (dictHash cur.key) with
  | none => simp
  | some i => cases hs : a.slot i <;> simp [hs]

omit ha in
include hb in
/-- The keys of `b` can be looked up in `a` when its entries can. -/
theorem Coherent.holdsOrHasNull_iff :
    a.HoldsOrHasNull b ↔ ∀ cur ∈ b.entries, a.HasNull ∨ a.entryOf cur.key ≠ none := by
  constructor
  · rintro (hnull | hall) cur hcur
    · exact .inl hnull
    · refine .inr (mt Dict.toMap_eq_none.mpr (hall cur.key ?_))
      rw [hb.toMap_of_mem hcur]
      simp
  · intro h
    by_cases hnull : a.HasNull
    · exact .inl hnull
    · refine .inr fun key hkey ↦ ?_
      obtain ⟨v, hv⟩ := Option.ne_none_iff_exists'.mp hkey
      obtain ⟨kp, hmem, rfl, -⟩ := hb.toMap_eq_some.mp hv
      exact mt Dict.toMap_eq_none.mp ((h kp hmem).resolve_left hnull)

include hb

theorem Coherent.sameIn_ne_none (hab : a.HoldsOrHasNull b) :
    ∀ cur ∈ b.entries, sameIn dictHash a cur ≠ none := by
  intro cur hcur hnone
  have := hb.holdsOrHasNull_iff.mp hab cur hcur
  rw [ha.sameIn_eq_none_iff] at hnone
  tauto

theorem Coherent.presentIn_ne_none (hab : a.HoldsOrHasNull b) :
    ∀ cur ∈ b.entries, presentIn dictHash a cur ≠ none := by
  intro cur hcur hnone
  have := hb.holdsOrHasNull_iff.mp hab cur hcur
  rw [ha.presentIn_eq_none_iff] at hnone
  tauto

/-- **`dict_diff`**, with its allocations succeeding and its lookups returning, computes the
difference of the two maps. -/
theorem dictDiff_ok (hexact : ∀ kp ∈ b.entries, kp.value.isExact) (hab : a.HoldsOrHasNull b)
    (hba : b.HoldsOrHasNull a) :
    ∃ diff, dictDiff dictHash true (fun _ ↦ .ok) (fun _ ↦ .ok) a b = some (some diff) ∧
      Built dictHash diff ∧ diff.toMap = MapDelta.delta .null a.toMap b.toMap := by
  have hsame := ha.sameIn_ne_none hb hab
  have hpresent := hb.presentIn_ne_none ha hba
  obtain ⟨d, hchanged, hd, hmapd⟩ := diffLoop_ok Keypair.value 0
    (@built_dictNew dictHash) hb.nodup_entries hsame
  obtain ⟨diff, hremoved, hdiff, hmap⟩ := diffLoop_ok (fun _ ↦ .null) 0 hd
    ha.nodup_entries hpresent
  refine ⟨diff, ?_, hdiff, funext fun key ↦ ?_⟩
  · rw [dictDiff, dictNewCall, dictEnumerateAll_eq, dictEnumerateAll_eq]
    simp only [if_true, Option.bind_eq_bind, hchanged, Option.bind_some, hremoved]
  obtain ⟨new, hd', hnew⟩ := hmapd key
  obtain ⟨gone, hdiff', hgone⟩ := hmap key
  have hd0 : dictNew.toMap key = none := rfl
  rw [hdiff', hd', hd0, Option.or_none, MapDelta.delta]
  -- the second pass stores a key of `a` that `b` lacks, the first one a key of `b`
  cases hbk : b.toMap key with
  | none =>
    have hnone : new = none := by
      refine Option.eq_none_iff_forall_not_mem.mpr fun v hv ↦ ?_
      obtain ⟨cur, hmem, -, rfl, -⟩ := (hnew v).mp hv
      rw [hb.toMap_of_mem hmem] at hbk
      simp at hbk
    rw [hnone, Option.or_none]
    split
    · rename_i hak
      refine Option.eq_none_iff_forall_not_mem.mpr fun v hv ↦ ?_
      obtain ⟨cur, hmem, -, rfl, -⟩ := (hgone v).mp hv
      rw [ha.toMap_of_mem hmem] at hak
      simp at hak
    · rename_i hak
      obtain ⟨v, hv⟩ := Option.ne_none_iff_exists'.mp hak
      obtain ⟨kp, hmem, rfl, -⟩ := ha.toMap_eq_some.mp hv
      refine (hgone .null).mpr ⟨kp, hmem, ?_, rfl, rfl⟩
      obtain ⟨r, hr⟩ := Option.ne_none_iff_exists'.mp (hpresent kp hmem)
      have := hb.presentIn_iff hr
      cases r with
      | false => exact hr
      | true => exact absurd hbk (this.mp rfl)
  | some v =>
    have hnone : gone = none := by
      refine Option.eq_none_iff_forall_not_mem.mpr fun w hw ↦ ?_
      obtain ⟨cur, -, hlost, rfl, -⟩ := (hgone w).mp hw
      have := (hb.presentIn_iff hlost).mpr (by simp [hbk])
      simp at this
    rw [hnone, Option.none_or]
    obtain ⟨kp, hmem, rfl, rfl⟩ := hb.toMap_eq_some.mp hbk
    have heq : ∀ old : DictValue, dictValuesEqual old kp.value = true ↔ old = kp.value :=
      fun old ↦ dictValuesEqual_iff (hexact kp hmem)
    split
    · rename_i hak
      refine Option.eq_none_iff_forall_not_mem.mpr fun w hw ↦ ?_
      obtain ⟨cur, hcur, hchg, hkey, -⟩ := (hnew w).mp hw
      obtain rfl : cur = kp := List.inj_on_of_nodup_map hb.nodup_entries hcur hmem hkey
      have := (ha.sameIn_iff hchg).mpr ⟨cur.value, hak, (heq _).mpr rfl⟩
      simp at this
    · rename_i hak
      refine (hnew _).mpr ⟨kp, hmem, ?_, rfl, rfl⟩
      obtain ⟨r, hr⟩ := Option.ne_none_iff_exists'.mp (hsame kp hmem)
      cases r with
      | false => exact hr
      | true =>
        obtain ⟨old, hold, hsm⟩ := (ha.sameIn_iff hr).mp rfl
        exact absurd ((heq old).mp hsm ▸ hold) hak

/-- **`dict_diff`** only returns a difference if all its lookups do. -/
theorem holdsOrHasNull_of_dictDiff {diff : Dict}
    (h : dictDiff dictHash true (fun _ ↦ .ok) (fun _ ↦ .ok) a b = some (some diff)) :
    a.HoldsOrHasNull b ∧ b.HoldsOrHasNull a := by
  rw [dictDiff, dictNewCall, dictEnumerateAll_eq, dictEnumerateAll_eq] at h
  simp only [if_true, Option.bind_eq_bind, Option.bind_eq_some_iff] at h
  obtain ⟨d, hchanged, hremoved⟩ := h
  have hab : a.HoldsOrHasNull b := by
    refine hb.holdsOrHasNull_iff.mpr fun cur hcur ↦ ?_
    by_contra hno
    rw [not_or, not_not] at hno
    rw [diffLoop_eq_none _ 0 built_dictNew ⟨cur, hcur, ha.sameIn_eq_none_iff.mpr hno⟩] at hchanged
    simp at hchanged
  refine ⟨hab, ha.holdsOrHasNull_iff.mpr fun cur hcur ↦ ?_⟩
  obtain ⟨d', hchanged', hd', -⟩ := diffLoop_ok Keypair.value 0
    (@built_dictNew dictHash) hb.nodup_entries (ha.sameIn_ne_none hb hab)
  obtain rfl : d = some d' := Option.some_inj.mp (hchanged.symm.trans hchanged')
  change diffLoop dictHash _ _ _ 0 d' a.entries = _ at hremoved
  by_contra hno
  rw [not_or, not_not] at hno
  have hnone := diffLoop_eq_none (fun _ ↦ .null) 0 hd'
    ⟨cur, hcur, hb.presentIn_eq_none_iff.mpr hno⟩
  rw [hnone] at hremoved
  simp at hremoved

end Diff

/-! ## The patch -/

/-- `dict_del` on a table with a `NULL` slot returns, and erases the key. -/
theorem Coherent.dictDel_ok {d : Dict} (hd : Coherent dictHash d) (hnull : d.HasNull)
    (key : CStr) : ∃ rc d', dictDel dictHash d key = some (rc, d') ∧ Coherent dictHash d' ∧
      d'.HasNull ∧ d'.toMap = Function.update d.toMap key none := by
  obtain ⟨i, hi⟩ := hd.dictLookup_isSome key (.inl hnull)
  have hsome : ∃ r, dictDel dictHash d key = some r := by
    rw [dictDel, hi]
    cases hs : d.slot i <;> exact ⟨_, by simp [hs]; rfl⟩
  obtain ⟨r, hr⟩ := hsome
  rcases hd.dictDel_eq hr with ⟨j, kp, hkp, rfl, rfl⟩ | ⟨hnone, rfl⟩
  · obtain ⟨hco, hnn, hmap⟩ := hd.delAt hkp
    refine ⟨true, _, hr, hco, ?_, toMap_update hmap⟩
    rw [Dict.hasNull_iff] at hnull ⊢
    rw [hnn, Dict.size, dictDelAt, List.length_set]
    exact hnull
  · refine ⟨false, d, hr, hd, hnull, ?_⟩
    rw [← Dict.toMap_eq_none.mpr hnone, Function.update_eq_self]

theorem dictDelLoop_ok : ∀ (L : List Keypair) {dst : Dict}, Coherent dictHash dst → dst.HasNull →
    ∃ dst', dictDelLoop dictHash dst L = some dst' ∧ Coherent dictHash dst' ∧
      ∀ key, dst'.toMap key = if ∃ cur ∈ L, cur.key = key then none else dst.toMap key
  | [], dst, hd, _ => ⟨dst, rfl, hd, fun key ↦ by simp⟩
  | cur :: L, dst, hd, hnull => by
    obtain ⟨rc, d, hdel, hco, hnull', hmap⟩ := hd.dictDel_ok hnull cur.key
    obtain ⟨dst', hloop, hco', hmap'⟩ := dictDelLoop_ok L hco hnull'
    refine ⟨dst', by rw [dictDelLoop, hdel]; exact hloop, hco', fun key ↦ ?_⟩
    rw [hmap', hmap, Function.update_apply]
    by_cases hkey : key = cur.key
    · simp [hkey]
    · simp [hkey, Ne.symm hkey]

theorem valType_eq_valNull_iff {v : DictValue} : v.valType = .valNull ↔ v = .null := by
  cases v <;> simp [DictValue.valType]

/-- **Carrying a difference out**, with the allocations succeeding. -/
theorem dictPatch_ok {dst diff : Dict} (hdst : Built dictHash dst) (hdiff : Coherent dictHash diff) :
    ∃ patched, dictPatch dictHash (fun _ ↦ .ok) dst diff = some (true, patched) ∧
      patched.toMap = MapDelta.apply .null dst.toMap diff.toMap := by
  have hnd := hdiff.nodup_entries
  have hstores : (((dictEnumerateAll diff).filter
      fun cur ↦ cur.value.valType != .valNull).map Keypair.key).Nodup := by
    rw [dictEnumerateAll_eq]
    exact hnd.sublist (List.filter_sublist.map _)
  obtain ⟨rc, d, hmerge, hd, hok⟩ := @dictMergeLoop_returns dictHash (fun _ ↦ .ok)
    ((dictEnumerateAll diff).filter fun cur ↦ cur.value.valType != .valNull) 0 dst hdst
  obtain rfl := hok fun _ ↦ rfl
  obtain ⟨-, hmap⟩ := dictMergeLoop_spec hdst.toCoherent hstores hmerge
  obtain ⟨patched, hdel, -, hmap'⟩ := dictDelLoop_ok
    ((dictEnumerateAll diff).filter fun cur ↦ cur.value.valType == .valNull) hd.toCoherent hd.null
  refine ⟨patched, ?_, funext fun key ↦ ?_⟩
  · simp only [dictPatch, Option.bind_eq_bind, hmerge, Option.bind_some, hdel]
    rfl
  have hgone : (∃ cur ∈ (dictEnumerateAll diff).filter fun cur ↦ cur.value.valType == .valNull,
      cur.key = key) ↔ diff.toMap key = some .null := by
    simp only [dictEnumerateAll_eq, List.mem_filter, beq_iff_eq, valType_eq_valNull_iff,
      hdiff.toMap_eq_some]
    exact ⟨fun ⟨cur, ⟨hmem, hv⟩, hkey⟩ ↦ ⟨cur, hmem, hkey, hv⟩,
      fun ⟨cur, hmem, hkey, hv⟩ ↦ ⟨cur, ⟨hmem, hv⟩, hkey⟩⟩
  have hstored : ∀ v, (((dictEnumerateAll diff).filter
      fun cur ↦ cur.value.valType != .valNull).find? (·.key == key)).map Keypair.value = some v
        ↔ diff.toMap key = some v ∧ v ≠ .null := by
    intro v
    rw [valueAt_eq_some_iff hstores, hdiff.toMap_eq_some]
    simp only [dictEnumerateAll_eq, List.mem_filter, bne_iff_ne, ne_eq, valType_eq_valNull_iff]
    constructor
    · rintro ⟨kp, ⟨hmem, hv⟩, hkey, rfl⟩
      exact ⟨⟨kp, hmem, hkey, rfl⟩, hv⟩
    · rintro ⟨⟨kp, hmem, hkey, rfl⟩, hv⟩
      exact ⟨kp, ⟨hmem, hv⟩, hkey, rfl⟩
  rw [hmap', hmap, MapDelta.apply]
  simp only [hgone]
  cases hkey : diff.toMap key with
  | none =>
    have hnone := Option.eq_none_iff_forall_not_mem.mpr fun v hv ↦ by
      simpa [hkey] using ((hstored v).mp hv).1
    rw [hnone]
    simp
  | some v =>
    by_cases hv : v = .null
    · simp [hv]
    · rw [(hstored v).mpr ⟨hkey, hv⟩]
      simp [hv]

/-! ## The round trip -/

theorem dictClone_ok {a : Dict} (ha : Coherent dictHash a) :
    ∃ copy, dictClone dictHash true (fun _ ↦ .ok) a = some (some copy) ∧ Built dictHash copy ∧
      copy.toMap = a.toMap := by
  obtain ⟨rc, copy, hmerge, hbuilt, -, hok⟩ := built_dictNew.dictMerge_spec ha (fun _ ↦ .ok)
  obtain rfl := hok fun _ ↦ rfl
  have hclone : dictClone dictHash true (fun _ ↦ .ok) a = some (some copy) := by
    simp only [dictClone, dictNewCall, if_true, Option.bind_eq_bind, hmerge, Option.bind_some]
    rfl
  exact ⟨copy, hclone, hbuilt, (dictClone_spec ha hclone).2⟩

/-- **When the difference of `a` and `b`, carried out on a clone of `a`, gives `b`**: exactly when
each of the two has a `NULL` slot or holds all the keys of the other. -/
theorem diffPatches_iff {a b : Dict} (ha : Coherent dictHash a) (hb : Coherent dictHash b)
    (hexact : ∀ kp ∈ b.entries, kp.value.isExact) (hvalue : ∀ kp ∈ b.entries, kp.value ≠ .null) :
    DiffPatches dictHash a b ↔ a.HoldsOrHasNull b ∧ b.HoldsOrHasNull a := by
  constructor
  · rintro ⟨diff, -, -, hdiff, -⟩
    exact holdsOrHasNull_of_dictDiff ha hb hdiff
  · rintro ⟨hab, hba⟩
    obtain ⟨diff, hdiff, hbuilt, hmap⟩ := dictDiff_ok ha hb hexact hab hba
    obtain ⟨copy, hclone, hcopy, hcopymap⟩ := dictClone_ok ha
    obtain ⟨patched, hpatch, hpatched⟩ := dictPatch_ok hcopy hbuilt.toCoherent
    refine ⟨diff, copy, patched, hdiff, hclone, hpatch, ?_, fun key hkey ↦ ?_⟩
    · rw [hpatched, hcopymap, hmap]
      refine MapDelta.apply_delta DictValue.null fun key hkey ↦ ?_
      obtain ⟨kp, hmem, -, hv⟩ := hb.toMap_eq_some.mp hkey
      exact hvalue kp hmem hv
    · rw [hmap]
      exact (MapDelta.delta_eq_none_iff _).mpr hkey

/-- `d` is removed, and `a` is added in the slot of a deleted key. -/
theorem diffPatches_iff_probedTable : DiffPatches dictHashMurmur probedTable oneEntry :=
  (diffPatches_iff wellFormed_probedTable.toCoherent wellFormed_oneEntry.toCoherent (by decide)
    (by decide)).mpr ⟨.inl wellFormed_probedTable.null, .inl wellFormed_oneEntry.null⟩

/-- After `churn` the table has no `NULL` slot left, and the difference to a dictionary of one
entry is never returned. -/
theorem not_diffPatches_churned : ∃ a, runSteps (dictCall dictHashMurmur) dictNew churn = some a ∧
    dictDiff dictHashMurmur true (fun _ ↦ .ok) (fun _ ↦ .ok) a oneEntry = none ∧
      ¬ DiffPatches dictHashMurmur a oneEntry := by
  have hnone : dictDiff dictHashMurmur true (fun _ ↦ .ok) (fun _ ↦ .ok)
      ⟨8, 0, List.replicate 8 .deleted⟩ oneEntry = none := by
    decide
  refine ⟨⟨8, 0, List.replicate 8 .deleted⟩, by decide, hnone, ?_⟩
  rintro ⟨diff, -, -, hdiff, -⟩
  rw [hnone] at hdiff
  simp at hdiff

end Rustyaxe
