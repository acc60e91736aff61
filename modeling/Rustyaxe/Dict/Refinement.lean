import Rustyaxe.Dict.Store

/-!
# The dictionary refines a finite map

`Exact` and `WellFormed` are the strict invariant of the table: `Coherent`, with `fill` equal to
the number of slots that are not `NULL`, and with a `NULL` slot left.  `OpCorrect` says of one
call on such a table what it owes its caller — the invariant afterwards, and the effect on (or the
answer from) the finite map `Dict.toMap`.

Every call meets this but one: `dict_store` over a live key counts the replaced slot as a new one.
`opCorrect_iff` is the exact statement.
-/

set_option autoImplicit false

namespace Rustyaxe

/-- The invariant with exact counters. -/
structure Exact (dictHash : CStr → UInt32) (d : Dict) : Prop extends Coherent dictHash d where
  /-- `fill` counts the slots that are not `NULL`. -/
  fillEq : d.fill = d.nonNullCount

/-- The invariant with exact counters and a `NULL` slot left. -/
structure WellFormed (dictHash : CStr → UInt32) (d : Dict) : Prop extends Exact dictHash d where
  null : d.HasNull

/-- The calls `OpCorrect` is about. -/
inductive DictOp where
  | store (key : CStr) (val : DictValue)
  | del (key : CStr)
  | resize
  | getType (key : CStr)
  | getKp (key : CStr)

variable (dictHash : CStr → UInt32)

/-- What one call, with its allocations succeeding, owes its caller: the invariant (a `NULL` slot
apart) and insert-or-overwrite, erase, identity or lookup on the finite map. -/
def OpCorrect (d : Dict) : DictOp → Prop
  | .store key val => ∃ d', dictStore dictHash .ok d key val = some (true, d') ∧
      Exact dictHash d' ∧ d'.toMap = Function.update d.toMap key (some val)
  | .del key => ∃ rc d', dictDel dictHash d key = some (rc, d') ∧
      Exact dictHash d' ∧ d'.toMap = Function.update d.toMap key none ∧
      (rc = false ↔ d.toMap key = none)
  | .resize => ∃ d', dictResize dictHash true d = some (true, d') ∧
      Exact dictHash d' ∧ d'.toMap = d.toMap
  | .getType key => dictGetType dictHash d key
      = some (match d.toMap key with
        | some v => v.valType
        | none => .valEnd)
  | .getKp key => ∃ r, dictGetKp dictHash d key = some r ∧ r.map Keypair.value = d.toMap key

/-- The call replaces the value of a live key. -/
def Overwrites (d : Dict) : DictOp → Prop
  | .store key _ => d.toMap key ≠ none
  | _ => False

variable {dictHash}

theorem Dict.toMap_eq_none {d : Dict} {key : CStr} : d.toMap key = none ↔ d.entryOf key = none :=
  Option.map_eq_none_iff

theorem toMap_update {d d' : Dict} {key : CStr} {kp : Option Keypair}
    (h : ∀ k, d'.entryOf k = if k = key then kp else d.entryOf k) :
    d'.toMap = Function.update d.toMap key (kp.map Keypair.value) := by
  funext k
  rw [Dict.toMap, h, Function.update_apply]
  split <;> rfl

theorem Rehashed.exact {nd : Dict} {L : List Keypair} (h : Rehashed dictHash nd L) :
    Exact dictHash nd :=
  ⟨h.coherent, by rw [h.fillUsed, h.coherent.used, Dict.nonNullCount_of_clean h.clean]⟩

theorem exact_dictStoreAt_of_free {d : Dict} (hfill : d.fill = d.nonNullCount) {i : ℕ}
    (hi : i < d.size) (hfree : d.slot i = .empty ∨ d.slot i = .deleted) (key : CStr)
    (val : DictValue) (hash : UInt32) :
    (dictStoreAt d i key val hash).fill = (dictStoreAt d i key val hash).nonNullCount := by
  have := dictStoreAt_fill hi hfill.ge key val hash
  rw [isFree_iff.mpr hfree, Bool.and_true] at this
  omega

/-- A new key keeps the counters exact. -/
theorem StoreStep.exact {d d' : Dict} (hd : Exact dictHash d) {key : CStr} {val : DictValue}
    (hnone : d.entryOf key = none) (h : StoreStep dictHash d key val true d') :
    Exact dictHash d' := by
  refine ⟨(h.spec hd.toCoherent).1, ?_⟩
  cases h with
  | replaced hi hk => exact absurd hk (Dict.entryOf_eq_none.mp hnone _ _ hi)
  | inserted hlookup hfree _ _ =>
    obtain ⟨k, hpow⟩ := hd.pow
    exact exact_dictStoreAt_of_free hd.fillEq (dictLookup_lt hpow hlookup) hfree _ _ _
  | grown _ _ hnd _ hlookup hempty =>
    obtain ⟨k, hpow⟩ := hnd.coherent.pow
    exact exact_dictStoreAt_of_free hnd.exact.fillEq (dictLookup_lt hpow hlookup) (.inl hempty) _ _ _

/-- Replacing the value of a live key makes `fill` one too large. -/
theorem StoreStep.not_exact {d d' : Dict} (hd : Exact dictHash d) {key : CStr} {val : DictValue}
    (hlive : d.entryOf key ≠ none) (h : StoreStep dictHash d key val true d') :
    ¬ Exact dictHash d' := by
  cases h with
  | @replaced i kp hi hk =>
    intro hx
    have hlt : i < d.size := d.lt_size_of_full hi
    have hfill := dictStoreAt_fill hlt hd.fill key val (dictHash key)
    have hnf : isNonNull (d.slot i) = true ∧ d.isFree i = false :=
      ⟨by rw [hi]; rfl, by rw [Dict.isFree, hi]⟩
    have := hx.fillEq
    rw [hnf.1, hnf.2] at hfill
    simp only [Bool.and_false, Bool.toNat_false, Bool.toNat_true] at hfill
    have := hd.fillEq
    omega
  | inserted _ _ hnone _ => exact absurd hnone hlive
  | grown hnone _ _ _ _ _ => exact absurd hnone hlive

theorem opCorrect_del {d : Dict} (hd : WellFormed dictHash d) (key : CStr) :
    OpCorrect dictHash d (.del key) := by
  obtain ⟨i, hi⟩ := hd.dictLookup_isSome key (.inl hd.null)
  have hsome : ∃ r, dictDel dictHash d key = some r := by
    rw [dictDel, hi]
    cases hs : d.slot i <;> exact ⟨_, by simp [hs]; rfl⟩
  obtain ⟨r, hr⟩ := hsome
  rcases hd.dictDel_eq hr with ⟨j, kp, hkp, rfl, rfl⟩ | ⟨hnone, rfl⟩
  · obtain ⟨hco, hnn, hmap⟩ := hd.delAt hkp
    refine ⟨true, _, hr, ⟨hco, ?_⟩, toMap_update hmap, ?_⟩
    · rw [hnn, ← hd.fillEq]
      rfl
    · rw [Dict.toMap_eq_none, hd.entryOf_of_slot hkp]
      simp
  · refine ⟨false, d, hr, hd.toExact, ?_, by rw [Dict.toMap_eq_none, hnone]; simp⟩
    rw [← Dict.toMap_eq_none.mpr hnone, Function.update_eq_self]

theorem opCorrect_resize {d : Dict} (hd : Exact dictHash d) : OpCorrect dictHash d .resize := by
  rcases hd.dictResize_eq true with ⟨-, hr⟩ | ⟨-, h, -⟩ | ⟨-, -, nd, hr, hnd, -⟩
  · exact ⟨d, hr, hd, rfl⟩
  · simp at h
  · refine ⟨nd, hr, hnd.exact, funext fun key ↦ ?_⟩
    rw [Dict.toMap, hnd.entryOf_eq, Dict.toMap]

theorem opCorrect_getKp {d : Dict} (hd : WellFormed dictHash d) (key : CStr) :
    OpCorrect dictHash d (.getKp key) :=
  ⟨_, hd.dictGetKp_of_isSome (.inl hd.null), rfl⟩

theorem opCorrect_getType {d : Dict} (hd : WellFormed dictHash d) (key : CStr) :
    OpCorrect dictHash d (.getType key) := by
  rw [OpCorrect, dictGetType, hd.dictGetKp_of_isSome (.inl hd.null), Dict.toMap]
  cases d.entryOf key <;> rfl

theorem opCorrect_store {d : Dict} (hd : WellFormed dictHash d) (key : CStr) (val : DictValue) :
    OpCorrect dictHash d (.store key val) ↔ d.entryOf key = none := by
  obtain ⟨d', hstore, hstep⟩ := hd.dictStore_ok key val (.inl hd.null)
  obtain ⟨-, hmap⟩ := hstep.spec hd.toCoherent
  constructor
  · rintro ⟨d'', hstore', hx, -⟩
    obtain rfl : d' = d'' := by simpa [hstore] using hstore'
    by_contra hlive
    exact hstep.not_exact hd.toExact hlive hx
  · exact fun hnone ↦ ⟨d', hstore, hstep.exact hd.toExact hnone, toMap_update hmap⟩

/-- A replacement still keeps `Coherent` and updates the map. -/
theorem store_refines {d : Dict} (hd : Coherent dictHash d) (h : d.HasNull) (key : CStr)
    (val : DictValue) : ∃ d', dictStore dictHash .ok d key val = some (true, d') ∧
      Coherent dictHash d' ∧ d'.toMap = Function.update d.toMap key (some val) := by
  obtain ⟨d', hstore, hstep⟩ := hd.dictStore_ok key val (.inl h)
  obtain ⟨hco, hmap⟩ := hstep.spec hd
  exact ⟨d', hstore, hco, toMap_update hmap⟩

/-- **Every call on a well-formed table refines its map operation, but a replacement.**  All the
clauses hold afterwards, and the finite map changes as it should, exactly when the call is not a
`dict_store` over a live key. -/
theorem opCorrect_iff {d : Dict} (hd : WellFormed dictHash d) (op : DictOp) :
    OpCorrect dictHash d op ↔ ¬ Overwrites d op := by
  cases op with
  | store key val =>
    simp only [Overwrites, not_not, Dict.toMap_eq_none]
    exact opCorrect_store hd key val
  | del key => exact iff_of_true (opCorrect_del hd key) not_false
  | resize => exact iff_of_true (opCorrect_resize hd.toExact) not_false
  | getType key => exact iff_of_true (opCorrect_getType hd key) not_false
  | getKp key => exact iff_of_true (opCorrect_getKp hd key) not_false

theorem wellFormed_dictNew : WellFormed dictHash dictNew := by
  have h : Rehashed dictHash dictNew [] := rehashed_emptyTable (k := 3) rfl
  exact ⟨h.exact, h.hasNull (by decide)⟩

theorem coherent_dictNew : Coherent dictHash dictNew := wellFormed_dictNew.toCoherent

/-- A key that is not there yet is stored. -/
theorem WellFormed.store {d d' : Dict} (hd : WellFormed dictHash d) (key : CStr) (val : DictValue)
    (hnone : d.entryOf key = none) (hstore : dictStore dictHash .ok d key val = some (true, d'))
    (hnull : d'.HasNull) : WellFormed dictHash d' := by
  obtain ⟨d'', hstore', hx, -⟩ := (opCorrect_store hd key val).mpr hnone
  rw [hstore, Option.some.injEq, Prod.mk.injEq] at hstore'
  exact ⟨hstore'.2 ▸ hx, hnull⟩

/-- A key is deleted. -/
theorem WellFormed.del {d d' : Dict} (hd : WellFormed dictHash d) (key : CStr)
    (hdel : dictDel dictHash d key = some (true, d')) (hnull : d'.HasNull) :
    WellFormed dictHash d' := by
  obtain ⟨rc', d'', hdel', hx, -⟩ := opCorrect_del hd key
  rw [hdel, Option.some.injEq, Prod.mk.injEq] at hdel'
  exact ⟨hdel'.2 ▸ hx, hnull⟩

/-- The table that holds the one key `a`. -/
def oneEntry : Dict := dictStoreAt dictNew 7 [97] (.int 1) (dictHashMurmur [97])

theorem wellFormed_oneEntry : WellFormed dictHashMurmur oneEntry :=
  wellFormed_dictNew.store [97] (.int 1) rfl (by decide) ⟨0, by decide, by decide⟩

/-- Behind `a` there is `d`, which wants the same slot. -/
def twoEntries : Dict := dictStoreAt oneEntry 3 [100] (.str (some [120])) (dictHashMurmur [100])

theorem wellFormed_twoEntries : WellFormed dictHashMurmur twoEntries :=
  wellFormed_oneEntry.store [100] (.str (some [120])) (by decide) (by decide)
    ⟨0, by decide, by decide⟩

/-- `d` is left, and the slot it wants belongs to no key any more. -/
def probedTable : Dict :=
  { twoEntries with used := twoEntries.used - 1, table := twoEntries.table.set 7 .deleted }

theorem wellFormed_probedTable : WellFormed dictHashMurmur probedTable :=
  wellFormed_twoEntries.del [97] (by decide) ⟨0, by decide, by decide⟩

/-- `j` wants the slot too. -/
theorem opCorrect_iff_probedTable :
    OpCorrect dictHashMurmur probedTable (.store [106] (.int 3)) ∧
      OpCorrect dictHashMurmur probedTable (.del [100]) ∧
      ¬OpCorrect dictHashMurmur probedTable (.store [100] (.int 4)) :=
  ⟨(opCorrect_iff wellFormed_probedTable _).mpr (by rw [Overwrites]; decide),
    (opCorrect_iff wellFormed_probedTable _).mpr not_false,
    fun h ↦ (opCorrect_iff wellFormed_probedTable _).mp h (by rw [Overwrites]; decide)⟩

/-- Storing `a` twice leaves one slot that is not `NULL`, and `fill` at `2`. -/
theorem not_opCorrect_overwrite :
    WellFormed dictHashMurmur oneEntry ∧
      ¬ OpCorrect dictHashMurmur oneEntry (.store [97] (.int 2)) ∧
      (dictStoreAt oneEntry 7 [97] (.int 2) (dictHashMurmur [97])).fill = 2 ∧
      (dictStoreAt oneEntry 7 [97] (.int 2) (dictHashMurmur [97])).nonNullCount = 1 := by
  refine ⟨wellFormed_oneEntry, fun h ↦ ?_, by decide, by decide⟩
  have := (opCorrect_store wellFormed_oneEntry [97] (.int 2)).mp h
  exact absurd this (by decide)

end Rustyaxe
