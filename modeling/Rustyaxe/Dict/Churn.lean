import Rustyaxe.Dict.Unsigned
import Rustyaxe.Lib.Runs

/-!
# Adding and deleting without end

A lookup needs a `NULL` slot to stop at, so the question is whether a table can run out of them.
It can.  Deleted slots stay occupied, and `dict_resize` sizes the new table from `used`: when few
keys are live it finds that the table need not grow, and returns without rehashing it.  And `fill`
counts replacements, so that in the end it comes round and `dict_resize` is not even called.

`nullSlot_iff` says exactly when this happens along a run of calls: at the call that puts a new
key into the only `NULL` slot of a table that it does not have grown (`TakesLastNull`).  The counter
`fill` is a different matter; `CountsPastSize` is the call that brings it up to `size`.
-/

set_option autoImplicit false

namespace Rustyaxe

open ProbeSearch Runs

/-- The public calls: any `dict_add*`, `dict_del`, and any `dict_get*`. -/
inductive DictCall where
  | add (key : CStr) (val : DictValue)
  | del (key : CStr)
  | get (key : CStr)
  deriving DecidableEq, Repr

section Calls

variable (dictHash : CStr → UInt32)

/-- The table after one call, its allocations succeeding.  `none` if the call never returns. -/
def dictCall (d : Dict) : DictCall → Option Dict
  | .add key val => (dictStore32 dictHash .ok d key val).map Prod.snd
  | .del key => (dictDel dictHash d key).map Prod.snd
  | .get key => (dictGetKp dictHash d key).map fun _ ↦ d

/-- A new key would take a `NULL` slot of the table as it is. -/
def TakesNull (d : Dict) (key : CStr) : Prop :=
  ¬ d.grows ∧ ∃ i, dictLookup d key (dictHash key) = some i ∧ d.slot i = .empty

/-- The call puts a new key into the only `NULL` slot of a table that it does not have grown. -/
def TakesLastNull (d : Dict) : DictCall → Prop
  | .add key _ => d.nonNullCount + 1 = d.size ∧ TakesNull dictHash d key
  | _ => False

/-- The call counts `fill` up to the size of the table: it replaces a value, or takes a `NULL` slot
of a table that it does not have grown. -/
def CountsPastSize (d : Dict) : DictCall → Prop
  | .add key _ => d.size ≤ d.fill + 1 ∧ (d.toMap key ≠ none ∨ TakesNull dictHash d key)
  | _ => False

end Calls

variable {dictHash : CStr → UInt32} {d d' : Dict}

/-! ## One call -/

/-- What a call does: it stores, deletes a slot, or leaves the table as it is. -/
theorem Coherent32.dictCall_cases (hd : Coherent32 dictHash d) {c : DictCall}
    (h : dictCall dictHash d c = some d') :
    (∃ key val rc, c = .add key val ∧ StoreStep32 dictHash d key val rc d') ∨
      (∀ key val, c ≠ .add key val) ∧
        ((∃ i kp, d.slot i = .full kp ∧ d' = dictDelAt d i) ∨ d' = d) := by
  cases c with
  | add key val =>
    obtain ⟨⟨rc, d''⟩, hs, rfl⟩ := Option.map_eq_some_iff.mp h
    exact .inl ⟨key, val, rc, rfl, hd.dictStore32_step hs⟩
  | get key =>
    obtain ⟨r, -, rfl⟩ := Option.map_eq_some_iff.mp h
    exact .inr ⟨fun key val h ↦ (by cases h), .inr rfl⟩
  | del key =>
    refine .inr ⟨fun key val h ↦ (by cases h), ?_⟩
    obtain ⟨r, hr, rfl⟩ := Option.map_eq_some_iff.mp h
    rw [dictDel, Option.bind_eq_bind, Option.bind_eq_some_iff] at hr
    obtain ⟨i, -, hr⟩ := hr
    cases hslot : d.slot i with
    | full kp =>
      rw [hslot] at hr
      exact .inl ⟨i, kp, hslot, by rw [← Option.some.inj hr]; rfl⟩
    | empty =>
      rw [hslot] at hr
      exact .inr (by rw [← Option.some.inj hr])
    | deleted =>
      rw [hslot] at hr
      exact .inr (by rw [← Option.some.inj hr])

theorem Coherent32.delAt (hd : Coherent32 dictHash d) {i : ℕ} {kp : Keypair}
    (hi : d.slot i = .full kp) :
    Coherent32 dictHash (dictDelAt d i) ∧ (dictDelAt d i).nonNullCount = d.nonNullCount := by
  obtain ⟨hco, hcount, -⟩ := hd.table.delAt hi
  exact ⟨⟨hco.recounted, by simpa [Dict.size, dictDelAt] using hd.size, hd.fill⟩, hcount⟩

theorem Coherent32.dictCall (hd : Coherent32 dictHash d) {c : DictCall}
    (h : Rustyaxe.dictCall dictHash d c = some d') : Coherent32 dictHash d' := by
  obtain ⟨key, val, rc, -, hstep⟩ | ⟨-, ⟨i, kp, hi, rfl⟩ | rfl⟩ := hd.dictCall_cases h
  · exact hstep.coherent hd
  · exact (hd.delAt hi).1
  · exact hd

/-- A call other than a store keeps the size, `fill`, and the slots that are not `NULL`. -/
theorem Coherent32.keeps_other (hd : Coherent32 dictHash d)
    (h : (∃ i kp, d.slot i = .full kp ∧ d' = dictDelAt d i) ∨ d' = d) :
    d'.size = d.size ∧ d'.fill = d.fill ∧ d'.nonNullCount = d.nonNullCount := by
  obtain ⟨i, kp, hi, rfl⟩ | rfl := h
  · exact ⟨by simp [Dict.size, dictDelAt], rfl, (hd.delAt hi).2⟩
  · exact ⟨rfl, rfl, rfl⟩

/-- What a store adds to the slots that are not `NULL`. -/
theorem nonNullCount_dictStoreAt32 {i : ℕ} (hi : i < d.size) (key : CStr) (val : DictValue)
    (hash : UInt32) :
    (dictStoreAt32 d i key val hash).nonNullCount + (isNonNull (d.slot i)).toNat =
      d.nonNullCount + 1 :=
  Dict.countP_set (dictStoreAt32_table d i key val hash) hi isNonNull

/-! ## The `NULL` slot -/

theorem StoreStep32.hasNull (hd : Coherent32 dictHash d) {key : CStr} {val : DictValue} {rc : Bool}
    (hnull : d.HasNull) (hB : ¬ TakesLastNull dictHash d (.add key val))
    (h : StoreStep32 dictHash d key val rc d') : d'.HasNull := by
  rw [Dict.hasNull_iff] at hnull ⊢
  cases h with
  | failed => exact hnull
  | @replaced i kp hi hk =>
    have hcount := nonNullCount_dictStoreAt32 (d.lt_size_of_full hi) key val (dictHash key)
    rw [hi] at hcount
    simp only [isNonNull, Bool.toNat_true] at hcount
    rw [dictStoreAt32_size]
    omega
  | @inserted i hlookup hfree hstay =>
    have hcount := nonNullCount_dictStoreAt32 (hd.lookup_lt hlookup) key val (dictHash key)
    rw [dictStoreAt32_size]
    rcases hfree with hslot | hslot
    · have hmore : d.nonNullCount + 1 ≠ d.size := fun he ↦ hB ⟨he, hstay, i, hlookup, hslot⟩
      omega
    · rw [hslot] at hcount
      simp only [isNonNull, Bool.toNat_true] at hcount
      omega
  | @grown nd i hnone hnd hpos hsize hlt hlookup hempty =>
    obtain ⟨k, hpow⟩ := hnd.coherent.pow
    have hcount := nonNullCount_dictStoreAt32 (dictLookup_lt hpow hlookup) key val (dictHash key)
    have hclean := Dict.nonNullCount_of_clean hnd.clean
    have hused := hnd.coherent.used
    rw [dictStoreAt32_size]
    omega

theorem keeps_null (hd : Coherent32 dictHash d) {c : DictCall} (hnull : d.HasNull)
    (hB : ¬ TakesLastNull dictHash d c) (h : dictCall dictHash d c = some d') : d'.HasNull := by
  obtain ⟨key, val, rc, rfl, hstep⟩ | ⟨-, hother⟩ := hd.dictCall_cases h
  · exact hstep.hasNull hd hnull hB
  · obtain ⟨hsize, -, hcount⟩ := hd.keeps_other hother
    rw [Dict.hasNull_iff] at hnull ⊢
    omega

theorem loses_null (hd : Coherent32 dictHash d) {c : DictCall}
    (hB : TakesLastNull dictHash d c) : ∃ d', dictCall dictHash d c = some d' ∧ ¬ d'.HasNull := by
  cases c with
  | del key => exact hB.elim
  | get key => exact hB.elim
  | add key val =>
    obtain ⟨hlast, hstay, i, hi, hempty⟩ := hB
    refine ⟨dictStoreAt32 d i key val (dictHash key),
      by rw [dictCall, hd.dictStore32_stays hi fun _ ↦ hstay]; rfl, ?_⟩
    have hcount := nonNullCount_dictStoreAt32 (hd.lookup_lt hi) key val (dictHash key)
    rw [hempty] at hcount
    simp only [isNonNull, Bool.toNat_false] at hcount
    rw [Dict.hasNull_iff, dictStoreAt32_size]
    omega

/-! ## The counter -/

theorem StoreStep32.fill_lt (hd : Coherent32 dictHash d) {key : CStr} {val : DictValue} {rc : Bool}
    (hlt : d.fill < d.size) (hB : ¬ CountsPastSize dictHash d (.add key val))
    (h : StoreStep32 dictHash d key val rc d') : d'.fill < d'.size := by
  have hsize := hd.size
  cases h with
  | failed => exact hlt
  | @replaced i kp hi hk =>
    have hlive : d.toMap key ≠ none := by
      rw [Ne, Dict.toMap_eq_none, ← hk]
      exact fun hnone ↦ Dict.entryOf_eq_none.mp hnone i kp hi rfl
    have hroom : ¬ d.size ≤ d.fill + 1 := fun hle ↦ hB ⟨hle, .inl hlive⟩
    rw [dictStoreAt32_size, dictStoreAt32_fill hd.fill, hi, if_neg (by simp)]
    omega
  | @inserted i hlookup hfree hstay =>
    rw [dictStoreAt32_size, dictStoreAt32_fill hd.fill]
    rcases hfree with hslot | hslot
    · have hroom : ¬ d.size ≤ d.fill + 1 := fun hle ↦
        hB ⟨hle, .inr ⟨hstay, i, hlookup, hslot⟩⟩
      rw [hslot, if_neg (by simp)]
      omega
    · rwa [if_pos hslot]
  | @grown nd i hnone hnd hpos hnsize hnlt hlookup hempty =>
    have hused := hnd.fillUsed
    rw [dictStoreAt32_size, dictStoreAt32_fill (by omega), hempty, if_neg (by simp)]
    omega

theorem keeps_fill (hd : Coherent32 dictHash d) {c : DictCall} (hlt : d.fill < d.size)
    (hB : ¬ CountsPastSize dictHash d c) (h : dictCall dictHash d c = some d') :
    d'.fill < d'.size := by
  obtain ⟨key, val, rc, rfl, hstep⟩ | ⟨-, hother⟩ := hd.dictCall_cases h
  · exact hstep.fill_lt hd hlt hB
  · obtain ⟨hsize, hfill, -⟩ := hd.keeps_other hother
    omega

theorem loses_fill (hd : Coherent32 dictHash d) {c : DictCall} (hlt : d.fill < d.size)
    (hB : CountsPastSize dictHash d c) :
    ∃ d', dictCall dictHash d c = some d' ∧ ¬ d'.fill < d'.size := by
  have hsize := hd.size
  have hcounted : ∀ {key : CStr} (val : DictValue) {i : ℕ}, d.size ≤ d.fill + 1 →
      d.slot i ≠ .deleted →
      ¬ (dictStoreAt32 d i key val (dictHash key)).fill <
        (dictStoreAt32 d i key val (dictHash key)).size := by
    intro key val i hle hslot
    obtain ⟨k, hk, hpow⟩ := hd.exists_pow
    have hpow' : d.size ≤ 2 ^ 31 := hpow ▸ Nat.pow_le_pow_right Nat.two_pos (by omega)
    rw [dictStoreAt32_size, dictStoreAt32_fill hd.fill, if_neg hslot]
    omega
  cases c with
  | del key => exact hB.elim
  | get key => exact hB.elim
  | add key val =>
    obtain ⟨hle, hlive | ⟨hstay, i, hi, hempty⟩⟩ := hB
    · obtain ⟨kp, hkp⟩ := Option.ne_none_iff_exists'.mp (mt Dict.toMap_eq_none.mpr hlive)
      obtain ⟨i, hi⟩ := Dict.entryOf_mem hkp
      obtain rfl := Dict.entryOf_key hkp
      have hlookup := (dictLookup_recounted d _ _).symm.trans (hd.table.dictLookup_of_slot hi)
      have hfull : d.isFree i = true → ¬ d.grows := fun h ↦ by rw [Dict.isFree, hi] at h; cases h
      exact ⟨_, by rw [dictCall, hd.dictStore32_stays hlookup hfull]; rfl,
        hcounted val hle (by rw [hi]; simp)⟩
    · exact ⟨_, by rw [dictCall, hd.dictStore32_stays hi fun _ ↦ hstay]; rfl,
        hcounted val hle (by rw [hempty]; simp)⟩

/-! ## Runs -/

theorem coherent32_dictNew : Coherent32 dictHash dictNew :=
  coherent_dictNew.coherent32 (by decide) (by decide)

theorem Coherent32.lookupsReturn (hd : Coherent32 dictHash d) (h : d.HasNull) :
    LookupsReturn dictHash d := fun key ↦ by
  obtain ⟨i, hi⟩ := hd.table.lookupsReturn_of_hasNull h key
  exact ⟨i, (dictLookup_recounted d _ _).symm.trans hi⟩

/-- **When a run of calls runs out of `NULL` slots.**  Every table it reaches has one, and every
lookup in it returns, exactly when no call puts a new key into the only `NULL` slot of a table
that it does not have grown; and `fill` stays below `size` exactly when no call counts it up to
there. -/
theorem nullSlot_iff (dictHash : CStr → UInt32) (cs : List DictCall) :
    (Always (dictCall dictHash) dictNew cs (fun d ↦ d.HasNull ∧ LookupsReturn dictHash d) ↔
      NoStep (dictCall dictHash) dictNew cs (TakesLastNull dictHash)) ∧
    (Always (dictCall dictHash) dictNew cs (fun d ↦ d.fill < d.size) ↔
      NoStep (dictCall dictHash) dictNew cs (CountsPastSize dictHash)) := by
  have hnull : (dictNew).HasNull := (@wellFormed_dictNew dictHash).null
  refine ⟨always_iff_noStep (I := Coherent32 dictHash) coherent32_dictNew
      ⟨hnull, coherent32_dictNew.lookupsReturn hnull⟩ ?_ ?_ ?_ cs,
    always_iff_noStep (I := Coherent32 dictHash) coherent32_dictNew (by decide) ?_ ?_ ?_ cs⟩
  · exact fun d c d' hd h ↦ hd.dictCall h
  · exact fun d c d' hd hP hB h ↦
      let hn := keeps_null hd hP.1 hB h
      ⟨hn, (hd.dictCall h).lookupsReturn hn⟩
  · exact fun d c hd hP hB ↦
      let ⟨d', h, hn⟩ := loses_null hd hB
      ⟨d', h, fun hP' ↦ hn hP'.1⟩
  · exact fun d c d' hd h ↦ hd.dictCall h
  · exact fun d c d' hd hP hB h ↦ keeps_fill hd hP hB h
  · exact fun d c hd hP hB ↦ loses_fill hd hP hB

/-- Eight one-letter keys whose first probes are the eight slots of a new table, each added and
deleted again. -/
def churn : List DictCall :=
  [120, 111, 99, 102, 98, 101, 122, 97].flatMap fun c ↦ [.add [c] .null, .del [c]]

/-- After `churn` the table is empty, has eight dummies and no `NULL` slot, and looking up a key
never returns. -/
theorem churn_fills_table : ∃ d, runSteps (dictCall dictHashMurmur) dictNew churn = some d ∧
    d.used = 0 ∧ ¬ d.HasNull ∧ ¬ d.fill < d.size ∧
      dictLookup d [121] (dictHashMurmur [121]) = none := by
  refine ⟨⟨8, 0, List.replicate 8 .deleted⟩, by decide +kernel, rfl, ?_, by decide, by decide⟩
  rintro ⟨i, hi, h⟩
  have : ∀ j < 8, (⟨8, 0, List.replicate 8 .deleted⟩ : Dict).slot j ≠ .empty := by decide
  exact this i hi h

end Rustyaxe
