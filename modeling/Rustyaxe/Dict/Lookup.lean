import Mathlib.Data.Nat.Bitwise
import Rustyaxe.Dict.Table
import Rustyaxe.Lib.FullCycle

/-!
# What `dict_lookup` finds

`dict_lookup` is `ProbeSearch.search` along the probe sequence `probeIndex`
(`dictLookup_eq_search`).  The hash perturbs the sequence only until it has been shifted out; from
the eighth step on it is `i ↦ 5 * i + 1` modulo the size of the table, which has full period when
that is a power of two.  So a lookup looks at every slot (`probeIndex_cover`) and goes round
forever exactly when no slot is `NULL` and none holds the key (`dictLookup_eq_none_iff`).
-/

set_option autoImplicit false

namespace Rustyaxe

open ProbeSearch

/-- The slot `dict_lookup` looks at in its `n`-th step, in a table of `size` slots. -/
def probeIndex (size hash : ℕ) : ℕ → ℕ
  | 0 => hash &&& (size - 1)
  | n + 1 =>
    let i := probeIndex size hash n
    ((i <<< 2) + i + (hash >>> (perturbShift * n)) + 1) &&& (size - 1)

theorem dictLookupLoop_eq_search (d : Dict) (key : CStr) (hash : UInt32) :
    ∀ (fuel n : ℕ) (free : Option ℕ),
      dictLookupLoop d key hash fuel (probeIndex d.size hash.toNat n)
          (hash.toNat >>> (perturbShift * n)) free
        = search d.slot (keyMatches key hash) (probeIndex d.size hash.toNat) fuel (n + 1) free
  | 0, _, _ => rfl
  | fuel + 1, n, free => by
    have hshift : hash.toNat >>> (perturbShift * n) >>> perturbShift
        = hash.toNat >>> (perturbShift * (n + 1)) := by
      rw [← Nat.shiftRight_add, Nat.mul_succ]
    have hi : ((probeIndex d.size hash.toNat n <<< 2) + probeIndex d.size hash.toNat n
        + (hash.toNat >>> (perturbShift * n)) + 1) &&& (d.size - 1)
          = probeIndex d.size hash.toNat (n + 1) := rfl
    rw [dictLookupLoop, search]
    simp only [hi, hshift]
    cases d.slot (probeIndex d.size hash.toNat (n + 1)) with
    | empty => rfl
    | deleted => exact dictLookupLoop_eq_search d key hash fuel (n + 1) _
    | full ep =>
      dsimp only
      split
      · rfl
      · exact dictLookupLoop_eq_search d key hash fuel (n + 1) _

/-- `dict_lookup` is a walk along `probeIndex`. -/
theorem dictLookup_eq_search (d : Dict) (key : CStr) (hash : UInt32) :
    dictLookup d key hash
      = search d.slot (keyMatches key hash) (probeIndex d.size hash.toNat) (d.size + 8) 0 none := by
  have hloop := dictLookupLoop_eq_search d key hash (d.size + 7) 0
  simp only [Nat.mul_zero, Nat.shiftRight_zero] at hloop
  have h0 : probeIndex d.size hash.toNat 0 = hash.toNat &&& (d.size - 1) := rfl
  rw [dictLookup, search, h0]
  cases d.slot (hash.toNat &&& (d.size - 1)) with
  | empty => rfl
  | deleted => exact hloop _
  | full ep =>
    dsimp only
    split
    · rfl
    · exact hloop _

/-! ## The probe sequence -/

section Cover

variable {size k : ℕ}

theorem and_sub_one_eq_mod (hsize : size = 2 ^ k) (i : ℕ) : i &&& (size - 1) = i % size := by
  rw [hsize, Nat.and_two_pow_sub_one_eq_mod]

theorem probeIndex_lt (hsize : size = 2 ^ k) (hash n : ℕ) : probeIndex size hash n < size := by
  have hpos : 0 < size := hsize ▸ Nat.two_pow_pos k
  cases n with
  | zero => rw [probeIndex, and_sub_one_eq_mod hsize]; exact Nat.mod_lt _ hpos
  | succ n => rw [probeIndex, and_sub_one_eq_mod hsize]; exact Nat.mod_lt _ hpos

/-- The 32-bit arithmetic of the source computes the same index: the sum may wrap, but the size of
the table divides `2 ^ 32`. -/
theorem lookupIndex_wrap (hsize : size = 2 ^ k) (hk : k ≤ 32) (i : ℕ) :
    (i % 2 ^ 32) &&& (size - 1) = i &&& (size - 1) := by
  rw [and_sub_one_eq_mod hsize, and_sub_one_eq_mod hsize, hsize,
    Nat.mod_mod_of_dvd _ (Nat.pow_dvd_pow 2 hk)]

/-- Once the hash is shifted out, the sequence is a linear congruential generator. -/
theorem probeIndex_succ_of_le (hsize : size = 2 ^ k) (hash : UInt32) {n : ℕ} (hn : 7 ≤ n) :
    probeIndex size hash.toNat (n + 1)
      = FullCycle.affine 5 1 (probeIndex size hash.toNat n) % size := by
  have hlt : hash.toNat < 2 ^ (perturbShift * n) :=
    lt_of_lt_of_le hash.toNat_lt (Nat.pow_le_pow_right (by omega) (by rw [perturbShift]; omega))
  rw [probeIndex, and_sub_one_eq_mod hsize, Nat.shiftRight_eq_div_pow hash.toNat,
    Nat.div_eq_of_lt hlt, Nat.shiftLeft_eq]
  congr 1
  rw [FullCycle.affine]
  omega

theorem probeIndex_iterate (hsize : size = 2 ^ k) (hash : UInt32) : ∀ n,
    probeIndex size hash.toNat (7 + n)
      = (fun y ↦ FullCycle.affine 5 1 y % size)^[n] (probeIndex size hash.toNat 7)
  | 0 => rfl
  | n + 1 => by
    rw [Function.iterate_succ_apply', ← probeIndex_iterate hsize hash n, ← Nat.add_assoc,
      probeIndex_succ_of_le hsize hash (by omega)]

/-- **A lookup looks at every slot of its table.** -/
theorem probeIndex_cover (hsize : size = 2 ^ k) (hash : UInt32) {i : ℕ} (hi : i < size) :
    ∃ n < size + 8, probeIndex size hash.toNat n = i := by
  obtain ⟨n, hn, hmod⟩ := FullCycle.full_cycle (a := 5) (c := 1) rfl odd_one
    (probeIndex size hash.toNat 7) i k
  refine ⟨7 + n, by omega, ?_⟩
  have hlt : probeIndex size hash.toNat (7 + n) < size := probeIndex_lt hsize _ _
  rw [← Nat.mod_eq_of_lt hlt, probeIndex_iterate hsize, FullCycle.iterate_mod]
  rw [← hsize, Nat.ModEq] at hmod
  rw [hmod, Nat.mod_eq_of_lt hi]

end Cover

/-! ## Slots -/

namespace Dict

variable (d : Dict)

theorem slot_eq_empty_of_le {i : ℕ} (hi : d.size ≤ i) : d.slot i = .empty := by
  rw [slot, List.getD_eq_getElem?_getD, List.getElem?_eq_none hi, Option.getD_none]

theorem slot_eq_getElem {i : ℕ} (hi : i < d.table.length) : d.slot i = d.table[i] := by
  rw [slot, List.getD_eq_getElem?_getD, List.getElem?_eq_getElem hi, Option.getD_some]

theorem lt_size_of_slot {i : ℕ} (h : d.slot i ≠ .empty) : i < d.size := by
  by_contra hi
  exact h (d.slot_eq_empty_of_le (Nat.le_of_not_lt hi))

theorem lt_size_of_full {i : ℕ} {kp : Keypair} (h : d.slot i = .full kp) : i < d.size :=
  d.lt_size_of_slot (by simp [h])

theorem mem_table_iff {s : Slot} : s ∈ d.table ↔ ∃ i < d.size, d.slot i = s := by
  rw [List.mem_iff_getElem]
  constructor
  · rintro ⟨i, hi, rfl⟩
    exact ⟨i, hi, d.slot_eq_getElem hi⟩
  · rintro ⟨i, hi, rfl⟩
    exact ⟨i, hi, (d.slot_eq_getElem hi).symm⟩

/-- Writing slot `i` of a table. -/
theorem slot_set {d' : Dict} {i : ℕ} {s : Slot} (ht : d'.table = d.table.set i s)
    (hi : i < d.size) (j : ℕ) : d'.slot j = if j = i then s else d.slot j := by
  rw [slot, ht, List.getD_eq_getElem?_getD, List.getElem?_set]
  by_cases hj : i = j
  · subst hj
    have hi' : i < d.table.length := hi
    simp [hi']
  · rw [if_neg hj, if_neg (Ne.symm hj), slot, List.getD_eq_getElem?_getD]

/-- The table has a `NULL` slot. -/
def HasNull : Prop := ∃ i < d.size, d.slot i = .empty

end Dict

/-! ## When a lookup returns -/

section Returns

variable {d : Dict} {k : ℕ} (hsize : d.size = 2 ^ k)
include hsize

/-- **`dict_lookup` goes round forever** exactly when the table offers it nothing to stop at.  More
fuel would not help it: the right-hand side does not mention any. -/
theorem dictLookup_eq_none_iff (key : CStr) (hash : UInt32) :
    dictLookup d key hash = none ↔
      ∀ i < d.size, d.slot i ≠ .empty ∧
        ∀ ep, d.slot i = .full ep → keyMatches key hash ep = false := by
  rw [dictLookup_eq_search, search_eq_none_iff]
  constructor
  · intro h i hi
    obtain ⟨n, hn, rfl⟩ := probeIndex_cover hsize hash hi
    have := h n hn
    rwa [Nat.zero_add] at this
  · intro h n _
    exact h _ (probeIndex_lt hsize _ _)

theorem dictLookup_isSome_of_hasNull (h : d.HasNull) (key : CStr) (hash : UInt32) :
    ∃ i, dictLookup d key hash = some i := by
  obtain ⟨i, hi, hnull⟩ := h
  rw [← Option.ne_none_iff_exists']
  intro hnone
  exact ((dictLookup_eq_none_iff hsize key hash).mp hnone i hi).1 hnull

theorem dictLookup_lt {key : CStr} {hash : UInt32} {i : ℕ} (h : dictLookup d key hash = some i) :
    i < d.size := by
  rw [dictLookup_eq_search] at h
  rcases search_eq_some (by omega) (by simp) h with ⟨a, ha, -⟩ | ⟨-, n, rfl, -⟩
  · exact d.lt_size_of_slot (by simp [ha])
  · exact probeIndex_lt hsize _ _

end Returns

/-- What `dict_lookup` returns: a slot that holds the key, or a free slot on the key's path. -/
theorem dictLookup_eq_some {d : Dict} {key : CStr} {hash : UInt32} {i : ℕ}
    (h : dictLookup d key hash = some i) :
    (∃ ep, d.slot i = .full ep ∧ keyMatches key hash ep = true) ∨
      ((d.slot i = .empty ∨ d.slot i = .deleted) ∧
        OnPath d.slot (probeIndex d.size hash.toNat) i) := by
  rw [dictLookup_eq_search] at h
  exact search_eq_some (by omega) (by simp) h

end Rustyaxe
