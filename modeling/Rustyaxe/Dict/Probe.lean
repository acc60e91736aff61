import Rustyaxe.Dict.Lookup

/-!
# The probe sequence in 32 bits

`dict_lookup` computes with `unsigned`, so the sum that gives the next slot may wrap before it is
masked.  `dictLookup32` is `dict_lookup` with that arithmetic, and `probe` the sequence of slots it
looks at, as a recurrence modulo the size of the table.

The size divides `2 ^ 32`, so the sequence is `probeIndex` all the same (`probe_toNat`), and looks
at every slot.
-/

set_option autoImplicit false

namespace Rustyaxe

open ProbeSearch

/-! ## The code -/

/-- The `for` loop of `dict_lookup`, for at most so many rounds. -/
def dictLookupLoop32 (d : Dict) (key : CStr) (hash : UInt32) :
    (fuel : ℕ) → (i perturb : UInt32) → (freeslot : Option UInt32) → Option UInt32
  | 0, _, _, _ => none
  | fuel + 1, i, perturb, freeslot =>
    let i := ((i <<< 2) + i + perturb + 1) &&& (UInt32.ofNat d.size - 1)
    match d.slot i.toNat with
    | .empty => some (freeslot.getD i)
    | .deleted => dictLookupLoop32 d key hash fuel i (perturb >>> 5) (freeslot.or (some i))
    | .full ep =>
      if keyMatches key hash ep then some i
      else dictLookupLoop32 d key hash fuel i (perturb >>> 5) freeslot

/-- `dict_lookup`, for at most so many rounds of its loop. -/
def dictLookup32 (d : Dict) (key : CStr) (hash : UInt32) (fuel : ℕ) : Option UInt32 :=
  let i := hash &&& (UInt32.ofNat d.size - 1)
  match d.slot i.toNat with
  | .empty => some i
  | .deleted => dictLookupLoop32 d key hash fuel i hash (some i)
  | .full ep =>
    if keyMatches key hash ep then some i else dictLookupLoop32 d key hash fuel i hash none

/-! ## The sequence -/

/-- The slot and the perturbation, step by step. -/
def probe (size hash : UInt32) : ℕ → UInt32 × UInt32
  | 0 => (hash % size, hash)
  | n + 1 =>
    let (i, perturb) := probe size hash n
    ((5 * i + perturb + 1) % size, perturb >>> 5)

theorem probe_snd (size hash : UInt32) (n : ℕ) :
    (probe size hash n).2.toNat = hash.toNat >>> (perturbShift * n) := by
  induction n with
  | zero => rfl
  | succ n ih =>
    rw [Nat.mul_succ, Nat.shiftRight_add, ← ih]
    rfl

section Arithmetic

variable {size : UInt32} {k : ℕ} (hsize : size.toNat = 2 ^ k)
include hsize

/-- The mask takes the remainder. -/
theorem mask_eq_mod (x : UInt32) : x &&& (size - 1) = x % size := by
  have hone : (1 : UInt32) ≤ size := by
    rw [UInt32.le_iff_toNat_le, UInt32.toNat_one, hsize]
    exact Nat.one_le_two_pow
  rw [← UInt32.toNat_inj, UInt32.toNat_and, UInt32.toNat_sub_of_le _ _ hone, UInt32.toNat_one,
    and_sub_one_eq_mod hsize, UInt32.toNat_mod]

/-- The next slot of `dict_lookup` is the next of the sequence. -/
theorem nextSlot_eq (i perturb : UInt32) :
    ((i <<< 2) + i + perturb + 1) &&& (size - 1) = (5 * i + perturb + 1) % size := by
  have hshift : (i <<< 2) + i = 5 * i := by
    rw [← UInt32.toNat_inj]
    simp only [UInt32.toNat_add, UInt32.toNat_shiftLeft, UInt32.toNat_mul, Nat.shiftLeft_eq,
      UInt32.reduceToNat, Nat.reduceMod, Nat.reducePow]
    omega
  rw [mask_eq_mod hsize, hshift]

/-- **Wrapping does not change the sequence.** -/
theorem probe_toNat (hash : UInt32) (n : ℕ) :
    (probe size hash n).1.toNat = probeIndex size.toNat hash.toNat n := by
  have hk : k ≤ 32 := by
    by_contra hgt
    have hlt := size.toNat_lt
    rw [hsize] at hlt
    exact absurd (Nat.pow_lt_pow_iff_right (by decide) |>.mp hlt) (by omega)
  induction n with
  | zero => rw [probe, probeIndex, UInt32.toNat_mod, and_sub_one_eq_mod hsize]
  | succ n ih =>
    rw [probe, probeIndex, ← ih, ← probe_snd size, ← lookupIndex_wrap hsize hk,
      and_sub_one_eq_mod hsize, UInt32.toNat_mod]
    simp only [UInt32.toNat_add, UInt32.toNat_mul, Nat.shiftLeft_eq, UInt32.reduceToNat]
    congr 1
    omega

end Arithmetic

/-! ## Lookups -/

section Lookup

variable {d : Dict} {k : ℕ} (hsize : d.size = 2 ^ k) (hk : k ≤ 31)
include hsize hk

theorem toNat_ofNat_size : (UInt32.ofNat d.size).toNat = d.size := by
  refine UInt32.toNat_ofNat_of_lt' ?_
  rw [hsize]
  exact Nat.pow_lt_pow_right (by decide) (Nat.lt_succ_of_le hk)

theorem probe_size (hash : UInt32) (n : ℕ) :
    (probe (UInt32.ofNat d.size) hash n).1.toNat = probeIndex d.size hash.toNat n := by
  have hnat := toNat_ofNat_size hsize hk
  rw [probe_toNat (hnat.trans hsize), hnat]

/-- The loop of `dict_lookup` walks along the sequence. -/
theorem dictLookupLoop32_eq_search (key : CStr) (hash : UInt32) (fuel n : ℕ)
    (free : Option UInt32) :
    (dictLookupLoop32 d key hash fuel (probe (UInt32.ofNat d.size) hash n).1
        (probe (UInt32.ofNat d.size) hash n).2 free).map UInt32.toNat =
      search d.slot (keyMatches key hash) (probeIndex d.size hash.toNat) fuel (n + 1)
        (free.map UInt32.toNat) := by
  induction fuel generalizing n free with
  | zero => rfl
  | succ fuel ih =>
    have hnext := nextSlot_eq ((toNat_ofNat_size hsize hk).trans hsize)
      (probe (UInt32.ofNat d.size) hash n).1 (probe (UInt32.ofNat d.size) hash n).2
    have hslot : (5 * (probe (UInt32.ofNat d.size) hash n).1 +
        (probe (UInt32.ofNat d.size) hash n).2 + 1) % UInt32.ofNat d.size =
          (probe (UInt32.ofNat d.size) hash (n + 1)).1 := rfl
    have hperturb : (probe (UInt32.ofNat d.size) hash n).2 >>> 5 =
        (probe (UInt32.ofNat d.size) hash (n + 1)).2 := rfl
    rw [dictLookupLoop32, search, hnext, hslot, hperturb]
    simp only [probe_size hsize hk]
    cases d.slot (probeIndex d.size hash.toNat (n + 1)) with
    | empty =>
      cases free with
      | none => exact congrArg some (probe_size hsize hk hash (n + 1))
      | some f => rfl
    | deleted =>
      rw [ih]
      cases free with
      | none => rw [← probe_size hsize hk]; rfl
      | some f => rfl
    | full ep =>
      dsimp only
      split
      · exact congrArg some (probe_size hsize hk hash (n + 1))
      · exact ih (n + 1) free

theorem dictLookup32_eq_search (key : CStr) (hash : UInt32) (fuel : ℕ) :
    (dictLookup32 d key hash fuel).map UInt32.toNat =
      search d.slot (keyMatches key hash) (probeIndex d.size hash.toNat) (fuel + 1) 0 none := by
  have hloop := dictLookupLoop32_eq_search hsize hk key hash fuel 0
  have hfirst := mask_eq_mod ((toNat_ofNat_size hsize hk).trans hsize) hash
  have hslot : hash % UInt32.ofNat d.size = (probe (UInt32.ofNat d.size) hash 0).1 := rfl
  have hperturb : (probe (UInt32.ofNat d.size) hash 0).2 = hash := rfl
  rw [hperturb] at hloop
  rw [dictLookup32, search, hfirst, hslot]
  simp only [probe_size hsize hk]
  cases d.slot (probeIndex d.size hash.toNat 0) with
  | empty => exact congrArg some (probe_size hsize hk hash 0)
  | deleted =>
    rw [hloop, ← probe_size hsize hk]
    rfl
  | full ep =>
    dsimp only
    split
    · exact congrArg some (probe_size hsize hk hash 0)
    · exact hloop none

/-- With as many rounds as there are slots to look at, it is the lookup of the model. -/
theorem dictLookup32_eq_dictLookup (key : CStr) (hash : UInt32) :
    (dictLookup32 d key hash (d.size + 7)).map UInt32.toNat = dictLookup d key hash := by
  rw [dictLookup32_eq_search hsize hk, dictLookup_eq_search]

end Lookup

/-- **The probe sequence covers the table**, so a lookup in a table with a `NULL` slot returns. -/
theorem probe_covers (k : ℕ) (hk : k ≤ 31) (hash : UInt32) :
    (∀ i < 2 ^ k, ∃ n, (probe (UInt32.ofNat (2 ^ k)) hash n).1.toNat = i) ∧
      ∀ d : Dict, d.size = 2 ^ k → d.HasNull → ∀ (key : CStr) (fuel : ℕ), 2 ^ k + 7 ≤ fuel →
        ∃ i, dictLookup32 d key hash fuel = some i := by
  refine ⟨fun i hi ↦ ?_, fun d hsize hnull key fuel hfuel ↦ ?_⟩
  · obtain ⟨n, -, hn⟩ := probeIndex_cover rfl hash hi
    have hsize : (UInt32.ofNat (2 ^ k)).toNat = 2 ^ k :=
      UInt32.toNat_ofNat_of_lt' (Nat.pow_lt_pow_right (by decide) (Nat.lt_succ_of_le hk))
    exact ⟨n, by rw [probe_toNat hsize, hsize, hn]⟩
  · obtain ⟨i, hi, hempty⟩ := hnull
    obtain ⟨n, hn, rfl⟩ := probeIndex_cover hsize hash hi
    rw [← Option.isSome_iff_exists, ← Option.isSome_map (f := UInt32.toNat),
      dictLookup32_eq_search hsize hk, Option.isSome_iff_ne_none]
    intro hnone
    have hpasses := search_eq_none_iff.mp hnone n (by omega)
    rw [Nat.zero_add] at hpasses
    exact hpasses.1 hempty

theorem probe_covers_eight :
    (∀ i < 2 ^ 3, ∃ n, (probe (UInt32.ofNat (2 ^ 3)) 0xffffffff n).1.toNat = i) ∧
      ∃ i, dictLookup32 dictNew (lit "key") 0xffffffff 15 = some i :=
  have h := probe_covers 3 (by decide) 0xffffffff
  ⟨h.1, h.2 dictNew rfl ⟨0, by decide, rfl⟩ (lit "key") 15 le_rfl⟩

end Rustyaxe
