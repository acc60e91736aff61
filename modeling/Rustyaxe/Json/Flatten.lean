import Mathlib.Data.List.Nodup
import Rustyaxe.Dict.AddOnly
import Rustyaxe.Json.Grammar

/-!
# Storing the values of a text in order

`place` is the decoder with the text and the table taken away: it goes through the values of a tree
in order, checks the depth and the path of each, and stores the scalars in a finite map.
`place_eq_some_iff` says when it succeeds and with what, `stored_eq_some_iff` reads the resulting
map back as the list of leaves, and `Holds` is what it means for a table to hold that list.
-/

set_option autoImplicit false

namespace Rustyaxe

/-- The finite map that `Dict.toMap` reads a table as. -/
abbrev DictMap := CStr → Option DictValue

/-! ## Storing a list of entries -/

/-- Store the entries in order. -/
def stored (m : DictMap) (ls : List (CStr × DictValue)) : DictMap :=
  ls.foldl (fun m l ↦ Function.update m l.1 (some l.2)) m

@[simp] theorem stored_nil (m : DictMap) : stored m [] = m := rfl

@[simp] theorem stored_cons (m : DictMap) (l : CStr × DictValue) (ls : List (CStr × DictValue)) :
    stored m (l :: ls) = stored (Function.update m l.1 (some l.2)) ls := rfl

theorem stored_eq_some_iff {ls : List (CStr × DictValue)} (hnd : (ls.map Prod.fst).Nodup)
    {m : DictMap} (hm : ∀ l ∈ ls, m l.1 = none) {k : CStr} {x : DictValue} :
    stored m ls k = some x ↔ m k = some x ∨ (k, x) ∈ ls := by
  induction ls generalizing m with
  | nil => simp
  | cons l ls ih =>
    rw [List.map_cons, List.nodup_cons] at hnd
    have hl : ∀ y, (l.1, y) ∉ ls := fun y hy ↦ hnd.1 (List.mem_map.mpr ⟨_, hy, rfl⟩)
    rw [stored_cons, ih hnd.2]
    · by_cases hk : k = l.1
      · subst hk
        rw [Function.update_self, hm l List.mem_cons_self]
        simp [hl x, Prod.ext_iff, eq_comm]
      · rw [Function.update_of_ne hk]
        simp [Prod.ext_iff, hk]
    · intro l' hl'
      rw [Function.update_of_ne fun he ↦ hnd.1 (List.mem_map.mpr ⟨l', hl', he⟩)]
      exact hm l' (List.mem_cons_of_mem _ hl')

theorem update_some_eq_none {m : DictMap} {p q : CStr} {x : DictValue} :
    Function.update m p (some x) q = none ↔ q ≠ p ∧ m q = none := by
  by_cases h : q = p
  · simp [h]
  · simp [h]

/-! ## Storing the values of a tree -/

section Place

variable (strtod : CStr → UInt64 × CStr × Bool)

/-- Check and store the visits in order. -/
def place (m : DictMap) : List Visit → Option DictMap
  | [] => some m
  | v :: vs =>
    if v.depth > jsonMaxDepth ∨ m v.path ≠ none then none
    else
      match v.scalar with
      | none => place m vs
      | some c => (c.value strtod).bind fun x ↦ place (Function.update m v.path (some x)) vs

variable {strtod}

theorem place_append (m : DictMap) (us vs : List Visit) :
    place strtod m (us ++ vs) = (place strtod m us).bind fun m' ↦ place strtod m' vs := by
  induction us generalizing m with
  | nil => rfl
  | cons u us ih =>
    rw [List.cons_append, place, place]
    split
    · rfl
    · cases u.scalar with
      | none => exact ih m
      | some c => simp only [ih, Option.bind_assoc]

theorem place_cons_eq_some {m m' : DictMap} {v : Visit} {vs : List Visit} :
    place strtod m (v :: vs) = some m' ↔ v.depth ≤ jsonMaxDepth ∧ m v.path = none ∧
      match v.scalar with
      | none => place strtod m vs = some m'
      | some c => ∃ x, c.value strtod = some x ∧
          place strtod (Function.update m v.path (some x)) vs = some m' := by
  rw [place]
  by_cases h : v.depth > jsonMaxDepth ∨ m v.path ≠ none
  · rw [if_pos h]
    refine iff_of_false (by simp) fun hc ↦ ?_
    rcases h with h | h
    · exact absurd hc.1 (by omega)
    · exact h hc.2.1
  · rw [if_neg h]
    rw [not_or, not_lt, not_not] at h
    cases v.scalar with
    | none => simp [h]
    | some c => simp [h, Option.bind_eq_some_iff]

theorem Visit.leaf_eq_some {v : Visit} {l : CStr × DictValue} :
    v.leaf strtod = some l ↔ l.1 = v.path ∧ ∃ c, v.scalar = some c ∧ c.value strtod = some l.2 := by
  obtain ⟨k, x⟩ := l
  simp only [Visit.leaf, Option.bind_eq_some_iff, Option.map_eq_some_iff, Prod.mk.injEq]
  constructor
  · rintro ⟨c, hc, x', hx, rfl, rfl⟩
    exact ⟨rfl, c, hc, hx⟩
  · rintro ⟨rfl, c, hc, hx⟩
    exact ⟨c, hc, x, hx, rfl, rfl⟩

/-- **When storing in order succeeds**: the depths and the values are fine, and no path is taken,
neither in the map at the start nor by a scalar that comes before. -/
theorem place_eq_some_iff {m m' : DictMap} {vs : List Visit} :
    place strtod m vs = some m' ↔ (∀ v ∈ vs, v.depth ≤ jsonMaxDepth) ∧
      (∀ v ∈ vs, ∀ c, v.scalar = some c → c.value strtod ≠ none) ∧
      (∀ v ∈ vs, m v.path = none) ∧
      (vs.Pairwise fun u v ↦ u.scalar ≠ none → v.path ≠ u.path) ∧
      m' = stored m (vs.filterMap (Visit.leaf strtod)) := by
  induction vs generalizing m with
  | nil => simp [place, eq_comm]
  | cons v vs ih =>
    rw [place_cons_eq_some]
    simp only [List.forall_mem_cons, List.pairwise_cons]
    cases hv : v.scalar with
    | none =>
      have hleaf : v.leaf strtod = none := by rw [Visit.leaf, hv]; rfl
      rw [List.filterMap_cons_none hleaf]
      simp only [ih]
      simp
      tauto
    | some c =>
      cases hx : c.value strtod with
      | none => simp [hx]
      | some x =>
        have hleaf : v.leaf strtod = some (v.path, x) := by rw [Visit.leaf, hv]; simp [hx]
        rw [List.filterMap_cons_some hleaf, stored_cons]
        simp only [Option.some_inj, ih, update_some_eq_none, forall_and]
        simp [hx]
        tauto

end Place

/-! ## What the table holds -/

/-- The table has exactly one entry for each of the `ls`, under its key and with its value. -/
def Holds (d : Dict) (ls : List (CStr × DictValue)) : Prop :=
  (d.entries.map fun kp ↦ (kp.key, kp.value)).Perm ls

theorem Coherent.toMap_eq_some_iff {dictHash : CStr → UInt32} {d : Dict} (hd : Coherent dictHash d)
    {k : CStr} {x : DictValue} :
    d.toMap k = some x ↔ (k, x) ∈ d.entries.map fun kp ↦ (kp.key, kp.value) := by
  rw [Dict.toMap, Option.map_eq_some_iff, List.mem_map]
  constructor
  · rintro ⟨kp, hkp, rfl⟩
    exact ⟨kp, List.mem_of_find?_eq_some hkp, by rw [Dict.entryOf_key hkp]⟩
  · rintro ⟨kp, hkp, heq⟩
    obtain ⟨rfl, rfl⟩ := Prod.mk.inj heq
    obtain ⟨i, hi⟩ := Dict.mem_entries.mp hkp
    exact ⟨kp, hd.entryOf_of_slot hi, rfl⟩

/-- A table whose map is that of a list of entries with distinct keys holds the list. -/
theorem Coherent.holds {dictHash : CStr → UInt32} {d : Dict} (hd : Coherent dictHash d)
    {ls : List (CStr × DictValue)} (hnd : (ls.map Prod.fst).Nodup)
    (hmap : d.toMap = stored (fun _ ↦ none) ls) : Holds d ls := by
  refine (List.perm_ext_iff_of_nodup ?_ (List.Nodup.of_map _ hnd)).mpr fun ⟨k, x⟩ ↦ ?_
  · refine List.Nodup.of_map Prod.fst ?_
    rw [List.map_map]
    exact hd.nodup_entries
  · rw [← hd.toMap_eq_some_iff, hmap, stored_eq_some_iff hnd (fun _ _ ↦ rfl)]
    simp

end Rustyaxe
