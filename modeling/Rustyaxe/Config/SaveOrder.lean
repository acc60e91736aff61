import Mathlib.Data.List.Lex
import Mathlib.Data.Prod.Lex
import Rustyaxe.Config.Save

/-!
# The order of the saved entries

`cfg_save_entry_compare` is a linear order on keys, so `qsort` has only one way to sort them
(`sortedEntries`).  What the file has of the sorted entries is `files_printEntries`: an entry gets
into its own section unless it is a theme without a name, or its section is swallowed by another
one, whose name is as long and which `cfg_save_entry_same_section` cannot tell from it.
-/

set_option autoImplicit false

namespace Rustyaxe

/-! ## `strcmp` and `strchr` -/

/-- The values of the bytes of a string, in the order of which `strcmp` compares. -/
def rank (s : CStr) : List ℕ := s.map UInt8.toNat

theorem rank_injective : Function.Injective rank :=
  List.map_injective_iff.mpr fun _ _ h ↦ UInt8.toNat_inj.mp h

/-- `strcmp` compares the values of the bytes. -/
theorem strcmp_spec (s t : CStr) :
    (strcmp s t = .lt ↔ rank s < rank t) ∧ (strcmp s t = .gt ↔ rank t < rank s) ∧
      (strcmp s t = .eq ↔ s = t) := by
  fun_induction strcmp s t with
  | case1 => simp [rank]
  | case2 => simp [rank]
  | case3 => simp [rank]
  | case4 a s b t h =>
    have h' : a.toNat < b.toNat := UInt8.lt_iff_toNat_lt.mp h
    simp only [rank, List.map_cons, List.cons_lt_cons_iff, h', true_or, reduceCtorEq, false_iff,
      not_or, List.cons.injEq, not_and]
    refine ⟨trivial, ⟨by omega, by omega⟩, ?_⟩
    rintro rfl
    omega
  | case5 a s b t h h₂ =>
    have h' : b.toNat < a.toNat := UInt8.lt_iff_toNat_lt.mp h₂
    simp only [rank, List.map_cons, List.cons_lt_cons_iff, h', true_or, reduceCtorEq, false_iff,
      not_or, List.cons.injEq, not_and]
    refine ⟨⟨by omega, by omega⟩, trivial, ?_⟩
    rintro rfl
    omega
  | case6 a s b t h h₂ ih =>
    obtain rfl : a = b := UInt8.toNat_inj.mp (by
      have h1 : ¬ a.toNat < b.toNat := fun h' ↦ h (UInt8.lt_iff_toNat_lt.mpr h')
      have h2 : ¬ b.toNat < a.toNat := fun h' ↦ h₂ (UInt8.lt_iff_toNat_lt.mpr h')
      omega)
    simpa [rank, List.cons_lt_cons_iff] using ih

theorem strcmp_isLE (s t : CStr) : (strcmp s t).isLE ↔ rank s ≤ rank t := by
  obtain ⟨hlt, hgt, heq⟩ := strcmp_spec s t
  rw [← not_lt, ← hgt]
  cases strcmp s t <;> simp

/-- Comparing a common length first, and the lengths if that decides nothing, is comparing. -/
theorem strcmp_eq_common (s t : CStr) :
    strcmp s t =
      (strcmp (s.take (min s.length t.length)) (t.take (min s.length t.length))).then
        (compare s.length t.length) := by
  fun_induction strcmp s t with
  | case1 => rfl
  | case2 b t => exact (Nat.compare_eq_lt.mpr (Nat.succ_pos t.length)).symm
  | case3 a s =>
    rw [List.length_nil, Nat.min_zero]
    exact (Nat.compare_eq_gt.mpr (Nat.succ_pos s.length)).symm
  | case4 a s b t h =>
    rw [List.length_cons, List.length_cons, Nat.succ_min_succ, List.take_succ_cons,
      List.take_succ_cons, strcmp, if_pos h]
    rfl
  | case5 a s b t h h₂ =>
    rw [List.length_cons, List.length_cons, Nat.succ_min_succ, List.take_succ_cons,
      List.take_succ_cons, strcmp, if_neg h, if_pos h₂]
    rfl
  | case6 a s b t h h₂ ih =>
    have hlen : compare (s.length + 1) (t.length + 1) = compare s.length t.length := by
      simp only [Nat.compare_eq_ite_lt, Nat.add_lt_add_iff_right]
    rw [List.length_cons, List.length_cons, Nat.succ_min_succ, List.take_succ_cons,
      List.take_succ_cons, strcmp, if_neg h, if_neg h₂, hlen]
    exact ih

/-! ## The order of the entries -/

/-- The place of an entry in the file: first the keys without a section, then by section. -/
def SaveEntry.sortKey (e : SaveEntry) : Bool ×ₗ (List ℕ ×ₗ List ℕ) :=
  match strchr colon e.key with
  | none => toLex (false, toLex ([], rank e.key))
  | some n => toLex (true, toLex (rank (e.key.take n), rank (e.key.drop (n + 1))))

/-- **`cfg_save_entry_compare`** compares the sections and then the rest of the keys. -/
theorem cfgSaveEntryCompare_isLE (a b : SaveEntry) :
    (cfgSaveEntryCompare a b).isLE ↔ a.sortKey ≤ b.sortKey := by
  rw [cfgSaveEntryCompare, SaveEntry.sortKey, SaveEntry.sortKey]
  cases ha : strchr colon a.key with
  | none =>
    cases hb : strchr colon b.key with
    | none => simp [Prod.Lex.toLex_le_toLex, strcmp_isLE]
    | some n => simp [Prod.Lex.toLex_le_toLex]
  | some m =>
    cases hb : strchr colon b.key with
    | none => simp [Prod.Lex.toLex_le_toLex]
    | some n =>
      have hm := (strchr_lt ha).le
      have hn := (strchr_lt hb).le
      have hcommon := strcmp_eq_common (a.key.take m) (b.key.take n)
      rw [List.length_take_of_le hm, List.length_take_of_le hn, List.take_take, List.take_take,
        min_eq_left (min_le_left m n), min_eq_left (min_le_right m n),
        Nat.compare_eq_ite_lt] at hcommon
      have hthen : (if strcmp (a.key.take (min m n)) (b.key.take (min m n)) ≠ .eq then
            strcmp (a.key.take (min m n)) (b.key.take (min m n))
          else if m ≠ n then if m < n then .lt else .gt
          else strcmp (a.key.drop (m + 1)) (b.key.drop (n + 1)))
            = (strcmp (a.key.take m) (b.key.take n)).then
              (strcmp (a.key.drop (m + 1)) (b.key.drop (n + 1))) := by
        rw [hcommon]
        cases strcmp (a.key.take (min m n)) (b.key.take (min m n)) with
        | lt => rfl
        | gt => rfl
        | eq =>
          rcases Nat.lt_trichotomy m n with h | rfl | h
          · simp [h, h.ne]
          · simp
          · simp [h, h.ne', h.not_gt]
      simp only [hthen, Prod.Lex.toLex_le_toLex, lt_self_iff_false, true_and, false_or]
      obtain ⟨hlt, hgt, heq⟩ := strcmp_spec (a.key.take m) (b.key.take n)
      rw [← hlt, rank_injective.eq_iff, ← heq, ← strcmp_isLE]
      cases strcmp (a.key.take m) (b.key.take n) <;> simp

/-- The entries in the order of the file. -/
theorem sortedEntries (entries : List SaveEntry) :
    (sortEntries entries).Pairwise fun a b ↦ a.sortKey ≤ b.sortKey := by
  have htotal : Std.Total fun a b : SaveEntry ↦ (cfgSaveEntryCompare a b).isLE = true :=
    ⟨fun a b ↦ by
      rw [cfgSaveEntryCompare_isLE, cfgSaveEntryCompare_isLE]
      exact le_total _ _⟩
  have htrans : IsTrans SaveEntry fun a b ↦ (cfgSaveEntryCompare a b).isLE = true :=
    ⟨fun a b c ↦ by
      rw [cfgSaveEntryCompare_isLE, cfgSaveEntryCompare_isLE, cfgSaveEntryCompare_isLE]
      exact le_trans⟩
  exact (List.pairwise_insertionSort _ entries).imp fun h ↦ (cfgSaveEntryCompare_isLE _ _).mp h

/-! ## Sections -/

/-- What stands before the colon of a key. -/
def sectionOf (key : CStr) : Option CStr := (strchr colon key).map key.take

/-- What the keys of a section of the file start with. -/
def sectionPrefix (key : CStr) : CStr :=
  match strchr colon key with
  | none => []
  | some n =>
    if startsWith (lit "theme:") key then
      match strchr dot (key.drop 6) with
      | none => key.take (n + 1)
      | some m => key.take (6 + m + 1)
    else key.take (n + 1)

/-- The name of the section that a key is written to. -/
def savedSection (key : CStr) : CStr :=
  match strchr colon key with
  | none => lit "general"
  | some n =>
    if startsWith (lit "theme:") key then
      match strchr dot (key.drop 6) with
      | none => key.take n
      | some m => lit "theme:" ++ (key.drop 6).take m
    else if n = 8 ∧ startsWith (lit "pipeline") key then lit "pipelines"
    else key.take n

/-- Among these keys there is one whose section comes earlier, is not that of the themes and has a
name as long as the section of `key`, as have all sections in between. -/
def Swallowed (keys : CStr → Prop) (key : CStr) : Prop :=
  ∃ s, sectionOf key = some s ∧ ∃ k, keys k ∧ ∃ t, sectionOf k = some t ∧ t ≠ lit "theme" ∧
    t.length = s.length ∧ strcmp t s = .lt ∧ ∀ q, keys q → ∀ u, sectionOf q = some u →
      strcmp t u = .lt → strcmp u s = .lt → u.length = s.length

/-- A key that gets a line of its own section. -/
structure WellPlaced (keys : CStr → Prop) (key : CStr) : Prop where
  notSwallowed : ¬ Swallowed keys key
  /-- The name of a theme ends in a dot. -/
  themeName : startsWith (lit "theme:") key → (strchr dot (key.drop 6)).isSome

theorem Swallowed.of_section {keys : CStr → Prop} {key key' : CStr} (h : Swallowed keys key)
    (hsec : sectionOf key' = sectionOf key) : Swallowed keys key' := by
  rwa [Swallowed, hsec]

theorem sortKey_le_section {a b : SaveEntry} (h : a.sortKey ≤ b.sortKey) {s : CStr}
    (hs : sectionOf a.key = some s) : ∃ t, sectionOf b.key = some t ∧ ¬ strcmp t s = .lt := by
  rw [sectionOf, Option.map_eq_some_iff] at hs
  obtain ⟨m, hm, rfl⟩ := hs
  rw [SaveEntry.sortKey, SaveEntry.sortKey, hm] at h
  cases hn : strchr colon b.key with
  | none =>
    rw [hn] at h
    rcases Prod.Lex.toLex_le_toLex.mp h with h | ⟨h, -⟩
    · cases (h : true < false)
    · cases h
  | some n =>
    simp only [hn, Prod.Lex.toLex_le_toLex, lt_self_iff_false, true_and, false_or] at h
    refine ⟨b.key.take n, by simp [sectionOf, hn], ?_⟩
    rw [(strcmp_spec _ _).1, not_lt]
    rcases h with h | ⟨h, -⟩
    · exact h.le
    · exact h.le

section Groups

variable {all pre run rest : List SaveEntry} {e x : SaveEntry} {s t : CStr}

/-- The keys of the entries. -/
def keysOf (entries : List SaveEntry) : CStr → Prop := fun key ↦ key ∈ entries.map SaveEntry.key

variable (hsorted : all.Pairwise fun a b ↦ a.sortKey ≤ b.sortKey)
include hsorted

/-- Sections come in order. -/
theorem rank_section_le {before after : List SaveEntry} (hall : all = before ++ after)
    (he : e ∈ before) (hx : x ∈ after) (hs : sectionOf e.key = some s)
    (ht : sectionOf x.key = some t) : rank s ≤ rank t := by
  subst hall
  have hle := (List.pairwise_append.mp hsorted).2.2 e he x hx
  obtain ⟨u, hu, hnlt⟩ := sortKey_le_section hle hs
  obtain rfl : t = u := by simpa [ht] using hu
  rwa [(strcmp_spec _ _).1, not_lt] at hnlt

/-- A section swallows those that follow it as long as their names have its length. -/
theorem swallowed_of_run (hall : all = pre ++ e :: (run ++ rest)) (hs : sectionOf e.key = some s)
    (hne : s ≠ lit "theme")
    (hlen : ∀ y ∈ run, ∀ u, sectionOf y.key = some u → u.length = s.length) (hx : x ∈ run)
    (ht : sectionOf x.key = some t) (hts : t ≠ s) : Swallowed (keysOf all) x.key := by
  have hmem : e ∈ all := by rw [hall]; simp
  have hall₁ : all = (pre ++ [e]) ++ (run ++ rest) := by simp [hall]
  have hall₂ : all = (pre ++ e :: run) ++ rest := by simp [hall]
  have hst : rank s ≤ rank t := rank_section_le hsorted hall₁ (by simp) (by simp [hx]) hs ht
  refine ⟨t, ht, e.key, List.mem_map_of_mem hmem, s, hs, hne, (hlen x hx t ht).symm, ?_, ?_⟩
  · rw [(strcmp_spec _ _).1]
    exact lt_of_le_of_ne hst fun h ↦ hts (rank_injective h).symm
  · rintro q hq u hu hsu hut
    obtain ⟨y, hy, rfl⟩ := List.mem_map.mp hq
    rw [(strcmp_spec _ _).1] at hsu hut
    rw [hall, List.mem_append, List.mem_cons, List.mem_append] at hy
    rcases hy with hy | rfl | hy | hy
    · -- it stands before `e`
      have := rank_section_le hsorted hall hy (List.mem_cons_self) hu hs
      exact absurd hsu this.not_gt
    · obtain rfl : s = u := by simpa [hs] using hu
      exact absurd hsu (lt_irrefl _)
    · rw [hlen y hy u hu, hlen x hx t ht]
    · -- it stands after `x`
      have := rank_section_le hsorted hall₂ (by simp [hx]) hy ht hu
      exact absurd hut this.not_gt

/-- A section whose name has another length than the one before it is not swallowed. -/
theorem notSwallowed_of_length (hall : all = pre ++ e :: (run ++ x :: rest))
    (hs : sectionOf e.key = some s)
    (hlen : ∀ y ∈ run, ∀ u, sectionOf y.key = some u → u.length = s.length)
    (ht : sectionOf x.key = some t) (hts : t.length ≠ s.length) :
    ¬ Swallowed (keysOf all) x.key := by
  rintro ⟨t', ht', k, hk, u, hu, -, hulen, hut, hbetween⟩
  obtain rfl : t = t' := by simpa [ht] using ht'
  obtain ⟨y, hy, rfl⟩ := List.mem_map.mp hk
  have hmem : e.key ∈ all.map SaveEntry.key := List.mem_map_of_mem (by rw [hall]; simp)
  have hall₁ : all = (pre ++ e :: run) ++ x :: rest := by simp [hall]
  have hall₂ : all = (pre ++ e :: (run ++ [x])) ++ rest := by simp [hall]
  have hst : rank s < rank t := by
    refine lt_of_le_of_ne ?_ fun h ↦ hts (by rw [rank_injective h])
    exact rank_section_le hsorted hall₁ (by simp) (by simp) hs ht
  have hut' := (strcmp_spec _ _).1.mp hut
  rw [hall, List.mem_append, List.mem_cons, List.mem_append] at hy
  rcases hy with hy | rfl | hy | hy
  · -- the section of `e` would be in between
    have hus : rank u ≤ rank s := rank_section_le hsorted hall hy List.mem_cons_self hu hs
    have hne : rank u ≠ rank s := fun h ↦ hts (by rw [← hulen, rank_injective h])
    refine hts (hbetween e.key hmem s hs ?_ ?_).symm
    · exact (strcmp_spec _ _).1.mpr (lt_of_le_of_ne hus hne)
    · exact (strcmp_spec _ _).1.mpr hst
  · obtain rfl : s = u := by simpa [hs] using hu
    exact hts hulen.symm
  · exact hts (by rw [← hulen, hlen y hy u hu])
  · rcases List.mem_cons.mp hy with rfl | hy
    · obtain rfl : t = u := by simpa [ht] using hu
      exact absurd hut' (lt_irrefl _)
    · have := rank_section_le hsorted hall₂ (by simp) hy ht hu
      exact absurd hut' this.not_gt

/-- Nor is one after the themes, if these are not. -/
theorem notSwallowed_of_themes (hall : all = pre ++ (run ++ x :: rest)) (he : e ∈ run)
    (hthemes : ∀ y ∈ run, sectionOf y.key = some (lit "theme"))
    (hnot : ¬ Swallowed (keysOf all) e.key) : ¬ Swallowed (keysOf all) x.key := by
  rintro ⟨t, ht, k, hk, u, hu, hune, hulen, hut, hbetween⟩
  obtain ⟨y, hy, rfl⟩ := List.mem_map.mp hk
  have hmem : e.key ∈ all.map SaveEntry.key := List.mem_map_of_mem (by rw [hall]; simp [he])
  have hall₁ : all = (pre ++ run) ++ x :: rest := by simp [hall]
  have hall₂ : all = (pre ++ (run ++ [x])) ++ rest := by simp [hall]
  have hst : rank (lit "theme") ≤ rank t :=
    rank_section_le hsorted hall₁ (by simp [he]) (by simp) (hthemes e he) ht
  have hut' := (strcmp_spec _ _).1.mp hut
  rw [hall, List.mem_append, List.mem_append] at hy
  rcases hy with hy | hy | hy
  · have hus : rank u ≤ rank (lit "theme") :=
      rank_section_le hsorted hall hy (by simp [he]) hu (hthemes e he)
    have hlt : strcmp u (lit "theme") = .lt :=
      (strcmp_spec _ _).1.mpr (lt_of_le_of_ne hus fun h ↦ hune (rank_injective h))
    by_cases htheme : t = lit "theme"
    · exact hnot (Swallowed.of_section ⟨t, ht, _, hk, u, hu, hune, hulen, hut, hbetween⟩
        (by rw [hthemes e he, ht, htheme]))
    · have hlt' : strcmp (lit "theme") t = .lt :=
        (strcmp_spec _ _).1.mpr (lt_of_le_of_ne hst fun h ↦ htheme (rank_injective h).symm)
      have hthemelen := hbetween _ hmem _ (hthemes e he) hlt hlt'
      refine hnot ⟨_, hthemes e he, y.key, hk, u, hu, hune, hulen.trans hthemelen.symm, hlt, ?_⟩
      intro q hq v hv huv hvt
      rw [hthemelen]
      refine hbetween q hq v hv huv ?_
      rw [(strcmp_spec _ _).1] at hvt ⊢
      exact hvt.trans_le hst
  · obtain rfl : lit "theme" = u := by simpa [hthemes y hy] using hu
    exact hune rfl
  · rcases List.mem_cons.mp hy with rfl | hy
    · obtain rfl : t = u := by simpa [ht] using hu
      exact absurd hut' (lt_irrefl _)
    · have := rank_section_le hsorted hall₂ (by simp) hy ht hu
      exact absurd hut' this.not_gt

end Groups

/-! ## Prefixes -/

theorem append_cons_inj {c : UInt8} {s s' l l' : CStr} (hs : c ∉ s) (hs' : c ∉ s')
    (h : s ++ c :: l = s' ++ c :: l') : s = s' ∧ l = l' := by
  have hlen : s.length = s'.length := by
    have := strchr_append hs l
    rw [h, strchr_append hs'] at this
    exact (Option.some.inj this).symm
  obtain ⟨h1, h2⟩ := List.append_inj h hlen
  exact ⟨h1, (List.cons.inj h2).2⟩

theorem sectionOf_append {s : CStr} (hs : colon ∉ s) (l : CStr) :
    sectionOf (s ++ colon :: l) = some s := by
  rw [sectionOf, strchr_append hs, Option.map_some, List.take_left]

theorem startsWith_iff {p s : CStr} : startsWith p s = true ↔ ∃ l, s = p ++ l := by
  rw [startsWith, List.isPrefixOf_iff_prefix]
  exact ⟨fun ⟨l, h⟩ ↦ ⟨l, h.symm⟩, fun ⟨l, h⟩ ↦ ⟨l, h.symm⟩⟩

theorem startsWith_theme_iff {s : CStr} (hs : colon ∉ s) (l : CStr) :
    startsWith (lit "theme:") (s ++ colon :: l) = true ↔ s = lit "theme" := by
  rw [startsWith_iff]
  constructor
  · rintro ⟨l', h⟩
    have htheme : colon ∉ lit "theme" := by decide
    exact (append_cons_inj hs htheme h).1
  · rintro rfl
    exact ⟨l, rfl⟩

theorem take_section (s l : CStr) : (s ++ colon :: l).take (s.length + 1) = s ++ [colon] := by
  rw [show s ++ colon :: l = s ++ [colon] ++ l by simp]
  exact List.take_left' (by simp)

theorem sectionPrefix_of_ne {s : CStr} (hs : colon ∉ s) (hne : s ≠ lit "theme") (l : CStr) :
    sectionPrefix (s ++ colon :: l) = s ++ [colon] := by
  have htheme : ¬ startsWith (lit "theme:") (s ++ colon :: l) = true :=
    fun h ↦ hne ((startsWith_theme_iff hs l).mp h)
  rw [sectionPrefix, strchr_append hs]
  dsimp only
  rw [if_neg htheme, take_section]

theorem sectionPrefix_theme {name : CStr} (hname : dot ∉ name) (l : CStr) :
    sectionPrefix (lit "theme:" ++ (name ++ dot :: l)) = lit "theme:" ++ (name ++ [dot]) := by
  have hcolon : strchr colon (lit "theme:" ++ (name ++ dot :: l)) = some 5 :=
    strchr_append (s := lit "theme") (by decide) _
  have htheme : startsWith (lit "theme:") (lit "theme:" ++ (name ++ dot :: l)) = true :=
    startsWith_iff.mpr ⟨_, rfl⟩
  have hdrop : (lit "theme:" ++ (name ++ dot :: l)).drop 6 = name ++ dot :: l := rfl
  rw [sectionPrefix, hcolon]
  dsimp only
  rw [if_pos htheme, hdrop, strchr_append hname]
  have hsplit : lit "theme:" ++ (name ++ dot :: l) = (lit "theme:" ++ (name ++ [dot])) ++ l := by
    simp
  have hlen : 6 + name.length + 1 = (lit "theme:" ++ (name ++ [dot])).length := by
    rw [List.length_append, List.length_append, List.length_singleton, ← Nat.add_assoc]
    rfl
  dsimp only
  rw [hsplit, hlen, List.take_left]

theorem savedSection_theme {name : CStr} (hname : dot ∉ name) (l : CStr) :
    savedSection (lit "theme:" ++ (name ++ dot :: l)) = lit "theme:" ++ name := by
  have hcolon : strchr colon (lit "theme:" ++ (name ++ dot :: l)) = some 5 :=
    strchr_append (s := lit "theme") (by decide) _
  have hdrop : (lit "theme:" ++ (name ++ dot :: l)).drop 6 = name ++ dot :: l := rfl
  rw [savedSection, hcolon]
  dsimp only
  rw [if_pos (startsWith_iff.mpr ⟨_, rfl⟩), hdrop, strchr_append hname]
  dsimp only
  rw [List.take_left]

/-! ## The pieces -/

/-- The line of an entry in the section with this prefix. -/
def lineIn (keyPrefix : CStr) (entry : SaveEntry) : SavePiece :=
  .setting keyPrefix entry.key (entry.key.drop keyPrefix.length) entry.value

/-- Every line stands below the header of its section, where `keyPrefix` is that of the pieces
before. -/
def UnderOwn : (keyPrefix : CStr) → List SavePiece → Prop
  | _, [] => True
  | _, .header keyPrefix _ :: rest => UnderOwn keyPrefix rest
  | keyPrefix, .setting keyPrefix' _ _ _ :: rest => keyPrefix' = keyPrefix ∧ UnderOwn keyPrefix rest
  | keyPrefix, .blank :: rest => UnderOwn keyPrefix rest
  | keyPrefix, .output _ :: rest => UnderOwn keyPrefix rest

theorem UnderOwn.append {rest : List SavePiece} (hrest : ∀ keyPrefix, UnderOwn keyPrefix rest)
    {pieces : List SavePiece} {keyPrefix : CStr} (h : UnderOwn keyPrefix pieces) :
    UnderOwn keyPrefix (pieces ++ rest) := by
  induction pieces generalizing keyPrefix with
  | nil => exact hrest _
  | cons p pieces ih =>
    cases p with
    | header => exact ih h
    | setting => exact ⟨h.1, ih h.2⟩
    | blank => exact ih h
    | output => exact ih h

theorem UnderOwn.lines {keyPrefix : CStr} {rest : List SavePiece} (hrest : UnderOwn keyPrefix rest) :
    ∀ entries : List SaveEntry, UnderOwn keyPrefix (entries.map (lineIn keyPrefix) ++ rest)
  | [] => hrest
  | _ :: entries => ⟨rfl, UnderOwn.lines hrest entries⟩

/-- The pieces hold lines of these entries only, below the headers of their sections.  Each reads as
the line of a key that is well placed, and an entry that is well placed has a line of its own. -/
structure Files (all entries : List SaveEntry) (pieces : List SavePiece) : Prop where
  sound : ∀ keyPrefix key localKey value, .setting keyPrefix key localKey value ∈ pieces →
    ∃ x ∈ entries, x.key = key ∧ x.value = value ∧ localKey = key.drop keyPrefix.length ∧
      WellPlaced (keysOf all) (keyPrefix ++ localKey) ∧
        (WellPlaced (keysOf all) key → keyPrefix = sectionPrefix key)
  complete : ∀ x ∈ entries, WellPlaced (keysOf all) x.key →
    lineIn (sectionPrefix x.key) x ∈ pieces ∧
      .header (sectionPrefix x.key) (savedSection x.key) ∈ pieces
  headers : ∀ keyPrefix name, .header keyPrefix name ∈ pieces →
    (keyPrefix = [] ∧ name = lit "general") ∨
      ∃ x ∈ entries, keyPrefix = sectionPrefix x.key ∧ name = savedSection x.key
  under : ∀ keyPrefix, UnderOwn keyPrefix pieces
  texts : ∀ bytes, .output bytes ∉ pieces

theorem Files.nil (all : List SaveEntry) : Files all [] [] where
  sound _ _ _ _ h := by simp at h
  complete _ h := by simp at h
  headers _ _ h := by simp at h
  under _ := trivial
  texts _ h := by simp at h

/-- A section of the file, and the rest. -/
theorem Files.append {all rest : List SaveEntry} {e : SaveEntry} {p : SaveEntry → Bool}
    (hp : p e = true) {keyPrefix name : CStr} {pieces : List SavePiece}
    (h : Files all (rest.dropWhile p) pieces) (hkey : ∃ l, e.key = keyPrefix ++ l)
    (hwell : ∀ l, WellPlaced (keysOf all) (keyPrefix ++ l))
    (hplaced : ∀ x ∈ e :: rest.takeWhile p, WellPlaced (keysOf all) x.key →
      keyPrefix = sectionPrefix x.key ∧ name = savedSection x.key) :
    Files all (e :: rest)
      (.blank :: .header keyPrefix name :: ((e :: rest).takeWhile p).map (lineIn keyPrefix) ++
        pieces) := by
  have hsplit : e :: rest = (e :: rest.takeWhile p) ++ rest.dropWhile p := by
    rw [List.cons_append, List.takeWhile_append_dropWhile]
  rw [List.takeWhile_cons_of_pos hp]
  constructor
  case sound =>
    intro keyPrefix' key localKey value hmem
    rw [List.cons_append, List.cons_append, List.mem_cons, List.mem_cons, List.mem_append,
      List.mem_map] at hmem
    rcases hmem with hmem | hmem | ⟨x, hx, heq⟩ | hmem
    · cases hmem
    · cases hmem
    · rw [lineIn] at heq
      injection heq with h1 h2 h3 h4
      subst h1 h2 h3 h4
      exact ⟨x, hsplit ▸ List.mem_append_left _ hx, rfl, rfl, rfl, hwell _,
        fun hx' ↦ (hplaced x hx hx').1⟩
    · obtain ⟨x, hx, hrest⟩ := h.sound _ _ _ _ hmem
      exact ⟨x, hsplit ▸ List.mem_append_right _ hx, hrest⟩
  case complete =>
    intro x hx hx'
    rw [hsplit, List.mem_append] at hx
    rcases hx with hx | hx
    · obtain ⟨rfl, rfl⟩ := hplaced x hx hx'
      have hline := List.mem_map_of_mem (f := lineIn (sectionPrefix x.key)) hx
      exact ⟨List.mem_append_left _ (List.mem_cons_of_mem _ (List.mem_cons_of_mem _ hline)),
        by simp⟩
    · obtain ⟨hline, hheader⟩ := h.complete x hx hx'
      exact ⟨by simp [hline], by simp [hheader]⟩
  case headers =>
    intro keyPrefix' name' hmem
    rw [List.cons_append, List.cons_append, List.mem_cons, List.mem_cons, List.mem_append,
      List.mem_map] at hmem
    rcases hmem with hmem | hmem | ⟨x, -, heq⟩ | hmem
    · cases hmem
    · injection hmem with h1 h2
      obtain ⟨l, hl⟩ := hkey
      obtain ⟨hpre, hname⟩ := hplaced e List.mem_cons_self (hl ▸ hwell l)
      exact .inr ⟨e, List.mem_cons_self, h1.trans hpre, h2.trans hname⟩
    · cases heq
    · refine (h.headers _ _ hmem).imp_right fun ⟨x, hx, hrest⟩ ↦ ⟨x, ?_, hrest⟩
      exact hsplit ▸ List.mem_append_right _ hx
  case under => exact fun _ ↦ UnderOwn.lines (h.under keyPrefix) _
  case texts =>
    intro bytes hmem
    rw [List.cons_append, List.cons_append, List.mem_cons, List.mem_cons, List.mem_append,
      List.mem_map] at hmem
    rcases hmem with hmem | hmem | ⟨x, -, heq⟩ | hmem
    · cases hmem
    · cases hmem
    · cases heq
    · exact h.texts bytes hmem

/-- An entry without a line. -/
theorem Files.cons {all rest : List SaveEntry} {e : SaveEntry} {pieces : List SavePiece}
    (h : Files all rest pieces) (he : ¬ WellPlaced (keysOf all) e.key) :
    Files all (e :: rest) pieces where
  sound keyPrefix key localKey value hmem := by
    obtain ⟨x, hx, hrest⟩ := h.sound _ _ _ _ hmem
    exact ⟨x, List.mem_cons_of_mem _ hx, hrest⟩
  complete x hx hwell := by
    rcases List.mem_cons.mp hx with rfl | hx
    · exact absurd hwell he
    · exact h.complete x hx hwell
  headers keyPrefix name hmem :=
    (h.headers _ _ hmem).imp_right fun ⟨x, hx, hrest⟩ ↦ ⟨x, List.mem_cons_of_mem _ hx, hrest⟩
  under := h.under
  texts := h.texts

theorem cfgSaveEntrySameSection_self (entry : SaveEntry) (n : ℕ) :
    cfgSaveEntrySameSection entry entry.key n = true ↔ strchr colon entry.key = some n := by
  rw [cfgSaveEntrySameSection]
  cases strchr colon entry.key with
  | none => simp
  | some k => simp

/-- The section of a theme has the entries that begin with its name. -/
theorem printSections_theme (fuel : ℕ) {e : SaveEntry} (rest : List SaveEntry) {name l : CStr}
    (hname : dot ∉ name) (hkey : e.key = lit "theme:" ++ (name ++ dot :: l)) :
    printSections (fuel + 1) (e :: rest) =
      .blank :: .header (lit "theme:" ++ (name ++ [dot])) (lit "theme:" ++ name) ::
        ((e :: rest).takeWhile fun x ↦ startsWith (lit "theme:" ++ (name ++ [dot])) x.key).map
          (lineIn (lit "theme:" ++ (name ++ [dot]))) ++
        printSections fuel
          ((e :: rest).dropWhile fun x ↦ startsWith (lit "theme:" ++ (name ++ [dot])) x.key) := by
  have hcolon : strchr colon e.key = some 5 :=
    hkey ▸ strchr_append (s := lit "theme") (by decide) _
  have htheme : startsWith (lit "theme:") e.key = true := startsWith_iff.mpr ⟨_, hkey⟩
  have hdrop : e.key.drop 6 = name ++ dot :: l := by rw [hkey]; rfl
  have hlen : (lit "theme:" ++ (name ++ [dot])).length = 6 + name.length + 1 := by
    simp [lit]
    omega
  have hpre : e.key.take (6 + name.length + 1) = lit "theme:" ++ (name ++ [dot]) := by
    rw [hkey, ← hlen, show lit "theme:" ++ (name ++ dot :: l)
      = lit "theme:" ++ (name ++ [dot]) ++ l by simp, List.take_left]
  rw [printSections, hcolon]
  dsimp only
  rw [if_pos htheme, hdrop, strchr_append hname]
  dsimp only
  rw [List.take_left, hpre, ← hlen]
  rfl

/-- The section of an entry of a theme without a `'.'` is not written. -/
theorem printSections_nameless (fuel : ℕ) {e : SaveEntry} (rest : List SaveEntry)
    (htheme : startsWith (lit "theme:") e.key = true) (hdot : strchr dot (e.key.drop 6) = none) :
    printSections (fuel + 1) (e :: rest) = printSections fuel rest := by
  obtain ⟨l, hkey⟩ := startsWith_iff.mp htheme
  have hcolon : strchr colon e.key = some 5 :=
    hkey ▸ strchr_append (s := lit "theme") (by decide) _
  rw [printSections, hcolon]
  dsimp only
  rw [if_pos htheme, hdot]

/-- The name `pipelines` is written for `pipeline`. -/
theorem pipeline_iff {s : CStr} (l : CStr) :
    s.length = 8 ∧ startsWith (lit "pipeline") (s ++ colon :: l) = true ↔ s = lit "pipeline" := by
  constructor
  · rintro ⟨hlen, hstart⟩
    obtain ⟨l', hl'⟩ := startsWith_iff.mp hstart
    exact (List.append_inj hl' hlen).1
  · rintro rfl
    exact ⟨rfl, startsWith_iff.mpr ⟨_, rfl⟩⟩

theorem savedSection_of_ne {s : CStr} (hs : colon ∉ s) (hne : s ≠ lit "theme") (l : CStr) :
    savedSection (s ++ colon :: l) = if s = lit "pipeline" then lit "pipelines" else s := by
  rw [savedSection, strchr_append hs]
  dsimp only
  rw [if_neg (by rwa [startsWith_theme_iff hs]), List.take_left]
  simp only [pipeline_iff]

/-- Any other section has the entries whose section has a name of the same length. -/
theorem printSections_section (fuel : ℕ) {e : SaveEntry} (rest : List SaveEntry) {s l : CStr}
    (hs : colon ∉ s) (hne : s ≠ lit "theme") (hkey : e.key = s ++ colon :: l) :
    printSections (fuel + 1) (e :: rest) =
      .blank :: .header (s ++ [colon]) (if s = lit "pipeline" then lit "pipelines" else s) ::
        ((e :: rest).takeWhile fun x ↦ cfgSaveEntrySameSection x x.key s.length).map
          (lineIn (s ++ [colon])) ++
        printSections fuel
          ((e :: rest).dropWhile fun x ↦ cfgSaveEntrySameSection x x.key s.length) := by
  have hcolon : strchr colon e.key = some s.length := hkey ▸ strchr_append hs l
  have htheme : ¬ startsWith (lit "theme:") e.key = true := by
    rwa [hkey, startsWith_theme_iff hs]
  have hlen : (s ++ [colon]).length = s.length + 1 := by simp
  rw [printSections, hcolon]
  dsimp only
  rw [if_neg htheme, hkey, take_section, List.take_left, ← hlen]
  simp only [pipeline_iff]
  rfl

section Steps

variable {all pre entries rest : List SaveEntry} {e : SaveEntry}

/-- The keys of a theme. -/
theorem theme_wellPlaced {name : CStr} (hname : dot ∉ name) {keys : CStr → Prop}
    (hnot : ∀ key', sectionOf key' = some (lit "theme") → ¬ Swallowed keys key') (l : CStr) :
    WellPlaced keys (lit "theme:" ++ (name ++ dot :: l)) := by
  refine ⟨hnot _ (sectionOf_append (s := lit "theme") (by decide) _), fun _ ↦ ?_⟩
  have hdrop : (lit "theme:" ++ (name ++ dot :: l)).drop 6 = name ++ dot :: l := rfl
  rw [hdrop, strchr_append hname]
  rfl

/-- The keys of a section that is not swallowed. -/
theorem section_wellPlaced {s : CStr} (hs : colon ∉ s) (hne : s ≠ lit "theme") {keys : CStr → Prop}
    (hnot : ∀ key', sectionOf key' = some s → ¬ Swallowed keys key') (l : CStr) :
    WellPlaced keys (s ++ colon :: l) :=
  ⟨hnot _ (sectionOf_append hs l), fun h ↦ absurd ((startsWith_theme_iff hs l).mp h) hne⟩

/-- Of the entries whose sections have names as long as that of `e`, those that are well placed are
of the section of `e`. -/
theorem run_placed (hsorted : all.Pairwise fun a b ↦ a.sortKey ≤ b.sortKey) {run : List SaveEntry}
    (hall : all = pre ++ e :: (run ++ rest)) {s l : CStr} (hs : colon ∉ s)
    (hkey : e.key = s ++ colon :: l) (hne : s ≠ lit "theme")
    (hrun : ∀ x ∈ run, strchr colon x.key = some s.length) :
    ∀ x ∈ e :: run, WellPlaced (keysOf all) x.key → ∃ l', x.key = s ++ colon :: l' := by
  have hsec : sectionOf e.key = some s := hkey ▸ sectionOf_append hs l
  have hlen : ∀ y ∈ run, ∀ u, sectionOf y.key = some u → u.length = s.length := by
    intro y hy u hu
    obtain ⟨before, after, hy', hnot', hlen⟩ := strchr_eq_some (hrun y hy)
    rw [hy', sectionOf_append hnot'] at hu
    rw [← Option.some.inj hu, hlen]
  intro x hx hwell
  rcases List.mem_cons.mp hx with rfl | hx
  · exact ⟨l, hkey⟩
  obtain ⟨s', l', hxkey, hs', -⟩ := strchr_eq_some (hrun x hx)
  by_cases hss : s' = s
  · exact ⟨l', hss ▸ hxkey⟩
  · -- the section of `x` is another one
    exact absurd (swallowed_of_run hsorted hall hsec hne hlen hx
      (hxkey ▸ sectionOf_append hs' l') hss) hwell.notSwallowed

/-- The section of the theme that `e` is of, when the rest is as it should be. -/
theorem files_theme {fuel : ℕ} (hsorted : all.Pairwise fun a b ↦ a.sortKey ≤ b.sortKey)
    (hall : all = pre ++ e :: rest) (hnot : ¬ Swallowed (keysOf all) e.key)
    (hrest : ∀ {p : SaveEntry → Bool}, p e = true →
      (∀ x ∈ (rest.dropWhile p).head?, ¬ Swallowed (keysOf all) x.key) →
      Files all (rest.dropWhile p) (printSections fuel (rest.dropWhile p)))
    {name l : CStr} (hname : dot ∉ name) (hkey : e.key = lit "theme:" ++ (name ++ dot :: l)) :
    Files all (e :: rest) (printSections (fuel + 1) (e :: rest)) := by
  have htheme : ∀ l', sectionOf (lit "theme:" ++ (name ++ dot :: l')) = some (lit "theme") :=
    fun l' ↦ sectionOf_append (s := lit "theme") (by decide) _
  have hnot' : ∀ key', sectionOf key' = some (lit "theme") → ¬ Swallowed (keysOf all) key' :=
    fun key' h hsw ↦ hnot (hsw.of_section ((hkey ▸ htheme l).trans h.symm))
  have hassoc : ∀ l', lit "theme:" ++ (name ++ [dot]) ++ l'
      = lit "theme:" ++ (name ++ dot :: l') := fun l' ↦ by simp
  rw [printSections_theme fuel rest hname hkey]
  generalize hp : (fun entry : SaveEntry ↦
    startsWith (lit "theme:" ++ (name ++ [dot])) entry.key) = p
  have hself : p e = true := by
    rw [← hp]
    exact startsWith_iff.mpr ⟨l, by rw [hkey, hassoc]⟩
  have hthemes : ∀ x ∈ e :: rest.takeWhile p,
      ∃ l', x.key = lit "theme:" ++ (name ++ dot :: l') := by
    intro x hx
    rcases List.mem_cons.mp hx with rfl | hx
    · exact ⟨l, hkey⟩
    · have hpx := List.mem_takeWhile_imp hx
      rw [← hp] at hpx
      obtain ⟨l', hl'⟩ := startsWith_iff.mp hpx
      exact ⟨l', by rw [hl', hassoc]⟩
  rw [List.dropWhile_cons_of_pos hself]
  refine Files.append hself (hrest hself fun x hx ↦ ?_) ⟨l, by rw [hkey, hassoc]⟩
    (fun l' ↦ hassoc l' ▸ theme_wellPlaced hname hnot' l') fun x hx _ ↦ ?_
  · obtain ⟨rest', hrest'⟩ := List.head?_eq_some_iff.mp hx
    have hall' : all = pre ++ ((e :: rest.takeWhile p) ++ x :: rest') := by
      rw [← hrest', List.cons_append, List.takeWhile_append_dropWhile, hall]
    refine notSwallowed_of_themes hsorted hall' List.mem_cons_self (fun y hy ↦ ?_) hnot
    obtain ⟨l', hl'⟩ := hthemes y hy
    exact hl' ▸ htheme l'
  · obtain ⟨l', hl'⟩ := hthemes x hx
    rw [hl', sectionPrefix_theme hname, savedSection_theme hname]
    exact ⟨rfl, rfl⟩

/-- The section that `e` is of, when it is no theme and the rest is as it should be. -/
theorem files_section {fuel : ℕ} (hsorted : all.Pairwise fun a b ↦ a.sortKey ≤ b.sortKey)
    (hall : all = pre ++ e :: rest) (hnot : ¬ Swallowed (keysOf all) e.key)
    (hcolon : ∀ x ∈ rest, (strchr colon x.key).isSome)
    (hrest : ∀ {p : SaveEntry → Bool}, p e = true →
      (∀ x ∈ (rest.dropWhile p).head?, ¬ Swallowed (keysOf all) x.key) →
      Files all (rest.dropWhile p) (printSections fuel (rest.dropWhile p)))
    {s l : CStr} (hs : colon ∉ s) (hne : s ≠ lit "theme") (hkey : e.key = s ++ colon :: l) :
    Files all (e :: rest) (printSections (fuel + 1) (e :: rest)) := by
  have hnot' : ∀ key', sectionOf key' = some s → ¬ Swallowed (keysOf all) key' :=
    fun key' h hsw ↦ hnot (hsw.of_section ((hkey ▸ sectionOf_append hs l).trans h.symm))
  have hassoc : ∀ l', s ++ [colon] ++ l' = s ++ colon :: l' := fun l' ↦ by simp
  rw [printSections_section fuel rest hs hne hkey]
  generalize hp : (fun entry : SaveEntry ↦
    cfgSaveEntrySameSection entry entry.key s.length) = p
  have hself : p e = true := by
    rw [← hp]
    exact (cfgSaveEntrySameSection_self _ _).mpr (hkey ▸ strchr_append hs l)
  have hrun : ∀ x ∈ rest.takeWhile p, strchr colon x.key = some s.length := by
    intro x hx
    have hpx := List.mem_takeWhile_imp hx
    rw [← hp] at hpx
    exact (cfgSaveEntrySameSection_self _ _).mp hpx
  have hall' : all = pre ++ e :: (rest.takeWhile p ++ rest.dropWhile p) := by
    rw [List.takeWhile_append_dropWhile, hall]
  rw [List.dropWhile_cons_of_pos hself]
  refine Files.append hself (hrest hself fun x hx ↦ ?_) ⟨l, by rw [hkey, hassoc]⟩
    (fun l' ↦ hassoc l' ▸ section_wellPlaced hs hne hnot' l') fun x hx hwell ↦ ?_
  · -- the section of the next entry has a name of another length
    have hpx : p x = false := by
      have hnext := List.head?_dropWhile_not p rest
      rwa [hx] at hnext
    obtain ⟨rest', hrest'⟩ := List.head?_eq_some_iff.mp hx
    obtain ⟨m, hm⟩ := Option.isSome_iff_exists.mp (hcolon x
      ((List.dropWhile_sublist p).mem (hrest' ▸ List.mem_cons_self)))
    obtain ⟨s', l', hxkey, hs', rfl⟩ := strchr_eq_some hm
    refine notSwallowed_of_length hsorted (hrest' ▸ hall') (hkey ▸ sectionOf_append hs l)
      (fun y hy u hu ↦ ?_) (hxkey ▸ sectionOf_append hs' l') fun hlen' ↦ ?_
    · obtain ⟨s'', l'', hykey, hs'', hlen''⟩ := strchr_eq_some (hrun y hy)
      rw [hykey, sectionOf_append hs''] at hu
      rw [← Option.some.inj hu, hlen'']
    · rw [← hp, Bool.eq_false_iff, Ne, cfgSaveEntrySameSection_self, hm, hlen'] at hpx
      exact hpx rfl
  · obtain ⟨l', hl'⟩ := run_placed hsorted hall' hs hkey hne hrun x hx hwell
    rw [hl', sectionPrefix_of_ne hs hne, savedSection_of_ne hs hne]
    exact ⟨rfl, rfl⟩

end Steps

/-- The sections and their entries. -/
theorem files_printSections {all : List SaveEntry}
    (hsorted : all.Pairwise fun a b ↦ a.sortKey ≤ b.sortKey) :
    ∀ (fuel : ℕ) (pre entries : List SaveEntry), entries.length ≤ fuel → all = pre ++ entries →
      (∀ x ∈ entries, (strchr colon x.key).isSome) →
      (∀ e ∈ entries.head?, ¬ Swallowed (keysOf all) e.key) →
      Files all entries (printSections fuel entries)
  | 0, pre, entries, hfuel, _, _, _ => by
    obtain rfl := List.length_eq_zero_iff.mp (Nat.le_zero.mp hfuel)
    exact Files.nil all
  | fuel + 1, pre, [], _, _, _, _ => Files.nil all
  | fuel + 1, pre, e :: rest, hfuel, hall, hcolon, hhead => by
    have hnot : ¬ Swallowed (keysOf all) e.key := hhead e rfl
    obtain ⟨n, hn⟩ := Option.isSome_iff_exists.mp (hcolon e (by simp))
    obtain ⟨s, l, hkey, hs, rfl⟩ := strchr_eq_some hn
    -- what is left after a run of entries that begins with `e`
    have hstep : ∀ {p : SaveEntry → Bool}, p e = true →
        (∀ x ∈ (rest.dropWhile p).head?, ¬ Swallowed (keysOf all) x.key) →
        Files all (rest.dropWhile p) (printSections fuel (rest.dropWhile p)) := by
      intro p hp hhead'
      have hsplit : rest.takeWhile p ++ rest.dropWhile p = rest := List.takeWhile_append_dropWhile
      refine files_printSections hsorted fuel (pre ++ e :: rest.takeWhile p) _ ?_ ?_ ?_ hhead'
      · exact (List.length_dropWhile_le _ _).trans (Nat.succ_le_succ_iff.mp hfuel)
      · rw [List.append_assoc, List.cons_append, hsplit, hall]
      · exact fun x hx ↦ hcolon x (List.mem_cons_of_mem _ ((List.dropWhile_sublist _).mem hx))
    by_cases htheme : startsWith (lit "theme:") e.key
    · obtain rfl : s = lit "theme" := (startsWith_theme_iff hs l).mp (hkey ▸ htheme)
      cases hdot : strchr dot (e.key.drop 6) with
      | none =>
        rw [printSections_nameless fuel rest htheme hdot]
        refine Files.cons ?_ fun h ↦ by simpa [hdot] using h.themeName htheme
        refine files_printSections hsorted fuel (pre ++ [e]) rest (Nat.succ_le_succ_iff.mp hfuel)
          (by simp [hall]) (fun x hx ↦ hcolon x (List.mem_cons_of_mem _ hx)) fun x hx ↦ ?_
        obtain ⟨rest', rfl⟩ := List.head?_eq_some_iff.mp hx
        have hall' : all = pre ++ ([e] ++ x :: rest') := hall
        have hsec : sectionOf e.key = some (lit "theme") := hkey ▸ sectionOf_append hs l
        exact notSwallowed_of_themes hsorted hall' (by simp) (by simpa using hsec) hnot
      | some m =>
        obtain ⟨name, local', hlocal, hname, rfl⟩ := strchr_eq_some hdot
        have hname' : e.key = lit "theme:" ++ (name ++ dot :: local') := by
          rw [← hlocal, hkey]
          rfl
        exact files_theme hsorted hall hnot hstep hname hname'
    · have hne : s ≠ lit "theme" := fun h ↦ htheme (hkey ▸ (startsWith_theme_iff hs l).mpr h)
      exact files_section hsorted hall hnot (fun x hx ↦ hcolon x (List.mem_cons_of_mem _ hx)) hstep
        hs hne hkey

/-- The keys without a section come first. -/
theorem colon_of_mem_dropWhile {entries : List SaveEntry}
    (hsorted : entries.Pairwise fun a b ↦ a.sortKey ≤ b.sortKey) {x : SaveEntry}
    (hx : x ∈ entries.dropWhile fun e ↦ (strchr colon e.key).isNone) :
    (strchr colon x.key).isSome := by
  induction entries with
  | nil => simp at hx
  | cons e rest ih =>
    rw [List.pairwise_cons] at hsorted
    by_cases he : (strchr colon e.key).isNone
    · rw [List.dropWhile_cons, if_pos he] at hx
      exact ih hsorted.2 hx
    · rw [List.dropWhile_cons, if_neg he] at hx
      have hsome : (strchr colon e.key).isSome := by simpa [Option.isSome_iff_ne_none] using he
      rcases List.mem_cons.mp hx with rfl | hx
      · exact hsome
      · obtain ⟨n, hn⟩ := Option.isSome_iff_exists.mp hsome
        obtain ⟨t, ht, -⟩ := sortKey_le_section (hsorted.1 x hx) (by rw [sectionOf, hn]; rfl)
        rw [sectionOf, Option.map_eq_some_iff] at ht
        obtain ⟨m, hm, -⟩ := ht
        simp [hm]

/-- The entries of sections are found in what is printed behind the general ones. -/
theorem files_printSections_dropWhile {entries : List SaveEntry}
    (hsorted : entries.Pairwise fun a b ↦ a.sortKey ≤ b.sortKey) :
    Files entries (entries.dropWhile fun e ↦ (strchr colon e.key).isNone)
      (printSections entries.length
        (entries.dropWhile fun e ↦ (strchr colon e.key).isNone)) := by
  have hsplit := List.takeWhile_append_dropWhile (l := entries)
    (p := fun e ↦ (strchr colon e.key).isNone)
  refine files_printSections hsorted _ _ _ (List.length_dropWhile_le _ _) hsplit.symm
    (fun x hx ↦ colon_of_mem_dropWhile hsorted hx) ?_
  rintro e he ⟨s, hs, k, hk, t, ht, -, -, hlt, -⟩
  obtain ⟨rest, hrest⟩ := List.head?_eq_some_iff.mp he
  obtain ⟨y, hy, rfl⟩ := List.mem_map.mp hk
  rw [← hsplit, List.mem_append, hrest, List.mem_cons] at hy
  rw [(strcmp_spec _ _).1] at hlt
  rcases hy with hy | rfl | hy
  · have hnone := List.mem_takeWhile_imp (p := fun e : SaveEntry ↦ (strchr colon e.key).isNone) hy
    simp [sectionOf, Option.isNone_iff_eq_none.mp hnone] at ht
  · obtain rfl : s = t := by simpa [hs] using ht
    exact lt_irrefl _ hlt
  · have hall : entries = ((entries.takeWhile fun e ↦ (strchr colon e.key).isNone) ++ [e]) ++
        rest := by
      rw [List.append_assoc, List.singleton_append, ← hrest, hsplit]
    exact (rank_section_le hsorted hall (by simp) hy hs ht).not_gt hlt

/-- An entry without a section is in its place, under `[general]`. -/
theorem wellPlaced_of_no_colon (keys : CStr → Prop) {key : CStr} (hnone : strchr colon key = none) :
    WellPlaced keys key ∧ sectionPrefix key = [] ∧ savedSection key = lit "general" := by
  refine ⟨⟨?_, fun h ↦ ?_⟩, by rw [sectionPrefix, hnone], by rw [savedSection, hnone]⟩
  · rintro ⟨s, hs, -⟩
    simp [sectionOf, hnone] at hs
  · obtain ⟨l, hl⟩ := startsWith_iff.mp h
    have hsome : strchr colon key = some 5 := by
      rw [hl]
      exact strchr_append (s := lit "theme") (by decide) l
    simp [hsome] at hnone

/-- **What the file has of the entries.** -/
theorem files_printEntries {entries : List SaveEntry}
    (hsorted : entries.Pairwise fun a b ↦ a.sortKey ≤ b.sortKey) :
    Files entries entries (printEntries entries) := by
  have hsplit := List.takeWhile_append_dropWhile (l := entries)
    (p := fun e ↦ (strchr colon e.key).isNone)
  have hrest := files_printSections_dropWhile hsorted
  have hgeneral : ∀ x ∈ entries.takeWhile fun e ↦ (strchr colon e.key).isNone,
      WellPlaced (keysOf entries) x.key ∧ sectionPrefix x.key = [] ∧
        savedSection x.key = lit "general" := fun x hx ↦
    wellPlaced_of_no_colon _ (Option.isNone_iff_eq_none.mp
      (List.mem_takeWhile_imp (p := fun e : SaveEntry ↦ (strchr colon e.key).isNone) hx))
  have hlines : printGeneral entries
      = (entries.takeWhile fun e ↦ (strchr colon e.key).isNone).map (lineIn []) := rfl
  rw [printEntries, hlines]
  constructor
  case sound =>
    intro keyPrefix key localKey value hmem
    rw [List.cons_append, List.mem_cons, List.mem_append, List.mem_map] at hmem
    rcases hmem with hmem | ⟨x, hx, heq⟩ | hmem
    · cases hmem
    · injection heq with h1 h2 h3 h4
      subst h1 h2 h3 h4
      obtain ⟨hwell, hpre, -⟩ := hgeneral x hx
      exact ⟨x, (List.takeWhile_sublist _).mem hx, rfl, rfl, rfl, hwell, fun _ ↦ hpre.symm⟩
    · obtain ⟨x, hx, h⟩ := hrest.sound _ _ _ _ hmem
      exact ⟨x, (List.dropWhile_sublist _).mem hx, h⟩
  case complete =>
    intro x hx hwell
    rw [← hsplit, List.mem_append] at hx
    rcases hx with hx | hx
    · obtain ⟨-, hpre, hname⟩ := hgeneral x hx
      rw [hpre, hname]
      exact ⟨List.mem_cons_of_mem _ (List.mem_append_left _ (List.mem_map_of_mem hx)),
        List.mem_cons_self⟩
    · obtain ⟨hline, hheader⟩ := hrest.complete x hx hwell
      exact ⟨List.mem_cons_of_mem _ (List.mem_append_right _ hline),
        List.mem_cons_of_mem _ (List.mem_append_right _ hheader)⟩
  case headers =>
    intro keyPrefix name hmem
    rw [List.cons_append, List.mem_cons, List.mem_append, List.mem_map] at hmem
    rcases hmem with hmem | ⟨x, -, heq⟩ | hmem
    · injection hmem with h1 h2
      exact .inl ⟨h1, h2⟩
    · cases heq
    · refine (hrest.headers _ _ hmem).imp_right fun ⟨x, hx, h⟩ ↦ ⟨x, ?_, h⟩
      exact (List.dropWhile_sublist _).mem hx
  case under => exact fun _ ↦ UnderOwn.lines (hrest.under []) _
  case texts =>
    intro bytes hmem
    rw [List.cons_append, List.mem_cons, List.mem_append, List.mem_map] at hmem
    rcases hmem with hmem | ⟨x, -, heq⟩ | hmem
    · cases hmem
    · cases heq
    · exact hrest.texts bytes hmem

end Rustyaxe
