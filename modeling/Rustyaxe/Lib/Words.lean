import Mathlib.Data.List.TakeWhile

/-!
# The words of a text

A text is cut into words at separators.  `words` goes from word to word, as a program does that
looks for the next one; `Spaced sep s ws` says that `ws` are the words of `s`, however many
separators stand between them, before the first one and after the last one.  The two agree
(`words_eq_iff`).
-/

set_option autoImplicit false

namespace Words

variable {α : Type} (sep : α → Bool)

/-- The words of a text, no more than `fuel` of them. -/
def wordsLoop : (fuel : ℕ) → List α → List (List α)
  | 0, _ => []
  | fuel + 1, s =>
    let s := s.dropWhile sep
    if s.isEmpty then [] else s.takeWhile (!sep ·) :: wordsLoop fuel (s.dropWhile (!sep ·))

/-- The words of a text. -/
def words (s : List α) : List (List α) := wordsLoop sep s.length s

/-- The text has these words. -/
inductive Spaced : List α → List (List α) → Prop where
  | nil {trail : List α} : (∀ c ∈ trail, sep c = true) → Spaced trail []
  | cons {lead word rest : List α} {ws : List (List α)} : (∀ c ∈ lead, sep c = true) →
      word ≠ [] → (∀ c ∈ word, sep c = false) → (∀ c ∈ rest.head?, sep c = true) →
      Spaced rest ws → Spaced (lead ++ (word ++ rest)) (word :: ws)

variable {sep} {s : List α} {ws : List (List α)}

/-- A separator in front changes no words. -/
theorem Spaced.cons_sep {c : α} (hc : sep c = true) (h : Spaced sep s ws) :
    Spaced sep (c :: s) ws := by
  cases h with
  | nil htrail => exact .nil (List.forall_mem_cons.mpr ⟨hc, htrail⟩)
  | @cons lead word rest ws hlead hne hword hrest hws =>
    exact .cons (List.forall_mem_cons.mpr ⟨hc, hlead⟩) hne hword hrest hws

theorem wordsLoop_of_spaced (h : Spaced sep s ws) {fuel : ℕ} (hfuel : s.length ≤ fuel) :
    wordsLoop sep fuel s = ws := by
  induction h generalizing fuel with
  | nil htrail =>
    cases fuel with
    | zero => rfl
    | succ fuel =>
      rw [wordsLoop, List.dropWhile_eq_nil_iff.mpr htrail]
      rfl
  | @cons lead word rest ws hlead hne hword hrest _ ih =>
    obtain ⟨c, word, rfl⟩ := List.exists_cons_of_ne_nil hne
    rw [List.length_append, List.length_append, List.length_cons] at hfuel
    obtain ⟨fuel, rfl⟩ : ∃ n, fuel = n + 1 := ⟨fuel - 1, by omega⟩
    have hstart : (lead ++ (c :: word ++ rest)).dropWhile sep = c :: word ++ rest := by
      rw [List.dropWhile_append_of_pos hlead, List.cons_append,
        List.dropWhile_cons_of_neg (by simp [hword c List.mem_cons_self])]
    have hin : ∀ a ∈ c :: word, (!sep a) = true := fun a ha ↦ by rw [hword a ha]; rfl
    have hcut : (c :: word ++ rest).takeWhile (!sep ·) = c :: word ∧
        (c :: word ++ rest).dropWhile (!sep ·) = rest := by
      rw [List.takeWhile_append_of_pos hin, List.dropWhile_append_of_pos hin]
      cases rest with
      | nil => exact ⟨List.append_nil _, rfl⟩
      | cons d rest =>
        rw [List.takeWhile_cons, List.dropWhile_cons, hrest d rfl]
        exact ⟨List.append_nil _, rfl⟩
    rw [wordsLoop, hstart, hcut.1, hcut.2, ih (by omega)]
    rfl

/-- Every text has words. -/
theorem exists_spaced (sep : α → Bool) (s : List α) : ∃ ws, Spaced sep s ws := by
  induction hn : s.length using Nat.strongRecOn generalizing s with
  | ind n ih =>
  subst hn
  have hlead : ∀ c ∈ s.takeWhile sep, sep c = true := fun c hc ↦ List.mem_takeWhile_imp hc
  have hs : s = s.takeWhile sep ++ s.dropWhile sep := List.takeWhile_append_dropWhile.symm
  cases hdrop : s.dropWhile sep with
  | nil => exact ⟨[], .nil (List.dropWhile_eq_nil_iff.mp hdrop)⟩
  | cons c t =>
    have hc : sep c = false := by
      have hhead := List.head?_dropWhile_not sep s
      rw [hdrop] at hhead
      simpa using hhead
    have hrest : ∀ d ∈ ((c :: t).dropWhile (!sep ·)).head?, sep d = true := fun d hd ↦ by
      have hhead := List.head?_dropWhile_not (!sep ·) (c :: t)
      rw [Option.mem_def.mp hd] at hhead
      simpa using hhead
    have hlt : ((c :: t).dropWhile (!sep ·)).length < s.length := by
      have hle := List.length_dropWhile_le (!sep ·) t
      have hlen := congrArg List.length hs
      rw [hdrop, List.length_append, List.length_cons] at hlen
      rw [List.dropWhile_cons_of_pos (by rw [hc]; rfl)]
      omega
    obtain ⟨ws, hws⟩ := ih _ hlt _ rfl
    have hne : (c :: t).takeWhile (!sep ·) ≠ [] := by
      rw [List.takeWhile_cons, hc]
      exact List.cons_ne_nil _ _
    have hspaced := Spaced.cons hlead hne (fun d hd ↦ by simpa using List.mem_takeWhile_imp hd)
      hrest hws
    rw [List.takeWhile_append_dropWhile] at hspaced
    rw [hdrop] at hs
    rw [← hs] at hspaced
    exact ⟨_, hspaced⟩

/-- **The words of a text** are what it has between its separators. -/
theorem words_eq_iff : words sep s = ws ↔ Spaced sep s ws := by
  constructor
  · rintro rfl
    obtain ⟨ws, hws⟩ := exists_spaced sep s
    rw [words, wordsLoop_of_spaced hws (Nat.le_refl _)]
    exact hws
  · exact fun h ↦ wordsLoop_of_spaced h (Nat.le_refl _)

end Words
