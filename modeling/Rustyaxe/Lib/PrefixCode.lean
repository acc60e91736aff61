import Mathlib.Data.List.Infix

/-!
# Prefix codes

A code says what some words stand for.  If no word of it begins with another one, then what the
start of an input stands for can be said before the rest of the input is there: `Reads code w ans`
says that `ans` is what is known of an input of which `w` has come so far.  The answer is unique
(`Reads.unique`), every input has one (`exists_reads`), and more input does not change it unless
the answer was to wait (`Reads.append`).

`Assign code u k code'` is the way a code grows when the first of two words that get in each
other's way is to win.  It keeps the code free of prefixes (`Assign.prefixFree`).
-/

set_option autoImplicit false

namespace PrefixCode

variable {α κ : Type}

/-- What some words stand for. -/
abbrev Code (α κ : Type) := List α → Option κ

/-- No word of the code begins with another one. -/
def PrefixFree (code : Code α κ) : Prop :=
  ∀ u v, (code u).isSome → (code v).isSome → u <+: v → u = v

/-- What is known of an input. -/
inductive Answer (κ : Type) where
  /-- It begins with a word of this length. -/
  | word (k : κ) (n : ℕ)
  /-- It may become a word. -/
  | more
  /-- It does not begin with a word. -/
  | miss
  deriving DecidableEq

/-- The input that has come so far is the start of a longer word. -/
def Waits (code : Code α κ) (w : List α) : Prop := ∃ v, (code v).isSome ∧ w <+: v ∧ w ≠ v

/-- `ans` is what is known of an input that starts with `w`. -/
def Reads (code : Code α κ) (w : List α) : Answer κ → Prop
  | .word k n => ∃ u v, w = u ++ v ∧ u.length = n ∧ code u = some k
  | .more => Waits code w
  | .miss => ¬ Waits code w ∧ ∀ u, u <+: w → code u = none

variable {code : Code α κ}

theorem PrefixFree.eq (hfree : PrefixFree code) {u v w : List α} {k l : κ} (hu : code u = some k)
    (hv : code v = some l) (huw : u <+: w) (hvw : v <+: w) : u = v := by
  rcases List.prefix_or_prefix_of_prefix huw hvw with h | h
  · exact hfree u v (hu ▸ rfl) (hv ▸ rfl) h
  · exact (hfree v u (hv ▸ rfl) (hu ▸ rfl) h).symm

/-- An input that starts with a word is not the start of another. -/
theorem PrefixFree.not_waits (hfree : PrefixFree code) {u w : List α} {k : κ} (hu : code u = some k)
    (huw : u <+: w) : ¬ Waits code w := by
  rintro ⟨v, hv, hwv, hne⟩
  obtain rfl := hfree u v (hu ▸ rfl) hv (huw.trans hwv)
  exact hne (hwv.eq_of_length_le huw.length_le)

/-- **There is one answer.** -/
theorem Reads.unique (hfree : PrefixFree code) {w : List α} {a b : Answer κ} (ha : Reads code w a)
    (hb : Reads code w b) : a = b := by
  cases a with
  | word k n =>
    obtain ⟨u, v, rfl, rfl, hu⟩ := ha
    cases b with
    | word l m =>
      obtain ⟨u', v', heq, rfl, hu'⟩ := hb
      obtain rfl := hfree.eq hu hu' (List.prefix_append u v) (heq ▸ List.prefix_append u' v')
      rw [Option.some.inj (hu.symm.trans hu')]
    | more => exact absurd hb (hfree.not_waits hu (List.prefix_append u v))
    | miss => rw [hb.2 u (List.prefix_append u v)] at hu; cases hu
  | more =>
    cases b with
    | word l m =>
      obtain ⟨u, v, rfl, -, hu⟩ := hb
      exact absurd ha (hfree.not_waits hu (List.prefix_append u v))
    | more => rfl
    | miss => exact absurd ha hb.1
  | miss =>
    cases b with
    | word l m =>
      obtain ⟨u, v, rfl, -, hu⟩ := hb
      rw [ha.2 u (List.prefix_append u v)] at hu
      cases hu
    | more => exact absurd hb ha.1
    | miss => rfl

theorem exists_reads (code : Code α κ) (w : List α) : ∃ a, Reads code w a := by
  by_cases hwait : Waits code w
  · exact ⟨.more, hwait⟩
  by_cases hword : ∃ u k, u <+: w ∧ code u = some k
  · obtain ⟨u, k, ⟨v, rfl⟩, hu⟩ := hword
    exact ⟨.word k u.length, u, v, rfl, rfl, hu⟩
  · refine ⟨.miss, hwait, fun u hu ↦ ?_⟩
    cases hk : code u with
    | none => rfl
    | some k => exact absurd ⟨u, k, hu, hk⟩ hword

/-- **More input does not change an answer** other than to wait. -/
theorem Reads.append {w : List α} {a : Answer κ} (ha : Reads code w a) (hmore : a ≠ .more)
    (x : List α) : Reads code (w ++ x) a := by
  cases a with
  | word k n =>
    obtain ⟨u, v, rfl, hn, hu⟩ := ha
    exact ⟨u, v ++ x, List.append_assoc u v x, hn, hu⟩
  | more => exact absurd rfl hmore
  | miss =>
    obtain ⟨hwait, hmiss⟩ := ha
    -- A word that reaches into the new input has all of the old one as a start.
    have hnone : ∀ u, ¬ (w <+: u ∧ (code u).isSome) := by
      rintro u ⟨hwu, hu⟩
      refine hwait ⟨u, hu, hwu, ?_⟩
      rintro rfl
      rw [hmiss w (List.prefix_refl w)] at hu
      cases hu
    refine ⟨?_, fun u hu ↦ ?_⟩
    · rintro ⟨u, hu, hwu, -⟩
      exact hnone u ⟨(List.prefix_append w x).trans hwu, hu⟩
    · rcases List.prefix_or_prefix_of_prefix hu (List.prefix_append w x) with h | h
      · exact hmiss u h
      · exact Option.not_isSome_iff_eq_none.mp fun hu' ↦ hnone u ⟨h, hu'⟩

/-- An answer about what follows `n` elements. -/
def Answer.after (n : ℕ) : Answer κ → Answer κ
  | .word k m => .word k (n + m)
  | .more => .more
  | .miss => .miss

/-- An input is read by reading its first element, and then what follows it. -/
theorem Reads.cons {code' : Code α κ} {a : α} (hnil : code' [] = none)
    (hcons : ∀ u, code' (a :: u) = code u) {w : List α} {ans : Answer κ} (h : Reads code w ans) :
    Reads code' (a :: w) (ans.after 1) := by
  have hword : ∀ v, (code' v).isSome → ∃ u, v = a :: u ∧ (code u).isSome ∨
      ∃ b u, v = b :: u ∧ b ≠ a := by
    rintro (_ | ⟨b, u⟩) hv
    · simp [hnil] at hv
    · by_cases hba : b = a
      · subst hba
        exact ⟨u, .inl ⟨rfl, by rwa [hcons] at hv⟩⟩
      · exact ⟨u, .inr ⟨b, u, rfl, hba⟩⟩
  have hwaits : Waits code' (a :: w) ↔ Waits code w := by
    constructor
    · rintro ⟨v, hv, hle, hne⟩
      obtain ⟨u, ⟨rfl, hu⟩ | ⟨b, u, rfl, hba⟩⟩ := hword v hv
      · exact ⟨u, hu, (List.cons_prefix_cons.mp hle).2, fun h ↦ hne (h ▸ rfl)⟩
      · exact absurd (List.cons_prefix_cons.mp hle).1.symm hba
    · rintro ⟨v, hv, hle, hne⟩
      exact ⟨a :: v, by rwa [hcons], List.cons_prefix_cons.mpr ⟨rfl, hle⟩,
        fun h ↦ hne (List.cons.inj h).2⟩
  cases ans with
  | word k n =>
    obtain ⟨u, v, rfl, rfl, hu⟩ := h
    exact ⟨a :: u, v, rfl, by rw [List.length_cons, Nat.add_comm], by rw [hcons, hu]⟩
  | more => exact hwaits.mpr h
  | miss =>
    refine ⟨fun hw ↦ h.1 (hwaits.mp hw), ?_⟩
    rintro (_ | ⟨b, u⟩) hu
    · exact hnil
    · obtain ⟨rfl, hle⟩ := List.cons_prefix_cons.mp hu
      rw [hcons, h.2 u hle]

/-! ## How a code grows -/

/-- The word `u` is to stand for `k`, unless the code has words that begin with it. -/
inductive Assign (code : Code α κ) (u : List α) (k : κ) (code' : Code α κ) : Prop where
  | keep {v : List α} : (code v).isSome → u <+: v → (∀ w, code' w = code w) → Assign code u k code'
  | add : (∀ v, (code v).isSome → ¬ u <+: v) → (∀ v, (code v).isSome → ¬ v <+: u) →
      code' u = some k → (∀ v, v ≠ u → code' v = code v) → Assign code u k code'

/-- The word cannot be added, as the code has a shorter one that it begins with. -/
def Blocked (code : Code α κ) (u : List α) : Prop := ∃ v, (code v).isSome ∧ v <+: u ∧ v ≠ u

namespace Assign

variable {u : List α} {k : κ} {code' : Code α κ}

theorem prefixFree (h : Assign code u k code') (hfree : PrefixFree code) : PrefixFree code' := by
  cases h with
  | keep _ _ hsame =>
    intro v w hv hw
    rw [hsame] at hv hw
    exact hfree v w hv hw
  | add hbelow habove hu hother =>
    intro v w hv hw hvw
    by_cases hvu : v = u
    · subst hvu
      by_cases hwv : w = v
      · exact hwv.symm
      · rw [hother w hwv] at hw
        exact absurd hvw (hbelow w hw)
    · rw [hother v hvu] at hv
      by_cases hwu : w = u
      · subst hwu
        exact absurd hvw (habove v hv)
      · rw [hother w hwu] at hw
        exact hfree v w hv hw hvw

/-- A word keeps what it stands for. -/
theorem mono (h : Assign code u k code') {v : List α} {l : κ} (hv : code v = some l) :
    code' v = some l := by
  cases h with
  | keep _ _ hsame => rw [hsame, hv]
  | add hbelow _ _ hother =>
    rw [hother v, hv]
    rintro rfl
    exact hbelow v (hv ▸ rfl) (List.prefix_refl v)

/-- The word itself or a longer one is in the code then. -/
theorem exists_word (h : Assign code u k code') : ∃ v, (code' v).isSome ∧ u <+: v := by
  cases h with
  | keep hv huv hsame => exact ⟨_, by rwa [hsame], huv⟩
  | add _ _ hu _ => exact ⟨u, hu ▸ rfl, List.prefix_refl u⟩

end Assign

end PrefixCode
