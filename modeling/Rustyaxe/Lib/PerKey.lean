import Mathlib.Logic.Function.Basic

/-!
# One machine for each key

A machine takes inputs and answers each of them.  `keyed` runs one machine for every key, on the
inputs of that key, over a state that has a component for each.  `run_keyed` says that the machines
do not see each other: what the inputs of one key are answered is what the machine of that key
answers when it is alone.

`run_sim` replaces a machine by one that simulates it.  `updateFirst` is how a table of slots finds
the component of a key.
-/

set_option autoImplicit false

namespace PerKey

variable {ι ο σ τ κ : Type}

/-- Run a machine; every input is returned with its answer. -/
def run (step : σ → ι → ο × σ) : σ → List ι → List (ι × ο) × σ
  | s, [] => ([], s)
  | s, i :: rest =>
    let r := run step (step s i).2 rest
    ((i, (step s i).1) :: r.1, r.2)

@[simp] theorem run_nil (step : σ → ι → ο × σ) (s : σ) : run step s [] = ([], s) := rfl

@[simp] theorem run_cons (step : σ → ι → ο × σ) (s : σ) (i : ι) (rest : List ι) :
    run step s (i :: rest) = ((i, (step s i).1) :: (run step (step s i).2 rest).1,
      (run step (step s i).2 rest).2) := rfl

/-- The answers come in the order of the inputs. -/
theorem run_inputs (step : σ → ι → ο × σ) (s : σ) (is : List ι) :
    (run step s is).1.map Prod.fst = is := by
  induction is generalizing s with
  | nil => rfl
  | cons i is ih => rw [run_cons, List.map_cons, ih]

/-! ## Simulation -/

/-- **A machine that simulates another one gives the same answers.** -/
theorem run_sim {step : σ → ι → ο × σ} {step' : τ → ι → ο × τ} {R : σ → τ → Prop} :
    ∀ {is : List ι}, (∀ i ∈ is, ∀ s t, R s t →
        (step s i).1 = (step' t i).1 ∧ R (step s i).2 (step' t i).2) →
      ∀ {s : σ} {t : τ}, R s t →
        (run step s is).1 = (run step' t is).1 ∧ R (run step s is).2 (run step' t is).2 := by
  intro is
  induction is with
  | nil => exact fun _ _ _ h ↦ ⟨rfl, h⟩
  | cons i is ih =>
    intro hsim s t h
    rw [List.forall_mem_cons] at hsim
    obtain ⟨hout, hstate⟩ := hsim.1 s t h
    obtain ⟨houts, hend⟩ := ih hsim.2 hstate
    rw [run_cons, run_cons, hout, houts]
    exact ⟨rfl, hend⟩

/-! ## Keys -/

section Keyed

variable [DecidableEq κ] (key : ι → κ) (step : σ → ι → ο × σ)

/-- The machine of the key of the input takes it. -/
def keyed (m : κ → σ) (i : ι) : ο × (κ → σ) :=
  ((step (m (key i)) i).1, Function.update m (key i) (step (m (key i)) i).2)

/-- **The machines are independent.** -/
theorem run_keyed (k : κ) (is : List ι) (m : κ → σ) :
    (run (keyed key step) m is).1.filter (key ·.1 = k)
        = (run step (m k) (is.filter (key · = k))).1 ∧
      (run (keyed key step) m is).2 k = (run step (m k) (is.filter (key · = k))).2 := by
  induction is generalizing m with
  | nil => exact ⟨rfl, rfl⟩
  | cons i is ih =>
    obtain ⟨houts, hend⟩ := ih (keyed key step m i).2
    rw [run_cons, List.filter_cons, List.filter_cons]
    by_cases hk : key i = k
    · have hk' : (keyed key step m i).2 k = (step (m k) i).2 := by
        rw [← hk]
        exact Function.update_self ..
      rw [if_pos (decide_eq_true hk), if_pos (decide_eq_true hk), run_cons, houts, hend, hk', keyed,
        hk]
      exact ⟨rfl, rfl⟩
    · have hk' : (keyed key step m i).2 k = m k := Function.update_of_ne (Ne.symm hk) ..
      rw [if_neg (by simpa using hk), if_neg (by simpa using hk), houts, hend, hk']
      exact ⟨rfl, rfl⟩

end Keyed

/-! ## Slots -/

/-- Let `f` work on the first slot with the property `p`, if there is one. -/
def updateFirst (p : σ → Bool) (f : σ → ο × σ) : List σ → Option (ο × List σ)
  | [] => none
  | s :: slots =>
    if p s then some ((f s).1, (f s).2 :: slots)
    else (updateFirst p f slots).map fun r ↦ (r.1, s :: r.2)

theorem updateFirst_eq_none {p : σ → Bool} {f : σ → ο × σ} {slots : List σ} :
    updateFirst p f slots = none ↔ ∀ s ∈ slots, p s = false := by
  induction slots with
  | nil => simp [updateFirst]
  | cons s slots ih =>
    rw [updateFirst, List.forall_mem_cons]
    cases p s <;> simp [ih]

theorem updateFirst_eq_some {p : σ → Bool} {f : σ → ο × σ} {r : ο × List σ} :
    ∀ {slots : List σ}, updateFirst p f slots = some r →
      ∃ before s after, slots = before ++ s :: after ∧ (∀ s ∈ before, p s = false) ∧ p s = true ∧
        r = ((f s).1, before ++ (f s).2 :: after) := by
  intro slots
  induction slots generalizing r with
  | nil => exact fun h ↦ by cases h
  | cons s slots ih =>
    intro h
    rw [updateFirst] at h
    split at h
    · next hs => exact ⟨[], s, slots, rfl, by simp, hs, (Option.some.inj h).symm⟩
    · next hs =>
      obtain ⟨r', hr', rfl⟩ := Option.map_eq_some_iff.mp h
      obtain ⟨before, s', after, rfl, hbefore, hs', rfl⟩ := ih hr'
      refine ⟨s :: before, s', after, rfl, ?_, hs', rfl⟩
      exact List.forall_mem_cons.mpr ⟨Bool.not_eq_true _ ▸ hs, hbefore⟩

theorem updateFirst_append {p : σ → Bool} {f : σ → ο × σ} {s : σ} {after : List σ} (hs : p s = true) :
    ∀ {before : List σ}, (∀ s ∈ before, p s = false) →
      updateFirst p f (before ++ s :: after) = some ((f s).1, before ++ (f s).2 :: after) := by
  intro before
  induction before with
  | nil => exact fun _ ↦ if_pos hs
  | cons s' before ih =>
    intro hbefore
    rw [List.forall_mem_cons] at hbefore
    rw [List.cons_append, updateFirst, hbefore.1, ih hbefore.2]
    rfl

/-- What is found in the table after one slot has changed. -/
theorem find?_replace {p : σ → Bool} {before after : List σ} {s s' : σ}
    (h : p s = false) (h' : p s' = false) :
    (before ++ s' :: after).find? p = (before ++ s :: after).find? p := by
  rw [List.find?_append, List.find?_append, List.find?_cons, List.find?_cons, h, h']

theorem find?_first {p : σ → Bool} {before after : List σ} {s : σ}
    (hbefore : ∀ s ∈ before, p s = false) (h : p s = true) :
    (before ++ s :: after).find? p = some s := by
  have hnone : before.find? p = none :=
    List.find?_eq_none.mpr fun s hs ↦ by rw [hbefore s hs]; exact Bool.false_ne_true
  rw [List.find?_append, hnone, List.find?_cons, h]
  rfl

end PerKey
