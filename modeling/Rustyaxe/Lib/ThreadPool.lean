import Mathlib.Data.List.Perm.Basic

/-!
# Threads over a shared state

A `Pool` is a shared state and the threads that are on their way.  A thread is what is left of it
to do; `run s t` is the next thing thread `t` does, all at once, and says what the shared state is
then and which threads are left in place of `t`: none if it was done, itself further on, or others
besides.  `none` means that it is blocked.  In one step of the pool either a thread enters it, of
the kind that `start` admits, or one of those in it runs.  A run of the pool is therefore an
interleaving, and every interleaving is a run.

`inv_of_step` is the rule for invariants.  `I` is what holds of the shared state, and `T` what a
thread may rely on; a step has to leave what the others rely on alone.  `countP_of_run` counts
the threads of a kind, and `NeverAfter` is for properties of the trace a shared state keeps.
-/

set_option autoImplicit false

namespace ThreadPool

/-- A shared state, and the threads that are on their way. -/
structure Pool (σ τ : Type) where
  shared : σ
  threads : List τ

/-- A thread enters the pool, or one of those in it runs. -/
inductive Action (τ : Type) where
  | spawn (t : τ)
  | run (i : ℕ)

variable {σ τ : Type} (start : τ → Bool) (run : σ → τ → Option (σ × List τ))

/-- One step of the pool. -/
def step (p : Pool σ τ) : Action τ → Option (Pool σ τ)
  | .spawn t => if start t then some { p with threads := p.threads ++ [t] } else none
  | .run i => do
    let t ← p.threads[i]?
    let (s, ts) ← run p.shared t
    return ⟨s, p.threads.eraseIdx i ++ ts⟩

variable {start run} {p p' : Pool σ τ}

theorem step_spawn {t : τ} (h : step start run p (.spawn t) = some p') :
    start t = true ∧ p' = ⟨p.shared, p.threads ++ [t]⟩ := by
  rw [step] at h
  split at h
  · rename_i hstart
    exact ⟨hstart, (Option.some_inj.mp h).symm⟩
  · cases h

theorem step_run {i : ℕ} (h : step start run p (.run i) = some p') :
    ∃ t ts, p.threads[i]? = some t ∧ run p.shared t = some (p'.shared, ts) ∧
      p'.threads = p.threads.eraseIdx i ++ ts := by
  simp only [step, Option.bind_eq_bind, Option.bind_eq_some_iff, Option.pure_def,
    Option.some.injEq] at h
  obtain ⟨t, ht, ⟨s, ts⟩, hrun, rfl⟩ := h
  exact ⟨t, ts, ht, hrun, rfl⟩

/-! ## Invariants -/

/-- **A step keeps an invariant** if what runs keeps it, leaves its successors what they rely on,
and does not disturb what the threads in the pool rely on. -/
theorem inv_of_step {I : σ → Prop} {T : σ → τ → Prop} {a : Action τ}
    (h : step start run p a = some p') (hI : I p.shared) (hT : ∀ t ∈ p.threads, T p.shared t)
    (hspawn : ∀ t, start t = true → T p.shared t)
    (hrun : ∀ i t s ts, a = .run i → p.threads[i]? = some t → run p.shared t = some (s, ts) →
      I s ∧ (∀ u ∈ ts, T s u) ∧ ∀ u ∈ p.threads, T p.shared u → T s u) :
    I p'.shared ∧ ∀ t ∈ p'.threads, T p'.shared t := by
  cases a with
  | spawn t =>
    obtain ⟨hstart, rfl⟩ := step_spawn h
    refine ⟨hI, fun u hu ↦ ?_⟩
    rcases List.mem_append.mp hu with hu | hu
    · exact hT u hu
    · exact List.mem_singleton.mp hu ▸ hspawn t hstart
  | run i =>
    obtain ⟨t, ts, ht, hstep, hthreads⟩ := step_run h
    obtain ⟨hI', hnew, hold⟩ := hrun i t _ ts rfl ht hstep
    refine ⟨hI', fun u hu ↦ ?_⟩
    rw [hthreads] at hu
    rcases List.mem_append.mp hu with hu | hu
    · have hmem := List.mem_of_mem_eraseIdx hu
      exact hold u hmem (hT u hmem)
    · exact hnew u hu

/-- The threads of a kind, counted: the one that runs leaves, and those it leaves behind enter. -/
theorem countP_of_run (k : τ → Bool) (ts : List τ) {i : ℕ} {t : τ} {L : List τ}
    (ht : L[i]? = some t) :
    (L.eraseIdx i ++ ts).countP k + [t].countP k = L.countP k + ts.countP k := by
  obtain ⟨hi, rfl⟩ := List.getElem?_eq_some_iff.mp ht
  have hperm := (List.getElem_cons_eraseIdx_perm hi).countP_eq k
  rw [← List.singleton_append, List.countP_append] at hperm
  rw [List.countP_append]
  omega

/-! ## Traces -/

section Traces

variable {α : Type}

/-- Once the trace so far has the property `P`, nothing of the kind `B` is added to it. -/
def NeverAfter (tr : List α) (P : List α → Prop) (B : α → Prop) : Prop :=
  ∀ pre post, tr = pre ++ post → P pre → ∀ b ∈ post, ¬ B b

variable {tr : List α} {P : List α → Prop} {B : α → Prop}

theorem neverAfter_nil : NeverAfter ([] : List α) P B := by
  intro pre post h _ b hb
  rw [(List.append_eq_nil_iff.mp h.symm).2] at hb
  cases hb

/-- **One more entry** is all right if it is not of the kind `B`, or the trace has not got `P`. -/
theorem NeverAfter.concat (h : NeverAfter tr P B) (hmono : ∀ l l', P l → P (l ++ l')) {b : α}
    (hb : P tr → ¬ B b) : NeverAfter (tr ++ [b]) P B := by
  intro pre post htr hpre c hc
  rcases List.eq_nil_or_concat post with rfl | ⟨post, b', rfl⟩
  · cases hc
  · rw [List.concat_eq_append, ← List.append_assoc] at htr
    obtain ⟨rfl, hbb⟩ := List.append_inj' htr rfl
    obtain rfl := List.singleton_inj.mp hbb
    rw [List.concat_eq_append] at hc
    rcases List.mem_append.mp hc with hc | hc
    · exact h pre post rfl hpre c hc
    · exact List.mem_singleton.mp hc ▸ hb (hmono pre post hpre)

end Traces

end ThreadPool
