import Mathlib.Data.List.Induction

/-!
# Runs of a partial step function

`runSteps step s cs` performs the calls `cs` in order; `none` means that one of them never
returned.  `Always step s cs P` says that every state the run gets to, the first one included, has
the property `P`, and `NoStep step s cs B` that no call of the run is made in a state where `B`
holds of it.

`always_iff_noStep` packages the induction: if `B` is exactly what takes a state out of `P`, then
a run stays in `P` exactly when it makes no such call.  `I` is whatever invariant the step needs
for that, and is kept by every step.
-/

set_option autoImplicit false

namespace Runs

variable {σ κ : Type} (step : σ → κ → Option σ)

/-- Perform the calls in order. -/
def runSteps (s : σ) (cs : List κ) : Option σ := cs.foldlM step s

/-- Every state reached along `cs` satisfies `P`. -/
def Always (s : σ) (cs : List κ) (P : σ → Prop) : Prop :=
  ∀ cs' s', cs' <+: cs → runSteps step s cs' = some s' → P s'

/-- No call of `cs` is made in a state where `B` holds of it. -/
def NoStep (s : σ) (cs : List κ) (B : σ → κ → Prop) : Prop :=
  ∀ cs' c s', cs' ++ [c] <+: cs → runSteps step s cs' = some s' → ¬ B s' c

variable {step}

@[simp] theorem runSteps_nil (s : σ) : runSteps step s [] = some s := rfl

theorem runSteps_concat (s : σ) (cs : List κ) (c : κ) :
    runSteps step s (cs ++ [c]) = (runSteps step s cs).bind (step · c) := by
  simp [runSteps, List.foldlM_append]

/-- A state reached from an invariant state satisfies the invariant. -/
theorem inv_of_runSteps {I : σ → Prop} {s : σ} (h0 : I s)
    (hstep : ∀ t c t', I t → step t c = some t' → I t') (cs : List κ) :
    ∀ s', runSteps step s cs = some s' → I s' := by
  induction cs using List.reverseRecOn with
  | nil => intro s' h; obtain rfl : s = s' := by simpa using h
           exact h0
  | append_singleton cs c ih =>
    intro s' h
    rw [runSteps_concat, Option.bind_eq_some_iff] at h
    obtain ⟨t, ht, hc⟩ := h
    exact hstep t c s' (ih t ht) hc

/-- **A run stays in `P` exactly when it makes no call that leaves it.** -/
theorem always_iff_noStep {I P : σ → Prop} {B : σ → κ → Prop} {s : σ} (h0 : I s) (hP0 : P s)
    (hinv : ∀ t c t', I t → step t c = some t' → I t')
    (hkeep : ∀ t c t', I t → P t → ¬ B t c → step t c = some t' → P t')
    (hleave : ∀ t c, I t → P t → B t c → ∃ t', step t c = some t' ∧ ¬ P t') (cs : List κ) :
    Always step s cs P ↔ NoStep step s cs B := by
  constructor
  · intro h cs' c t hpre ht hB
    have hI := inv_of_runSteps h0 hinv cs' t ht
    have hP := h cs' t ((List.prefix_append cs' [c]).trans hpre) ht
    obtain ⟨t', hc, hnP⟩ := hleave t c hI hP hB
    exact hnP (h _ t' hpre (by rw [runSteps_concat, ht]; exact hc))
  · intro h cs'
    induction cs' using List.reverseRecOn with
    | nil => intro t _ ht; obtain rfl : s = t := by simpa using ht
             exact hP0
    | append_singleton cs' c ih =>
      intro t' hpre ht'
      rw [runSteps_concat, Option.bind_eq_some_iff] at ht'
      obtain ⟨t, ht, hc⟩ := ht'
      have hpre' : cs' <+: cs := (List.prefix_append cs' [c]).trans hpre
      exact hkeep t c t' (inv_of_runSteps h0 hinv cs' t ht) (ih t hpre' ht) (h cs' c t hpre ht) hc

/-- **A run that makes no bad call** stays in an invariant that the others keep. -/
theorem inv_of_noStep {I : σ → Prop} {B : σ → κ → Prop} {s : σ} (h0 : I s)
    (hinv : ∀ t c t', I t → ¬ B t c → step t c = some t' → I t') {cs : List κ}
    (h : NoStep step s cs B) : Always step s cs I := by
  intro cs'
  induction cs' using List.reverseRecOn with
  | nil => intro t _ ht; obtain rfl : s = t := by simpa using ht
           exact h0
  | append_singleton cs' c ih =>
    intro t' hpre ht'
    rw [runSteps_concat, Option.bind_eq_some_iff] at ht'
    obtain ⟨t, ht, hc⟩ := ht'
    exact hinv t c t' (ih t ((List.prefix_append cs' [c]).trans hpre) ht) (h cs' c t hpre ht) hc

/-- Two kinds of bad call that an invariant cannot tell apart are avoided by the same runs, if the
invariant is kept by the calls that are not bad. -/
theorem noStep_congr {I : σ → Prop} {B C : σ → κ → Prop} {s : σ} (h0 : I s)
    (hBC : ∀ t c, I t → (B t c ↔ C t c))
    (hinv : ∀ t c t', I t → ¬ B t c → step t c = some t' → I t') (cs : List κ) :
    NoStep step s cs B ↔ NoStep step s cs C := by
  constructor
  · intro h cs' c t hpre ht hC
    have hI := inv_of_noStep h0 hinv h cs' t ((List.prefix_append cs' [c]).trans hpre) ht
    exact h cs' c t hpre ht ((hBC t c hI).mpr hC)
  · intro h cs' c t hpre ht hB
    have hinv' : ∀ t c t', I t → ¬ C t c → step t c = some t' → I t' := fun t c t' hI hC ↦
      hinv t c t' hI fun hB ↦ hC ((hBC t c hI).mp hB)
    have hI := inv_of_noStep h0 hinv' h cs' t ((List.prefix_append cs' [c]).trans hpre) ht
    exact h cs' c t hpre ht ((hBC t c hI).mp hB)

/-! ## Runs that go on -/

variable (step) in
/-- Every call of `cs` returns, in a state that satisfies `P`. -/
def Safe (s : σ) (cs : List κ) (P : σ → Prop) : Prop :=
  ∀ cs', cs' <+: cs → ∃ s', runSteps step s cs' = some s' ∧ P s'

/-- **A run that makes no bad call is safe**, if the calls that are not bad return and keep an
invariant. -/
theorem safe_of_noStep {I P : σ → Prop} {B : σ → κ → Prop} {s : σ} (h0 : I s)
    (hP : ∀ t, I t → P t) (hkeep : ∀ t c, I t → ¬ B t c → ∃ t', step t c = some t' ∧ I t')
    {cs : List κ} (h : NoStep step s cs B) : Safe step s cs P := by
  have hrun : ∀ cs', cs' <+: cs → ∃ t, runSteps step s cs' = some t ∧ I t := by
    intro cs'
    induction cs' using List.reverseRecOn with
    | nil => exact fun _ ↦ ⟨s, rfl, h0⟩
    | append_singleton cs' c ih =>
      intro hpre
      obtain ⟨t, ht, hI⟩ := ih ((List.prefix_append cs' [c]).trans hpre)
      obtain ⟨t', hc, hI'⟩ := hkeep t c hI (h cs' c t hpre ht)
      exact ⟨t', by rw [runSteps_concat, ht, Option.bind_some, hc], hI'⟩
  intro cs' hpre
  obtain ⟨t, ht, hI⟩ := hrun cs' hpre
  exact ⟨t, ht, hP t hI⟩

/-- **A safe run makes no bad call**, if the bad calls that occur in it do not return or break `P`. -/
theorem noStep_of_safe {I P : σ → Prop} {B : σ → κ → Prop} {s : σ} (h0 : I s)
    (hkeep : ∀ t c, I t → ¬ B t c → ∃ t', step t c = some t' ∧ I t') {cs : List κ}
    (hleave : ∀ t c t', c ∈ cs → I t → B t c → step t c = some t' → ¬ P t')
    (h : Safe step s cs P) : NoStep step s cs B := by
  have hmem : ∀ {cs' : List κ} {c : κ}, cs' ++ [c] <+: cs → c ∈ cs := fun hpre ↦
    hpre.subset (List.mem_append_right _ List.mem_cons_self)
  have hinv : ∀ cs', cs' <+: cs → ∀ t, runSteps step s cs' = some t → I t := by
    intro cs'
    induction cs' using List.reverseRecOn with
    | nil => intro _ t ht; obtain rfl : s = t := by simpa using ht
             exact h0
    | append_singleton cs' c ih =>
      intro hpre t' ht'
      obtain ⟨u, hu, hPt⟩ := h _ hpre
      obtain rfl : t' = u := Option.some.inj (ht'.symm.trans hu)
      rw [runSteps_concat, Option.bind_eq_some_iff] at ht'
      obtain ⟨t, ht, hc⟩ := ht'
      have hI := ih ((List.prefix_append cs' [c]).trans hpre) t ht
      obtain ⟨t'', ht'', hI'⟩ := hkeep t c hI fun hB ↦ hleave t c _ (hmem hpre) hI hB hc hPt
      obtain rfl := Option.some.inj (ht''.symm.trans hc)
      exact hI'
  intro cs' c t hpre ht hB
  obtain ⟨t', ht', hPt⟩ := h _ hpre
  rw [runSteps_concat, ht, Option.bind_some] at ht'
  exact hleave t c t' (hmem hpre) (hinv cs' ((List.prefix_append cs' [c]).trans hpre) t ht) hB ht' hPt

/-! ## Checking a run -/

variable (step) in
/-- Run through the calls, and see whether any of them is bad. -/
def checkSteps (bad : σ → κ → Bool) : σ → List κ → Bool
  | _, [] => true
  | s, c :: cs => !bad s c && ((step s c).all fun s' ↦ checkSteps bad s' cs)

theorem noStep_of_checkSteps {bad : σ → κ → Bool} {cs : List κ} :
    ∀ {s : σ}, checkSteps step bad s cs = true → NoStep step s cs fun s c ↦ bad s c = true := by
  induction cs with
  | nil =>
    intro s _ cs' c t hpre
    simp at hpre
  | cons c cs ih =>
    intro s h cs' c' t hpre ht hbad
    rw [checkSteps, Bool.and_eq_true, Bool.not_eq_true'] at h
    cases cs' with
    | nil =>
      obtain rfl : s = t := by simpa using ht
      obtain rfl : c' = c := by simpa using hpre
      rw [h.1] at hbad
      cases hbad
    | cons d cs' =>
      rw [List.cons_append, List.cons_prefix_cons] at hpre
      obtain ⟨rfl, hpre⟩ := hpre
      rw [runSteps, List.foldlM_cons, Option.bind_eq_bind, Option.bind_eq_some_iff] at ht
      obtain ⟨s', hs', ht⟩ := ht
      rw [hs', Option.all_some] at h
      exact ih h.2 cs' c' t hpre ht hbad

end Runs
