import Mathlib.Algebra.Order.Group.Int
import Rustyaxe.Lib.PerKey

/-!
# A limiter with fixed windows

A window begins with a request, and lasts for a number of seconds; the first request after that
begins the next one.  In each window a number of requests is admitted.  The others are counted, and
the count is reported with the first request of the next window.  The counter stops at `cap`.

Which window a request belongs to depends on the times alone (`windowed`).  `run_admittedIn_le`
bounds what is admitted in a window, and `run_conserved` says that no refusal gets lost below `cap`.
-/

set_option autoImplicit false

namespace FixedWindow

open PerKey

/-- When a request comes, and how many are allowed in how many seconds. -/
structure Rule (ι : Type) where
  time : ι → ℤ
  count : ι → ℕ
  seconds : ι → ℕ

/-- The state of a limiter in a window. -/
structure Window where
  start : ℤ
  emitted : ℕ
  suppressed : ℕ
  deriving DecidableEq, Repr

variable {ι : Type} (R : Rule ι) (cap : ℕ)

/-- The window that begins at `start` is over. -/
def Rule.rolls (start : ℤ) (i : ι) : Prop :=
  R.time i - start ≥ R.seconds i ∨ R.time i < start

instance (start : ℤ) (i : ι) : Decidable (R.rolls start i) := inferInstanceAs (Decidable (_ ∨ _))

/-- The window of a request, and how many have been refused in the one that is over with it. -/
def Rule.enter (s : Option Window) (i : ι) : ℕ × Window :=
  match s with
  | none => (0, ⟨R.time i, 0, 0⟩)
  | some w => if R.rolls w.start i then (w.suppressed, ⟨R.time i, 0, 0⟩) else (0, w)

/-- Admit or refuse a request in its window. -/
def Rule.serve (w : Window) (i : ι) : Bool × Window :=
  if w.emitted ≥ R.count i then
    (false, { w with suppressed := if w.suppressed < cap then w.suppressed + 1 else w.suppressed })
  else (true, { w with emitted := w.emitted + 1 })

/-- A request: is it admitted, and how many have been refused in the window before? -/
def Rule.step (s : Option Window) (i : ι) : (Bool × ℕ) × Option Window :=
  (((R.serve cap (R.enter s i).2 i).1, (R.enter s i).1), some (R.serve cap (R.enter s i).2 i).2)

/-- Where the window of a request begins. -/
def Rule.windowStart (start : Option ℤ) (i : ι) : ℤ :=
  match start with
  | none => R.time i
  | some start => if R.rolls start i then R.time i else start

/-- Every request with the beginning of its window. -/
def Rule.windowed {β : Type} : Option ℤ → List (ι × β) → List (ℤ × ι × β)
  | _, [] => []
  | start, x :: rest =>
    (R.windowStart start x.1, x) :: Rule.windowed (some (R.windowStart start x.1)) rest

/-- How many requests have been admitted in the window. -/
def admittedIn (w : ℤ) (l : List (ℤ × ι × Bool × ℕ)) : ℕ := l.countP fun x ↦ x.1 = w ∧ x.2.2.1

/-- How many requests have been refused in the window. -/
def refusedIn (w : ℤ) (l : List (ℤ × ι × Bool × ℕ)) : ℕ := l.countP fun x ↦ x.1 = w ∧ !x.2.2.1

/-- How many requests have been refused. -/
def refused (l : List (ι × Bool × ℕ)) : ℕ := l.countP fun x ↦ !x.2.1

/-- The sum of the counts that have been reported. -/
def reported (l : List (ι × Bool × ℕ)) : ℕ := l.foldr (fun x n ↦ x.2.2 + n) 0

theorem admittedIn_cons (w : ℤ) (x : ℤ × ι × Bool × ℕ) (l : List (ℤ × ι × Bool × ℕ)) :
    admittedIn w (x :: l) = admittedIn w l + if x.1 = w ∧ x.2.2.1 then 1 else 0 := by
  simp [admittedIn, List.countP_cons]

theorem refusedIn_cons (w : ℤ) (x : ℤ × ι × Bool × ℕ) (l : List (ℤ × ι × Bool × ℕ)) :
    refusedIn w (x :: l) = refusedIn w l + if x.1 = w then (if x.2.2.1 then 0 else 1) else 0 := by
  rw [refusedIn, refusedIn, List.countP_cons]
  by_cases hw : x.1 = w <;> cases hx : x.2.2.1 <;> simp [hw]

theorem refused_cons (x : ι × Bool × ℕ) (l : List (ι × Bool × ℕ)) :
    refused (x :: l) = refused l + if x.2.1 then 0 else 1 := by
  rw [refused, refused, List.countP_cons]
  cases x.2.1 <;> simp

theorem reported_cons (x : ι × Bool × ℕ) (l : List (ι × Bool × ℕ)) :
    reported (x :: l) = x.2.2 + reported l := rfl

/-! ## One request -/

variable {R cap}

theorem Rule.enter_start (s : Option Window) (i : ι) :
    (R.enter s i).2.start = R.windowStart (s.map Window.start) i := by
  cases s with
  | none => rfl
  | some w =>
    rw [Rule.enter, Option.map_some, Rule.windowStart]
    split <;> rfl

@[simp] theorem Rule.serve_start (w : Window) (i : ι) : (R.serve cap w i).2.start = w.start := by
  rw [Rule.serve]
  split <;> rfl

/-- What has been admitted in the window `w` so far. -/
def emittedIn (s : Option Window) (w : ℤ) : ℕ :=
  s.elim 0 fun x ↦ if x.start = w then x.emitted else 0

/-- What has been refused in the window `w` so far. -/
def suppressedIn (s : Option Window) (w : ℤ) : ℕ :=
  s.elim 0 fun x ↦ if x.start = w then x.suppressed else 0

/-- The refusals that have not been reported. -/
def pending (s : Option Window) : ℕ := s.elim 0 Window.suppressed

theorem Rule.serve_emitted (w : Window) (i : ι) : (R.serve cap w i).2.emitted
    = w.emitted + if (R.serve cap w i).1 then 1 else 0 := by
  rw [Rule.serve]
  split <;> rfl

theorem Rule.serve_lt {w : Window} {i : ι} (h : (R.serve cap w i).1 = true) :
    w.emitted < R.count i := by
  rw [Rule.serve] at h
  split at h
  · cases h
  · next hlt => exact Nat.lt_of_not_le hlt

theorem Rule.serve_suppressed {w : Window} {i : ι}
    (h : w.suppressed + (if (R.serve cap w i).1 then 0 else 1) ≤ cap) :
    (R.serve cap w i).2.suppressed = w.suppressed + if (R.serve cap w i).1 then 0 else 1 := by
  rw [Rule.serve] at h ⊢
  split
  · next hge =>
    rw [if_pos hge] at h
    exact if_pos (Nat.lt_of_succ_le h)
  · rfl

/-- Nothing has been refused in a window that begins. -/
theorem Rule.enter_suppressed (s : Option Window) (i : ι) :
    (R.enter s i).1 + (R.enter s i).2.suppressed = pending s ∧
      (R.enter s i).2.suppressed ≤ suppressedIn s (R.enter s i).2.start := by
  cases s with
  | none => exact ⟨rfl, Nat.zero_le 0⟩
  | some w =>
    rw [Rule.enter]
    split
    · exact ⟨rfl, Nat.zero_le _⟩
    · exact ⟨Nat.zero_add _, (if_pos rfl).symm.le⟩

/-- Nothing has been admitted in a window that begins, and that one is later than the one before. -/
theorem Rule.enter_emitted {s : Option Window} {i : ι} (hseconds : 1 ≤ R.seconds i)
    (htime : ∀ w ∈ s, w.start ≤ R.time i) :
    (R.enter s i).2.emitted = emittedIn s (R.enter s i).2.start ∧
      ∀ w, emittedIn s w ≠ 0 → w ≤ (R.enter s i).2.start := by
  cases s with
  | none => exact ⟨rfl, fun w hw ↦ absurd rfl hw⟩
  | some x =>
    have hle := htime x rfl
    have hw : ∀ {w}, emittedIn (some x) w ≠ 0 → x.start = w := fun h ↦ by
      by_contra hne
      exact h (if_neg hne)
    rw [Rule.enter]
    split
    · next hrolls =>
      have hlt : x.start < R.time i := by
        rw [Rule.rolls] at hrolls
        omega
      exact ⟨(if_neg hlt.ne).symm, fun w h ↦ hw h ▸ hle⟩
    · exact ⟨(if_pos rfl).symm, fun w h ↦ (hw h).symm.le⟩

/-! ## Runs -/

theorem Rule.windowStart_ge {start : Option ℤ} {i : ι} {w : ℤ} (hstart : ∀ x ∈ start, w ≤ x)
    (htime : w ≤ R.time i) : w ≤ R.windowStart start i := by
  cases start with
  | none => exact htime
  | some x =>
    rw [Rule.windowStart]
    split
    · exact htime
    · exact hstart x rfl

theorem Rule.windowStart_le {start : Option ℤ} {i : ι} (hstart : ∀ x ∈ start, x ≤ R.time i) :
    R.windowStart start i ≤ R.time i := by
  cases start with
  | none => exact le_rfl
  | some x =>
    rw [Rule.windowStart]
    split
    · exact le_rfl
    · exact hstart x rfl

/-- No window begins before the requests come. -/
theorem Rule.windowed_ge {β : Type} {w : ℤ} : ∀ {l : List (ι × β)} {start : Option ℤ},
    (∀ x ∈ start, w ≤ x) → (∀ x ∈ l, w ≤ R.time x.1) → ∀ x ∈ R.windowed start l, w ≤ x.1 := by
  intro l
  induction l with
  | nil => exact fun _ _ x hx ↦ absurd hx List.not_mem_nil
  | cons y l ih =>
    intro start hstart htime
    rw [List.forall_mem_cons] at htime
    have hge := R.windowStart_ge hstart htime.1
    rw [Rule.windowed, List.forall_mem_cons]
    exact ⟨hge, ih (fun x hx ↦ Option.some.inj hx ▸ hge) htime.2⟩

/-- The requests come in the order of their times, after the beginning of the window that is open,
and windows last. -/
structure Rule.InOrder (R : Rule ι) (s : Option Window) (is : List ι) : Prop where
  pairwise : is.Pairwise fun i j ↦ R.time i ≤ R.time j
  seconds : ∀ i ∈ is, 1 ≤ R.seconds i
  start : ∀ i ∈ is, ∀ w ∈ s, w.start ≤ R.time i

theorem Rule.InOrder.tail {s : Option Window} {i : ι} {is : List ι} (h : R.InOrder s (i :: is)) :
    R.InOrder (R.step cap s i).2 is := by
  obtain ⟨hpairwise, hseconds, hstart⟩ := h
  rw [List.pairwise_cons] at hpairwise
  refine ⟨hpairwise.2, fun j hj ↦ hseconds j (List.mem_cons_of_mem _ hj), fun j hj w hw ↦ ?_⟩
  obtain rfl := Option.some.inj hw
  rw [R.serve_start, R.enter_start]
  refine (R.windowStart_le fun x hx ↦ ?_).trans (hpairwise.1 j hj)
  obtain ⟨w, hw, rfl⟩ := Option.map_eq_some_iff.mp hx
  exact hstart i List.mem_cons_self w hw

/-- The windows of a run, one request after the other. -/
theorem windowed_run_cons (s : Option Window) (i : ι) (is : List ι) :
    R.windowed (s.map Window.start) (run (R.step cap) s (i :: is)).1
      = ((R.enter s i).2.start, i, (R.step cap s i).1) ::
        R.windowed ((R.step cap s i).2.map Window.start)
          (run (R.step cap) (R.step cap s i).2 is).1 := by
  rw [run_cons, Rule.windowed, ← R.enter_start]
  have hstart : (R.step cap s i).2.map Window.start = some (R.enter s i).2.start :=
    congrArg some (R.serve_start _ i)
  rw [hstart]

/-- What is admitted in a window, with what has been admitted there before. -/
theorem run_admittedIn_le_max : ∀ {is : List ι} {s : Option Window}, R.InOrder s is →
    ∀ {w : ℤ} {c : ℕ},
    (∀ x ∈ R.windowed (s.map Window.start) (run (R.step cap) s is).1, x.1 = w → R.count x.2.1 ≤ c) →
      admittedIn w (R.windowed (s.map Window.start) (run (R.step cap) s is).1) + emittedIn s w
        ≤ max c (emittedIn s w) := by
  intro is
  induction is with
  | nil =>
    intro s _ w c _
    exact (Nat.zero_add _).le.trans (le_max_right _ _)
  | cons i is ih =>
    intro s hs w c hc
    have htail : R.InOrder (R.step cap s i).2 is := hs.tail
    obtain ⟨hemitted, hlater⟩ := R.enter_emitted (hs.seconds i List.mem_cons_self)
      (hs.start i List.mem_cons_self)
    rw [windowed_run_cons] at hc ⊢
    rw [List.forall_mem_cons] at hc
    have hrest := ih htail hc.2
    have hnow : emittedIn (R.step cap s i).2 w
        = if (R.enter s i).2.start = w then
            (R.enter s i).2.emitted + if (R.step cap s i).1.1 then 1 else 0
          else 0 := by
      rw [← R.serve_start (R.enter s i).2 i, Rule.step, ← R.serve_emitted]
      rfl
    rw [admittedIn_cons]
    rw [hnow] at hrest
    by_cases hw : (R.enter s i).2.start = w
    · rw [if_pos hw] at hrest
      rw [hw] at hemitted
      have hcount : R.count i ≤ c := hc.1 hw
      dsimp only
      cases hserve : (R.step cap s i).1.1 with
      | true =>
        have hlt := R.serve_lt hserve
        rw [if_pos ⟨hw, rfl⟩]
        rw [hserve, if_pos rfl] at hrest
        omega
      | false =>
        rw [if_neg (by simp)]
        rw [hserve, if_neg (by simp)] at hrest
        omega
    · rw [if_neg hw] at hrest
      rw [if_neg fun h ↦ hw h.1]
      by_cases hold : emittedIn s w = 0
      · omega
      · -- the window `w` was open until this request came, and is over now
        have hge : ∀ x ∈ R.windowed ((R.step cap s i).2.map Window.start)
            (run (R.step cap) (R.step cap s i).2 is).1, (R.enter s i).2.start ≤ x.1 := by
          refine R.windowed_ge (fun x hx ↦ ?_) fun x hx ↦ ?_
          · exact (Option.some.inj hx ▸ R.serve_start _ i).symm.le
          · have hmem : x.1 ∈ is := by
              rw [← run_inputs (R.step cap) (R.step cap s i).2 is]
              exact List.mem_map_of_mem hx
            rw [← R.serve_start (R.enter s i).2 i]
            exact htail.start x.1 hmem _ rfl
        have hnone : admittedIn w (R.windowed ((R.step cap s i).2.map Window.start)
            (run (R.step cap) (R.step cap s i).2 is).1) = 0 := by
          refine List.countP_eq_zero.mpr fun x hx ↦ ?_
          have hlt := lt_of_le_of_ne (hlater w hold) (Ne.symm hw)
          simp [(hlt.trans_le (hge x hx)).ne']
        omega

/-- **At most as many requests are admitted in a window as each of them allows.** -/
theorem run_admittedIn_le {is : List ι} (h : R.InOrder none is) {w : ℤ} {c : ℕ}
    (hc : ∀ x ∈ R.windowed none (run (R.step cap) none is).1, x.1 = w → R.count x.2.1 ≤ c) :
    admittedIn w (R.windowed none (run (R.step cap) none is).1) ≤ c := by
  simpa [emittedIn] using run_admittedIn_le_max h hc

/-- What is refused, with what is pending at the beginning. -/
theorem run_conserved_add : ∀ {is : List ι} {s : Option Window},
    (∀ w, refusedIn w (R.windowed (s.map Window.start) (run (R.step cap) s is).1)
      + suppressedIn s w ≤ cap) →
    refused (run (R.step cap) s is).1 + pending s
      = reported (run (R.step cap) s is).1 + pending (run (R.step cap) s is).2 := by
  intro is
  induction is with
  | nil => exact fun _ ↦ rfl
  | cons i is ih =>
    intro s hcap
    obtain ⟨hpending, hle⟩ := R.enter_suppressed s i
    rw [windowed_run_cons] at hcap
    have hcap' : ∀ w, refusedIn w (R.windowed ((R.step cap s i).2.map Window.start)
        (run (R.step cap) (R.step cap s i).2 is).1)
          + (if (R.enter s i).2.start = w then (if (R.step cap s i).1.1 then 0 else 1) else 0)
          + suppressedIn s w ≤ cap := by
      intro w
      have h := hcap w
      rwa [refusedIn_cons] at h
    have hopen := hcap' (R.enter s i).2.start
    rw [if_pos rfl] at hopen
    have hnow : (R.serve cap (R.enter s i).2 i).2.suppressed
        = (R.enter s i).2.suppressed + if (R.step cap s i).1.1 then 0 else 1 := by
      refine R.serve_suppressed ?_
      change (R.enter s i).2.suppressed + (if (R.step cap s i).1.1 then 0 else 1) ≤ cap
      omega
    have hrest := ih (s := (R.step cap s i).2) fun w ↦ by
      have h := hcap' w
      have hsupp : suppressedIn (R.step cap s i).2 w
          = if (R.enter s i).2.start = w then
              (R.enter s i).2.suppressed + if (R.step cap s i).1.1 then 0 else 1
            else 0 := by
        rw [← hnow, ← R.serve_start (R.enter s i).2 i]
        rfl
      rw [hsupp]
      by_cases hw : (R.enter s i).2.start = w
      · subst hw
        rw [if_pos rfl] at h ⊢
        omega
      · rw [if_neg hw] at h ⊢
        omega
    have hend : pending (R.step cap s i).2
        = (R.enter s i).2.suppressed + if (R.step cap s i).1.1 then 0 else 1 := hnow
    have hskipped : (R.step cap s i).1.2 = (R.enter s i).1 := rfl
    rw [run_cons, refused_cons, reported_cons]
    dsimp only
    omega

/-- **Every refusal is reported or pending**, if no window has more of them than are counted. -/
theorem run_conserved {is : List ι}
    (hcap : ∀ w, refusedIn w (R.windowed none (run (R.step cap) none is).1) ≤ cap) :
    refused (run (R.step cap) none is).1
      = reported (run (R.step cap) none is).1 + pending (run (R.step cap) none is).2 :=
  run_conserved_add (s := none) hcap

end FixedWindow
