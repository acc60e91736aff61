import Mathlib.Data.List.Nodup
import Rustyaxe.Tui.Windows

/-!
# The window list stays in order

Which calls spoil the list of windows.  Two can: `tui_window_create` compares the title it is given
with titles that have been cut to fit, and `tui_window_destroy` takes an index that is out of range
after the removal for that of the window removed.  `windowList_iff` says exactly which ones do.

`HasWindows` has what every call keeps, whatever the titles.
-/

set_option autoImplicit false

namespace Rustyaxe

open Runs PackedArray

/-- The window has the title. -/
def Tui.Titled (s : Tui) (p : ℕ) (title : CStr) : Prop := ∃ w, s.heap p = some w ∧ w.title = title

/-- The windows of a state are `ws`, in this order.  The first is the status window. -/
structure HasWindows (s : Tui) (ws : List ℕ) : Prop where
  packed : Packed tuiMaxWindows s.windows ws
  num : s.numWindows = ws.length
  live : ∀ p, p ∈ ws ↔ (s.heap p).isSome = true
  nodup : ws.Nodup
  fresh : ∀ p ∈ ws, p < s.nextWindow
  active : 0 ≤ s.activeWin ∧ s.activeWin < ws.length
  status : ∃ p, ws.head? = some p ∧ s.Titled p statusTitle
  short : ∀ p w, s.heap p = some w → w.title.length < 64

/-- No two of the windows have the same title, whatever the case of its letters. -/
def DistinctTitles (s : Tui) (ws : List ℕ) : Prop :=
  ws.Pairwise fun p q ↦ ∀ w v, s.heap p = some w → s.heap q = some v →
    strcaseeq w.title v.title = false

namespace HasWindows

variable {s : Tui} {ws : List ℕ} (hs : HasWindows s ws)
include hs

theorem slots_eq : s.slots = ws.map some := by rw [Tui.slots, hs.num, hs.packed.take]

theorem slot_eq {i : ℕ} (hi : i < ws.length) : s.windows.getD i none = some ws[i] := by
  rw [List.getD_eq_getElem?_getD, hs.packed.getElem? hi, List.getElem?_eq_getElem hi]
  rfl

theorem window {p : ℕ} (hp : p ∈ ws) : ∃ w, s.heap p = some w :=
  Option.isSome_iff_exists.mp ((hs.live p).mp hp)

/-- The index of the active window. -/
theorem exists_active : ∃ a : ℕ, s.activeWin = a ∧ a < ws.length := by
  obtain ⟨a, ha⟩ := Int.eq_ofNat_of_zero_le hs.active.1
  have hlt := hs.active.2
  exact ⟨a, ha, by omega⟩

theorem length_pos : 0 < ws.length := by
  obtain ⟨a, -, ha⟩ := hs.exists_active
  omega

theorem fixActive_eq : fixActive s = s := by
  have h := hs.active
  have hnum := hs.num
  rw [fixActive, if_neg (by omega)]

/-- **In a state with windows, printing and drawing change nothing.** -/
theorem tuiActiveWindow_eq (calloc : Bool) : tuiActiveWindow calloc s = some (s.activeSlot, s) := by
  have hne : s.numWindows ≠ 0 := hs.num ▸ hs.length_pos.ne'
  simp only [tuiActiveWindow, if_neg hne, hs.fixActive_eq, if_neg (Int.not_lt.mpr hs.active.1)]

theorem tuiDraw_eq (calloc : Bool) : tuiDraw calloc s = some s := by
  rw [tuiDraw, hs.tuiActiveWindow_eq]
  split <;> rfl

theorem printActive_eq (calloc : Bool) : printActive calloc s = some s := by
  rw [printActive, hs.tuiActiveWindow_eq, Option.bind_eq_bind, Option.bind_some]
  dsimp only
  rw [hs.tuiDraw_eq]
  exact ite_self (some s)

theorem setActive {i : ℕ} (hi : i < ws.length) : HasWindows { s with activeWin := i } ws :=
  ⟨hs.packed, hs.num, hs.live, hs.nodup, hs.fresh, ⟨Int.natCast_nonneg i, Int.ofNat_lt.mpr hi⟩,
    hs.status, hs.short⟩

theorem activeSlot_eq {a : ℕ} (ha : s.activeWin = a) (hlt : a < ws.length) :
    s.activeSlot = some ws[a] := by
  rw [Tui.activeSlot, ha, Int.toNat_natCast, hs.slot_eq hlt]

end HasWindows

/-! ## Looking a title up -/

/-- What the loop of `tui_window_focus` finds: the first window with the title. -/
theorem focusLoop_spec {s : Tui} {ws : List ℕ} (hlive : ∀ p ∈ ws, ∃ w, s.heap p = some w)
    (title : CStr) (k : ℕ) :
    (focusLoop s title (ws.map some) k = some none ∧ ∀ p ∈ ws, ¬ s.Titled p title) ∨
      ∃ i p, ws[i]? = some p ∧ s.Titled p title ∧
        (∀ j q, j < i → ws[j]? = some q → ¬ s.Titled q title) ∧
        focusLoop s title (ws.map some) k = some (some (k + i, p)) := by
  induction ws generalizing k with
  | nil => exact .inl ⟨rfl, fun p hp ↦ absurd hp List.not_mem_nil⟩
  | cons p ws ih =>
    rw [List.forall_mem_cons] at hlive
    obtain ⟨w, hw⟩ := hlive.1
    rw [List.map_cons, focusLoop, hw, Option.bind_eq_bind, Option.bind_some]
    by_cases htitle : w.title = title
    · refine .inr ⟨0, p, rfl, ⟨w, hw, htitle⟩, fun j q hj ↦ absurd hj (Nat.not_lt_zero j), ?_⟩
      rw [if_pos htitle]
      rfl
    · have hp : ¬ s.Titled p title := by
        rintro ⟨w', hw', htitle'⟩
        obtain rfl := Option.some_inj.mp (hw.symm.trans hw')
        exact htitle htitle'
      rw [if_neg htitle]
      rcases ih hlive.2 (k + 1) with ⟨hnone, hall⟩ | ⟨i, q, hq, htitled, hfirst, hsome⟩
      · exact .inl ⟨hnone, List.forall_mem_cons.mpr ⟨hp, hall⟩⟩
      · refine .inr ⟨i + 1, q, hq, htitled, fun j r hj hr ↦ ?_, ?_⟩
        · cases j with
          | zero =>
            obtain rfl := Option.some_inj.mp hr
            exact hp
          | succ j => exact hfirst j r (Nat.lt_of_succ_lt_succ hj) hr
        · rw [hsome, Nat.add_assoc, Nat.add_comm 1 i]

/-- **`tui_window_focus`** makes the first window with the title active, if there is one. -/
theorem HasWindows.tuiWindowFocus_spec {s : Tui} {ws : List ℕ} (hs : HasWindows s ws) (calloc : Bool)
    (title : CStr) :
    (tuiWindowFocus calloc s (some title) = some (none, s) ∧ ∀ p ∈ ws, ¬ s.Titled p title) ∨
      ∃ i p, ∃ hi : i < ws.length, ws[i] = p ∧ s.Titled p title ∧
        (∀ j q, j < i → ws[j]? = some q → ¬ s.Titled q title) ∧
        tuiWindowFocus calloc s (some title) = some (some p, { s with activeWin := i }) := by
  rw [tuiWindowFocus, hs.slots_eq]
  rcases focusLoop_spec (fun p hp ↦ hs.window hp) title 0 with
    ⟨hnone, hall⟩ | ⟨i, p, hp, htitled, hfirst, hsome⟩
  · refine .inl ⟨?_, hall⟩
    rw [hnone]
    rfl
  · obtain ⟨hi, rfl⟩ := List.getElem?_eq_some_iff.mp hp
    refine .inr ⟨i, _, hi, rfl, htitled, hfirst, ?_⟩
    rw [hsome, Nat.zero_add, Option.bind_eq_bind, Option.bind_some]
    dsimp only
    rw [(hs.setActive hi).tuiDraw_eq calloc]
    rfl

/-- **Focusing a window by its title** makes some window active; if no two have the same title, it
is the one. -/
theorem HasWindows.focusSlot_spec {s : Tui} {ws : List ℕ} (hs : HasWindows s ws) (calloc : Bool)
    {i : ℕ} (hi : i < ws.length) :
    ∃ r, ∃ j : ℕ, focusSlot calloc s i = some (r, { s with activeWin := j }) ∧ j < ws.length ∧
      (DistinctTitles s ws → j = i) := by
  obtain ⟨w, hw⟩ := hs.window (List.getElem_mem hi)
  have hfocus : focusSlot calloc s i = tuiWindowFocus calloc s (some w.title) := by
    rw [focusSlot, if_neg (by omega), Int.toNat_natCast, hs.slot_eq hi]
    simp [hw]
  rw [hfocus]
  rcases hs.tuiWindowFocus_spec calloc w.title with
    ⟨-, hall⟩ | ⟨j, p, hj, rfl, ⟨v, hv, hvt⟩, hfirst, hsome⟩
  · exact absurd ⟨w, hw, rfl⟩ (hall _ (List.getElem_mem hi))
  · refine ⟨_, j, hsome, hj, fun hdistinct ↦ ?_⟩
    by_contra hne
    -- the first window with the title cannot come after window `i`
    have hlt : j < i := by
      by_contra hle
      exact hfirst i ws[i] (by omega) (List.getElem?_eq_getElem hi) ⟨w, hw, rfl⟩
    have hcase := List.pairwise_iff_getElem.mp hdistinct j i hj hi hlt v w hv hw
    rw [hvt, strcaseeq, beq_self_eq_true] at hcase
    cases hcase

/-! ## Creating -/

theorem strcaseeq_length {a b : CStr} (h : strcaseeq a b = true) : a.length = b.length := by
  rw [strcaseeq, beq_iff_eq] at h
  simpa using congrArg List.length h

/-- `tui_window_find` finds nothing if no window has the title, or is the status window if there
is no title. -/
theorem HasWindows.tuiWindowFind_eq_none {s : Tui} {ws : List ℕ} (hs : HasWindows s ws)
    (title : CStr) : tuiWindowFind s (some title) = none ↔ ∀ p ∈ ws, ∀ w, s.heap p = some w →
      strcaseeq w.title (if title = [] then statusTitle else title) = false := by
  have hiff : ∀ tp : CStr, (ws.map some).findSome? (fun slot ↦ slot.filter fun p ↦
      (s.heap p).any fun w ↦ strcaseeq w.title tp) = none ↔
        ∀ p ∈ ws, ∀ w, s.heap p = some w → strcaseeq w.title tp = false := fun tp ↦ by
    simp only [List.findSome?_eq_none_iff, List.forall_mem_map, Option.filter_eq_none_iff,
      Option.some.injEq, forall_eq']
    exact forall₂_congr fun p _ ↦ by simp [Option.any_eq_false]
  cases title with
  | nil => rw [if_pos rfl, tuiWindowFind, hs.slots_eq, hiff statusTitle]
  | cons c title =>
    rw [if_neg (List.cons_ne_nil c title), ← hiff]
    simp only [tuiWindowFind, hs.slots_eq]

theorem HasWindows.addWindow {s : Tui} {ws : List ℕ} (hs : HasWindows s ws)
    (hlt : ws.length < tuiMaxWindows) {w : TuiWindow} (hw : w.title.length < 64) :
    HasWindows (s.addWindow w) (ws ++ [s.nextWindow]) := by
  have hnew : s.nextWindow ∉ ws := fun h ↦ Nat.lt_irrefl _ (hs.fresh _ h)
  have hheap : ∀ p, (s.addWindow w).heap p = if p = s.nextWindow then some w else s.heap p :=
    Function.update_apply s.heap s.nextWindow (some w)
  have hlen : (ws ++ [s.nextWindow]).length = ws.length + 1 := by
    rw [List.length_append, List.length_singleton]
  refine ⟨?_, ?_, fun p ↦ ?_, ?_, fun p hp ↦ ?_, ?_, ?_, fun p v hv ↦ ?_⟩
  · have hpush := hs.packed.push hlt s.nextWindow
    rwa [← hs.num] at hpush
  · rw [hlen, ← hs.num]
    rfl
  · rw [hheap, List.mem_append, List.mem_singleton]
    split
    · simp [*]
    · rw [hs.live p]
      simp [*]
  · refine List.nodup_append.mpr ⟨hs.nodup, by simp, fun p hp q hq ↦ ?_⟩
    rintro rfl
    exact hnew (List.mem_singleton.mp hq ▸ hp)
  · rcases List.mem_append.mp hp with hp | hp
    · exact Nat.lt_succ_of_lt (hs.fresh p hp)
    · rw [List.mem_singleton.mp hp]
      exact Nat.lt_succ_self _
  · have hactive := hs.active
    rw [hlen]
    exact ⟨hactive.1, by have := hactive.2; show s.activeWin < _; omega⟩
  · obtain ⟨p, hp, v, hv, htitle⟩ := hs.status
    have hne : p ≠ s.nextWindow := by
      rintro rfl
      exact hnew (List.mem_of_mem_head? hp)
    refine ⟨p, by rw [List.head?_append, hp]; rfl, v, ?_, htitle⟩
    rw [hheap, if_neg hne]
    exact hv
  · rw [hheap] at hv
    split at hv
    · obtain rfl := Option.some_inj.mp hv
      exact hw
    · exact hs.short p v hv

theorem HasWindows.distinct_addWindow {s : Tui} {ws : List ℕ} (hs : HasWindows s ws) (w : TuiWindow) :
    DistinctTitles (s.addWindow w) (ws ++ [s.nextWindow]) ↔ DistinctTitles s ws ∧
      ∀ p ∈ ws, ∀ v, s.heap p = some v → strcaseeq v.title w.title = false := by
  have hnew : ∀ p ∈ ws, p ≠ s.nextWindow := fun p hp ↦ (hs.fresh p hp).ne
  have hheap : ∀ p ∈ ws, (s.addWindow w).heap p = s.heap p := fun p hp ↦
    Function.update_of_ne (hnew p hp) _ _
  have hlast : (s.addWindow w).heap s.nextWindow = some w := Function.update_self ..
  rw [DistinctTitles, List.pairwise_append, DistinctTitles]
  refine and_congr ?_ ?_
  · refine List.Pairwise.iff_of_mem fun hp hq ↦ ?_
    rw [hheap _ hp, hheap _ hq]
  · simp only [List.pairwise_singleton, List.mem_singleton, forall_eq, true_and, hlast,
      Option.some.injEq]
    refine forall₂_congr fun p hp ↦ ?_
    rw [hheap p hp]
    exact ⟨fun h v hv ↦ h v w hv rfl, fun h v u hv hu ↦ hu ▸ h v hv⟩

/-- The title is cut to that of a window there is, and there is room for another window. -/
def RepeatsTitle (s : Tui) : TuiCall → Prop
  | .create calloc title => calloc = true ∧ s.numWindows < tuiMaxWindows ∧ 64 ≤ title.length ∧
      ∃ p w, s.heap p = some w ∧ strcaseeq w.title (title.take 63) = true
  | _ => False

theorem length_copyInto_lt {size : ℕ} (h : 0 < size) (s : CStr) :
    (copyInto size s).length < size := by
  rw [copyInto, List.length_take]
  omega

/-- **`tui_window_create`** leaves the windows alone, or appends one.  It spoils the titles exactly
if it repeats one. -/
theorem HasWindows.tuiWindowCreate_spec {s : Tui} {ws : List ℕ} (hs : HasWindows s ws) (calloc : Bool)
    (title : CStr) :
    ∃ ws', HasWindows (tuiWindowCreate calloc s title).2 ws' ∧
      (DistinctTitles s ws → (DistinctTitles (tuiWindowCreate calloc s title).2 ws' ↔
        ¬ RepeatsTitle s (.create calloc title))) := by
  have hsame : (tuiWindowCreate calloc s title).2 = s → ¬ RepeatsTitle s (.create calloc title) →
      ∃ ws', HasWindows (tuiWindowCreate calloc s title).2 ws' ∧
      (DistinctTitles s ws → (DistinctTitles (tuiWindowCreate calloc s title).2 ws' ↔
        ¬ RepeatsTitle s (.create calloc title))) := fun heq hrep ↦
    ⟨ws, by rwa [heq], fun h ↦ iff_of_true (by rwa [heq]) hrep⟩
  by_cases hnil : title = []
  · -- the status window is found
    subst hnil
    refine hsame ?_ fun h ↦ absurd h.2.2.1 (by simp)
    obtain ⟨p, hp, w, hw, htitle⟩ := hs.status
    have hfind : tuiWindowFind s (some []) ≠ none := fun hnone ↦ by
      have hne := (hs.tuiWindowFind_eq_none []).mp hnone p (List.mem_of_mem_head? hp) w hw
      rw [if_pos rfl, htitle] at hne
      simp [strcaseeq] at hne
    obtain ⟨q, hq⟩ := Option.ne_none_iff_exists'.mp hfind
    rw [tuiWindowCreate, hq]
  by_cases hfind : tuiWindowFind s (some title) = none
  · by_cases hroom : s.numWindows < tuiMaxWindows
    · cases calloc with
      | false =>
        refine hsame ?_ fun h ↦ by cases h.1
        rw [tuiWindowCreate, hfind]
        simp [Nat.not_le.mpr hroom]
      | true =>
        have hcreate : (tuiWindowCreate true s title).2
            = s.addWindow ⟨copyInto 64 title, copyInto 128 title⟩ := by
          rw [tuiWindowCreate, hfind]
          simp [Nat.not_le.mpr hroom]
        rw [hcreate]
        refine ⟨_, hs.addWindow (hs.num ▸ hroom) (length_copyInto_lt (by omega) title), fun h ↦ ?_⟩
        rw [hs.distinct_addWindow, and_iff_right h]
        have hnone := (hs.tuiWindowFind_eq_none title).mp hfind
        rw [if_neg hnil] at hnone
        by_cases hlen : 64 ≤ title.length
        · constructor
          · rintro hall ⟨-, -, -, p, v, hv, hcase⟩
            have := hall p ((hs.live p).mpr (by rw [hv]; rfl)) v hv
            rw [copyInto, hcase] at this
            cases this
          · intro hrep p hp v hv
            by_contra hcase
            exact hrep ⟨rfl, hroom, hlen, p, v, hv, by simpa [copyInto] using hcase⟩
        · refine iff_of_true ?_ fun h ↦ hlen h.2.2.1
          rwa [copyInto, List.take_of_length_le (by omega)]
    · refine hsame ?_ fun h ↦ hroom h.2.1
      rw [tuiWindowCreate, hfind]
      simp [Nat.not_lt.mp hroom, hs.fixActive_eq]
  · obtain ⟨p, hp⟩ := Option.ne_none_iff_exists'.mp hfind
    refine hsame (by rw [tuiWindowCreate, hp]) ?_
    rintro ⟨-, -, hlen, -⟩
    -- a title that does not fit is found nowhere
    refine hfind ((hs.tuiWindowFind_eq_none title).mpr fun q _ w hw ↦ ?_)
    rw [if_neg hnil]
    by_contra hcase
    have hshort := hs.short q w hw
    have := strcaseeq_length (by simpa using hcase : strcaseeq w.title title = true)
    omega

/-! ## Destroying -/

theorem HasWindows.removeWindow {s : Tui} {ws : List ℕ} (hs : HasWindows s ws) {i : ℕ}
    (hi : i < ws.length) (hpos : 0 < i) {j : ℕ} (hj : j < ws.length - 1) :
    HasWindows (s.removeWindow ws[i] i j) (ws.eraseIdx i) := by
  have hlen := List.length_eraseIdx_of_lt hi
  have hheap : ∀ p, (s.removeWindow ws[i] i j).heap p = if p = ws[i] then none else s.heap p :=
    Function.update_apply s.heap ws[i] none
  have hmem : ∀ p, p ∈ ws.eraseIdx i ↔ p ≠ ws[i] ∧ p ∈ ws := fun p ↦ by
    rw [← hs.nodup.erase_getElem i hi, hs.nodup.mem_erase_iff]
  refine ⟨?_, ?_, fun p ↦ ?_, hs.nodup.eraseIdx i, fun p hp ↦ hs.fresh p ((hmem p).mp hp).2,
    ⟨Int.natCast_nonneg j, Int.ofNat_lt.mpr (hlen ▸ hj)⟩, ?_, fun p w hw ↦ ?_⟩
  · have herase := hs.packed.erase hi
    rwa [← hs.num] at herase
  · rw [hlen, ← hs.num]
    rfl
  · rw [hmem, hheap, hs.live p]
    split <;> simp [*]
  · obtain ⟨p, hp, w, hw, htitle⟩ := hs.status
    rw [List.head?_eq_getElem?] at hp
    obtain ⟨h0, rfl⟩ := List.getElem?_eq_some_iff.mp hp
    refine ⟨ws[0], ?_, w, ?_, htitle⟩
    · rw [List.head?_eq_getElem?, List.getElem?_eraseIdx_of_lt hpos, hp]
    · rw [hheap, if_neg]
      · exact hw
      · intro heq
        have := (hs.nodup.getElem_inj_iff).mp heq
        omega
  · rw [hheap] at hw
    split at hw
    · simp at hw
    · exact hs.short p w hw

theorem HasWindows.distinct_removeWindow {s : Tui} {ws : List ℕ} (hs : HasWindows s ws)
    (h : DistinctTitles s ws) {i : ℕ} (hi : i < ws.length) (j : ℤ) :
    DistinctTitles (s.removeWindow ws[i] i j) (ws.eraseIdx i) := by
  have hheap : ∀ p ∈ ws.eraseIdx i, (s.removeWindow ws[i] i j).heap p = s.heap p := fun p hp ↦ by
    rw [← hs.nodup.erase_getElem i hi, hs.nodup.mem_erase_iff] at hp
    exact Function.update_of_ne hp.1 _ _
  refine List.Pairwise.imp_of_mem (fun hp hq hpq ↦ ?_) (h.sublist (List.eraseIdx_sublist ws i))
  rwa [hheap _ hp, hheap _ hq]

/-- The index after a removal is in range. -/
theorem activeAfter_lt (a : ℕ) {n d : ℕ} (hd : 0 < d) (hdn : d < n) :
    ∃ j : ℕ, activeAfter a (n - 1) d = j ∧ j < n - 1 := by
  rw [activeAfter]
  split
  · exact ⟨d - 1, by omega, by omega⟩
  · split
    · exact ⟨a - 1, by omega, by omega⟩
    · exact ⟨a, rfl, by omega⟩

/-- **Which window is active after another one is removed**: the same, unless it was the last. -/
theorem getElem?_activeAfter_iff {ws : List ℕ} (hws : ws.Nodup) {a d j : ℕ} (ha : a < ws.length)
    (hd : 0 < d) (hdn : d < ws.length) (hne : d ≠ a) (hj : activeAfter a (ws.length - 1) d = j) :
    (ws.eraseIdx d)[j]? = ws[a]? ↔ a + 1 ≠ ws.length := by
  rw [List.getElem?_eraseIdx]
  rw [activeAfter] at hj
  split at hj
  · -- the index was out of range after the removal, and is taken for that of the window removed
    obtain rfl : j = d - 1 := by omega
    rw [if_pos (by omega)]
    refine iff_of_false (fun heq ↦ ?_) (by omega)
    have := (List.getElem?_inj (by omega) hws).mp heq
    omega
  · split at hj
    · obtain rfl : j = a - 1 := by omega
      rw [if_neg (by omega), Nat.sub_add_cancel (by omega)]
      exact iff_of_true rfl (by omega)
    · obtain rfl : j = a := by omega
      rw [if_pos (by omega)]
      exact iff_of_true rfl (by omega)

/-- The call removes a window other than the active one, and the active one is the last. -/
def RemovesBeforeLast (s : Tui) (w : Option ℕ) : Prop :=
  s.activeWin + 1 = s.numWindows ∧ w ≠ s.activeSlot ∧
    ∃ p win, w = some p ∧ s.heap p = some win ∧ strcaseeq win.title statusTitle = false

/-- **`tui_window_destroy`** leaves the windows alone, or removes one.  The titles stay distinct,
and if they are, the active window stays active exactly unless it is the last. -/
theorem HasWindows.tuiWindowDestroy_spec {s : Tui} {ws : List ℕ} (hs : HasWindows s ws) (calloc : Bool)
    {p : ℕ} (hp : p ∈ ws) :
    ∃ r s' ws', tuiWindowDestroy calloc s (some p) = some (r, s') ∧ HasWindows s' ws' ∧
      (DistinctTitles s ws → DistinctTitles s' ws' ∧
        (some p ≠ s.activeSlot →
          (s'.activeSlot = s.activeSlot ↔ ¬ RemovesBeforeLast s (some p)))) := by
  obtain ⟨win, hwin⟩ := hs.window hp
  by_cases hstatus : strcaseeq win.title statusTitle = true
  · refine ⟨false, s, ws, ?_, hs, fun h ↦ ⟨h, fun _ ↦ iff_of_true rfl ?_⟩⟩
    · rw [tuiWindowDestroy, hwin, Option.bind_eq_bind, Option.bind_some, if_pos hstatus,
        hs.printActive_eq]
      rfl
    · rintro ⟨-, -, q, win', hq, hwin', hne⟩
      obtain rfl := Option.some_inj.mp hq
      obtain rfl := Option.some_inj.mp (hwin.symm.trans hwin')
      rw [hstatus] at hne
      cases hne
  obtain ⟨i, hi, rfl⟩ := List.getElem_of_mem hp
  have hidx : s.slots.findIdx? (· == some ws[i]) = some i := by
    rw [hs.slots_eq, List.findIdx?_eq_some_iff_getElem]
    refine ⟨by rwa [List.length_map], by simp, fun k hk ↦ ?_⟩
    rw [List.getElem_map, beq_iff_eq, Option.some.injEq, hs.nodup.getElem_inj_iff]
    exact hk.ne
  have hpos : 0 < i := by
    refine Nat.pos_of_ne_zero fun hzero ↦ hstatus ?_
    subst hzero
    obtain ⟨q, hq, w, hw, htitle⟩ := hs.status
    rw [List.head?_eq_getElem?, List.getElem?_eq_getElem hi] at hq
    obtain rfl := Option.some_inj.mp hq
    obtain rfl := Option.some_inj.mp (hwin.symm.trans hw)
    rw [htitle, strcaseeq, beq_self_eq_true]
  obtain ⟨a, ha, halt⟩ := hs.exists_active
  obtain ⟨j, hj, hjlt⟩ := activeAfter_lt a hpos hi
  have hrem := hs.removeWindow hi hpos hjlt
  have hjlt' : j < (ws.eraseIdx i).length := by rwa [List.length_eraseIdx_of_lt hi]
  obtain ⟨r, k, hfocus, hk, hkj⟩ := hrem.focusSlot_spec calloc hjlt'
  refine ⟨false, _, ws.eraseIdx i, ?_, hrem.setActive hk, fun h ↦ ?_⟩
  · have hact : activeAfter s.activeWin (s.numWindows - 1) i = j := by rw [ha, hs.num, hj]
    have hslot : (s.removeWindow ws[i] i j).activeSlot ≠ none := by
      rw [hrem.activeSlot_eq rfl hjlt']
      exact Option.some_ne_none _
    rw [tuiWindowDestroy, hwin, Option.bind_eq_bind, Option.bind_some, if_neg hstatus, hidx]
    simp only [hs.tuiDraw_eq, ite_self, Option.bind_eq_bind, Option.bind_some]
    rw [hact, if_pos ⟨Int.natCast_nonneg j, hslot⟩]
    refine (congrArg (Option.bind · _) hfocus).trans ?_
    rfl
  · have hdistinct := hs.distinct_removeWindow h hi j
    obtain rfl := hkj hdistinct
    refine ⟨hdistinct, fun hne ↦ ?_⟩
    rw [hs.activeSlot_eq ha halt] at hne
    have hia : i ≠ a := fun heq ↦ hne (by simp only [heq])
    have hkeep := getElem?_activeAfter_iff hs.nodup halt hpos hi hia hj
    rw [List.getElem?_eq_getElem hk, List.getElem?_eq_getElem halt] at hkeep
    rw [(hrem.setActive hk).activeSlot_eq rfl hk, hs.activeSlot_eq ha halt, hkeep, not_iff_not]
    have hnum := hs.num
    constructor
    · intro hlast
      exact ⟨by omega, by rwa [hs.activeSlot_eq ha halt], _, win, rfl, hwin, by simpa using hstatus⟩
    · rintro ⟨hlast, -⟩
      omega

/-! ## Every call -/

/-- The window that the call is to destroy. -/
def TuiCall.closes (s : Tui) : TuiCall → Option ℕ
  | .destroy _ w => w
  | .destroyId _ id =>
    if id < 1 ∨ s.numWindows < id then none else s.windows.getD (id - 1).toNat none
  | _ => none

/-- A window that the call is given is one that there is. -/
def TuiCall.valid (s : Tui) : TuiCall → Prop
  | .destroy _ (some p) => (s.heap p).isSome = true
  | _ => True

/-- What a call owes: it returns, and if it is to destroy a window other than the active one, that
one stays active. -/
def CallOk (s : Tui) (c : TuiCall) : Prop :=
  ∃ s', tuiCall s c = some s' ∧
    ∀ p, c.closes s = some p → some p ≠ s.activeSlot → s'.activeSlot = s.activeSlot

/-- What a call does to a list of windows. -/
def CallSpec (s : Tui) (ws : List ℕ) (c : TuiCall) : Prop :=
  ∃ s' ws', tuiCall s c = some s' ∧ HasWindows s' ws' ∧ (DistinctTitles s ws →
    (DistinctTitles s' ws' ↔ ¬ RepeatsTitle s c) ∧ ∀ p, c.closes s = some p → some p ≠ s.activeSlot →
      (s'.activeSlot = s.activeSlot ↔ ¬ RemovesBeforeLast s (some p)))

section Calls

variable {s : Tui} {ws : List ℕ} (hs : HasWindows s ws)
include hs

/-- A call that does nothing but make some window active. -/
theorem HasWindows.callSpec_focus {c : TuiCall} {j : ℕ} (hj : j < ws.length)
    (hcall : tuiCall s c = some { s with activeWin := j }) (hcloses : c.closes s = none)
    (hrep : ¬ RepeatsTitle s c) : CallSpec s ws c :=
  ⟨_, ws, hcall, hs.setActive hj, fun h ↦ ⟨iff_of_true h hrep, fun p hp ↦ by simp [hcloses] at hp⟩⟩

theorem HasWindows.callSpec_same {c : TuiCall} (hcall : tuiCall s c = some s)
    (hcloses : c.closes s = none) (hrep : ¬ RepeatsTitle s c) : CallSpec s ws c := by
  obtain ⟨a, ha, halt⟩ := hs.exists_active
  exact hs.callSpec_focus halt (by rw [hcall, ← ha]) hcloses hrep

/-- Focusing a slot in use, and drawing. -/
theorem HasWindows.focusSlot_draw (calloc : Bool) {i : ℤ} (h0 : 0 ≤ i) (hi : i < s.numWindows) :
    ∃ j : ℕ, ((focusSlot calloc s i).bind fun r ↦ tuiDraw calloc r.2)
      = some { s with activeWin := j } ∧ j < ws.length := by
  obtain ⟨k, rfl⟩ := Int.eq_ofNat_of_zero_le h0
  obtain ⟨r, j, hfocus, hj, -⟩ := hs.focusSlot_spec calloc (i := k) (by have := hs.num; omega)
  exact ⟨j, by rw [hfocus, Option.bind_some, (hs.setActive hj).tuiDraw_eq], hj⟩

theorem HasWindows.focusAndRedraw_spec (calloc : Bool) {next : ℤ} (h0 : 0 ≤ next) :
    ∃ j : ℕ, focusAndRedraw calloc s (next.tmod s.numWindows) = some { s with activeWin := j } ∧
      j < ws.length := by
  have hpos : 0 < s.numWindows := hs.num ▸ hs.length_pos
  obtain ⟨j, hfocus, hj⟩ := hs.focusSlot_draw calloc (Int.tmod_nonneg s.numWindows h0)
    (Int.tmod_lt_of_pos next (by omega))
  exact ⟨j, by rw [focusAndRedraw, if_pos hpos]; exact hfocus, hj⟩

/-- **Every call** returns, keeps the windows in order, and keeps its promises unless it repeats a
title or removes a window while the last one is active. -/
theorem HasWindows.callSpec {c : TuiCall} (hc : c.valid s) : CallSpec s ws c := by
  cases c with
  | init calloc =>
    have hne : s.numWindows ≠ 0 := hs.num ▸ hs.length_pos.ne'
    exact hs.callSpec_same (by rw [tuiCall, tuiWindowInit, if_neg hne]) rfl id
  | create calloc title =>
    obtain ⟨ws', hs', hdistinct⟩ := hs.tuiWindowCreate_spec calloc title
    exact ⟨_, ws', rfl, hs', fun h ↦ ⟨hdistinct h, fun p hp ↦ by cases hp⟩⟩
  | focus calloc title =>
    rcases hs.tuiWindowFocus_spec calloc title with ⟨hnone, -⟩ | ⟨i, p, hi, -, -, -, hsome⟩
    · exact hs.callSpec_same (by rw [tuiCall, hnone]; rfl) rfl id
    · exact hs.callSpec_focus hi (by rw [tuiCall, hsome]; rfl) rfl id
  | focusId calloc id =>
    by_cases hout : id < 1 ∨ s.numWindows < id
    · refine hs.callSpec_same ?_ rfl (fun h ↦ h)
      rw [tuiCall, tuiWindowFocusId, if_pos hout, hs.printActive_eq]
      rfl
    · obtain ⟨k, hk⟩ : ∃ k : ℕ, id - 1 = k := Int.eq_ofNat_of_zero_le (by omega)
      have hlt : k < ws.length := by
        have := hs.num
        omega
      obtain ⟨r, j, hfocus, hj, -⟩ := hs.focusSlot_spec calloc hlt
      refine hs.callSpec_focus hj ?_ rfl (fun h ↦ h)
      rw [tuiCall, tuiWindowFocusId, if_neg hout, hk, Int.toNat_natCast, hs.slot_eq hlt,
        if_neg (Option.some_ne_none _), hfocus]
      rfl
  | swap calloc key =>
    by_cases hin : 0 ≤ (if key = 48 then 9 else key - 49) ∧
        (if key = 48 then 9 else key - 49) < (s.numWindows : ℤ)
    · obtain ⟨j, hfocus, hj⟩ := hs.focusSlot_draw calloc hin.1 hin.2
      refine hs.callSpec_focus hj ?_ rfl id
      rw [tuiCall, tuiWindowSwap]
      exact (if_pos hin).trans hfocus
    · refine hs.callSpec_same ?_ rfl id
      rw [tuiCall, tuiWindowSwap]
      exact if_neg hin
  | altLeft calloc =>
    have hnext : 0 ≤ s.activeWin - 1 + s.numWindows := by
      have hactive := hs.active
      have hnum := hs.num
      omega
    obtain ⟨j, hcall, hj⟩ := hs.focusAndRedraw_spec calloc hnext
    exact hs.callSpec_focus hj hcall rfl id
  | altRight calloc =>
    have hnext : 0 ≤ s.activeWin + 1 := Int.le_add_one hs.active.1
    obtain ⟨j, hcall, hj⟩ := hs.focusAndRedraw_spec calloc hnext
    exact hs.callSpec_focus hj hcall rfl id
  | destroy calloc w =>
    cases w with
    | none => exact hs.callSpec_same rfl rfl id
    | some p =>
      obtain ⟨r, s', ws', hcall, hs', hspec⟩ := hs.tuiWindowDestroy_spec calloc ((hs.live p).mpr hc)
      refine ⟨s', ws', by rw [tuiCall, hcall]; rfl, hs', fun h ↦ ⟨iff_of_true (hspec h).1 id, ?_⟩⟩
      rintro q ⟨⟩ hne
      exact (hspec h).2 hne
  | destroyId calloc id =>
    by_cases hout : id < 1 ∨ s.numWindows < id
    · refine hs.callSpec_same ?_ ?_ (fun h ↦ h)
      · rw [tuiCall, tuiWindowDestroyId, if_pos hout, hs.printActive_eq]
        rfl
      · rw [TuiCall.closes, if_pos hout]
    · obtain ⟨k, hk⟩ : ∃ k : ℕ, id - 1 = k := Int.eq_ofNat_of_zero_le (by omega)
      have hlt : k < ws.length := by
        have := hs.num
        omega
      obtain ⟨r, s', ws', hcall, hs', hspec⟩ :=
        hs.tuiWindowDestroy_spec calloc (List.getElem_mem hlt)
      refine ⟨s', ws', ?_, hs', fun h ↦ ⟨iff_of_true (hspec h).1 (fun h ↦ h), fun q hq hne ↦ ?_⟩⟩
      · rw [tuiCall, tuiWindowDestroyId, if_neg hout, hk, Int.toNat_natCast, hs.slot_eq hlt,
          if_neg (Option.some_ne_none _), hcall]
        rfl
      · rw [TuiCall.closes, if_neg hout, hk, Int.toNat_natCast, hs.slot_eq hlt] at hq
        obtain rfl := Option.some_inj.mp hq
        exact (hspec h).2 hne

end Calls

/-! ## Whole runs -/

/-- What the list of windows owes. -/
structure WindowsOk (s : Tui) : Prop where
  active : 0 ≤ s.activeWin ∧ s.activeWin < s.numWindows
  filled : ∀ i < s.numWindows, ∃ p, s.windows[i]? = some (some p)
  live : ∀ p, (s.heap p).isSome = true ↔ some p ∈ s.slots
  titles : ∀ (i j p q : ℕ) (w v : TuiWindow), i < j → s.slots[i]? = some (some p) →
    s.slots[j]? = some (some q) → s.heap p = some w → s.heap q = some v → strcaseeq w.title v.title = false
  status : ∃ p w, some p ∈ s.slots ∧ s.heap p = some w ∧ strcaseeq w.title statusTitle = true

/-- In a list of windows only the titles can be wrong. -/
theorem HasWindows.windowsOk_iff {s : Tui} {ws : List ℕ} (hs : HasWindows s ws) :
    WindowsOk s ↔ DistinctTitles s ws := by
  have hslots := hs.slots_eq
  have hnum := hs.num
  have hget : ∀ i p, s.slots[i]? = some (some p) ↔ ws[i]? = some p := fun i p ↦ by
    rw [hslots, List.getElem?_map, Option.map_eq_some_iff]
    simp only [Option.some.injEq, exists_eq_right]
    rfl
  constructor
  · intro h
    refine List.pairwise_iff_getElem.mpr fun i j hi hj hij w v hw hv ↦ ?_
    exact h.titles i j ws[i] ws[j] w v hij ((hget i _).mpr (List.getElem?_eq_getElem hi))
      ((hget j _).mpr (List.getElem?_eq_getElem hj)) hw hv
  · intro h
    refine ⟨by rw [hnum]; exact hs.active, fun i hi ↦ ?_, fun p ↦ ?_,
      fun i j p q w v hij hp hq hw hv ↦ ?_, ?_⟩
    · have hlt : i < ws.length := hnum ▸ hi
      exact ⟨ws[i], by rw [hs.packed.getElem? hlt, List.getElem?_eq_getElem hlt]; rfl⟩
    · rw [hslots, ← hs.live p]
      simp
    · rw [hget] at hp hq
      obtain ⟨hi, rfl⟩ := List.getElem?_eq_some_iff.mp hp
      obtain ⟨hj, rfl⟩ := List.getElem?_eq_some_iff.mp hq
      exact List.pairwise_iff_getElem.mp h i j hi hj hij w v hw hv
    · obtain ⟨p, hp, w, hw, htitle⟩ := hs.status
      refine ⟨p, w, ?_, hw, by rw [htitle, strcaseeq, beq_self_eq_true]⟩
      rw [hslots]
      exact List.mem_map_of_mem (List.mem_of_mem_head? hp)

/-- After `tui_window_init`. -/
def tuiStart (isEnabled : Bool) : Tui where
  heap := Function.update (fun _ ↦ none) 0 (some ⟨statusTitle, statusTitle⟩)
  nextWindow := 1
  windows := some 0 :: List.replicate (tuiMaxWindows - 1) none
  activeWin := 0
  numWindows := 1
  isEnabled := isEnabled

theorem hasWindows_tuiStart (isEnabled : Bool) : HasWindows (tuiStart isEnabled) [0] := by
  have hheap : ∀ p, (tuiStart isEnabled).heap p
      = if p = 0 then some ⟨statusTitle, statusTitle⟩ else none :=
    fun p ↦ Function.update_apply (fun _ ↦ none) 0 _ p
  refine ⟨⟨by decide, rfl⟩, rfl, fun p ↦ ?_, by simp, fun p hp ↦ ?_, ⟨Int.le_refl 0, Int.zero_lt_one⟩,
    ⟨0, rfl, ⟨statusTitle, statusTitle⟩, hheap 0, rfl⟩,
    fun p w hw ↦ ?_⟩
  · rw [hheap, List.mem_singleton]
    split <;> simp [*]
  · rw [List.mem_singleton.mp hp]
    exact Nat.one_pos
  · rw [hheap] at hw
    split at hw
    · obtain rfl := Option.some_inj.mp hw
      decide
    · cases hw

theorem distinctTitles_tuiStart (isEnabled : Bool) : DistinctTitles (tuiStart isEnabled) [0] :=
  List.pairwise_singleton ..

theorem TuiCall.valid_of_eq_some {s s' : Tui} {c : TuiCall} (h : tuiCall s c = some s') :
    c.valid s := by
  cases c with
  | destroy calloc w =>
    cases w with
    | none => trivial
    | some p =>
      rw [TuiCall.valid]
      cases hp : s.heap p with
      | none => simp [tuiCall, tuiWindowDestroy, hp] at h
      | some w => rfl
  | _ => trivial

theorem HasWindows.call {s s' : Tui} {c : TuiCall} (hs : ∃ ws, HasWindows s ws)
    (h : tuiCall s c = some s') : ∃ ws, HasWindows s' ws := by
  obtain ⟨ws, hs⟩ := hs
  obtain ⟨s'', ws', hcall, hs', -⟩ := hs.callSpec (TuiCall.valid_of_eq_some h)
  obtain rfl := Option.some_inj.mp (hcall.symm.trans h)
  exact ⟨ws', hs'⟩

/-- **A call keeps the titles apart** exactly unless it repeats one. -/
theorem HasWindows.windowsOk_call {s s' : Tui} {c : TuiCall} (hs : ∃ ws, HasWindows s ws)
    (hok : WindowsOk s) (h : tuiCall s c = some s') : WindowsOk s' ↔ ¬ RepeatsTitle s c := by
  obtain ⟨ws, hs⟩ := hs
  obtain ⟨s'', ws', hcall, hs', hspec⟩ := hs.callSpec (TuiCall.valid_of_eq_some h)
  obtain rfl := Option.some_inj.mp (hcall.symm.trans h)
  rw [hs'.windowsOk_iff, (hspec (hs.windowsOk_iff.mp hok)).1]

/-- **A call is right** exactly unless it removes another window while the last one is active. -/
theorem HasWindows.callOk_iff {s : Tui} {c : TuiCall} (hs : ∃ ws, HasWindows s ws)
    (hok : WindowsOk s) : (c.valid s ∧ ¬ CallOk s c) ↔ RemovesBeforeLast s (c.closes s) := by
  obtain ⟨ws, hs⟩ := hs
  have hdistinct := hs.windowsOk_iff.mp hok
  constructor
  · rintro ⟨hvalid, hbad⟩
    obtain ⟨s', ws', hcall, -, hspec⟩ := hs.callSpec hvalid
    by_contra hremoves
    refine hbad ⟨s', hcall, fun p hp hne ↦ ((hspec hdistinct).2 p hp hne).mpr ?_⟩
    rwa [← hp]
  · intro hremoves
    obtain ⟨-, hne, p, win, hp, hwin, -⟩ := id hremoves
    have hvalid : c.valid s := by
      cases c with
      | destroy calloc w =>
        obtain rfl : w = some p := hp
        rw [TuiCall.valid, hwin]
        rfl
      | _ => trivial
    refine ⟨hvalid, ?_⟩
    rintro ⟨s', hcall, hkeep⟩
    obtain ⟨s'', ws', hcall', -, hspec⟩ := hs.callSpec hvalid
    obtain rfl := Option.some_inj.mp (hcall.symm.trans hcall')
    rw [hp] at hne
    exact ((hspec hdistinct).2 p hp hne).mp (hkeep p hp hne) (hp ▸ hremoves)

/-- **When the windows stay in order.**  In a run from `tui_window_init`, every state has its
windows in order, and every call returns and leaves the active window active that it is not to
destroy, exactly when no call repeats a title or removes another window while the last one is
active. -/
theorem windowList_iff (isEnabled : Bool) (cs : List TuiCall) :
    (Always tuiCall (tuiStart isEnabled) cs WindowsOk ∧
      NoStep tuiCall (tuiStart isEnabled) cs (fun s c ↦ c.valid s ∧ ¬ CallOk s c)) ↔
    NoStep tuiCall (tuiStart isEnabled) cs
      (fun s c ↦ RepeatsTitle s c ∨ RemovesBeforeLast s (c.closes s)) := by
  have hstart : ∃ ws, HasWindows (tuiStart isEnabled) ws := ⟨_, hasWindows_tuiStart isEnabled⟩
  have hwindows : ∀ {cs' s}, runSteps tuiCall (tuiStart isEnabled) cs' = some s →
      ∃ ws, HasWindows s ws := fun {cs' s} h ↦
    inv_of_runSteps (I := fun s ↦ ∃ ws, HasWindows s ws) hstart
      (fun _ _ _ hs h ↦ HasWindows.call hs h) cs' s h
  have htitles : Always tuiCall (tuiStart isEnabled) cs WindowsOk ↔
      NoStep tuiCall (tuiStart isEnabled) cs RepeatsTitle := by
    refine always_iff_noStep (I := fun s ↦ ∃ ws, HasWindows s ws) hstart
      ((hasWindows_tuiStart isEnabled).windowsOk_iff.mpr (distinctTitles_tuiStart isEnabled))
      (fun _ _ _ hs h ↦ HasWindows.call hs h)
      (fun _ _ _ hs hok hrep h ↦ (HasWindows.windowsOk_call hs hok h).mpr hrep)
      (fun s c hs hok hrep ↦ ?_) cs
    obtain ⟨s', hcall⟩ : ∃ s', tuiCall s c = some s' := by
      cases c with
      | create calloc title => exact ⟨_, rfl⟩
      | _ => exact hrep.elim
    exact ⟨s', hcall, fun hok' ↦ (HasWindows.windowsOk_call hs hok hcall).mp hok' hrep⟩
  constructor
  · rintro ⟨halways, hcalls⟩ cs' c s hpre hs (hrep | hremoves)
    · exact htitles.mp halways cs' c s hpre hs hrep
    · have hok := halways cs' s ((List.prefix_append cs' [c]).trans hpre) hs
      exact hcalls cs' c s hpre hs ((HasWindows.callOk_iff (hwindows hs) hok).mpr hremoves)
  · intro h
    have halways := htitles.mpr fun cs' c s hpre hs hrep ↦ h cs' c s hpre hs (.inl hrep)
    refine ⟨halways, fun cs' c s hpre hs hbad ↦ ?_⟩
    have hok := halways cs' s ((List.prefix_append cs' [c]).trans hpre) hs
    exact h cs' c s hpre hs (.inr ((HasWindows.callOk_iff (hwindows hs) hok).mp hbad))

/-- Two windows besides the status window, and the last one is active. -/
def closeMiddle : List TuiCall :=
  [.create true [97], .create true [98], .focus true [98], .destroy true (some 1)]

/-- A title of 64 letters, twice. -/
def longTitleTwice : List TuiCall :=
  [.create true (List.replicate 64 97), .create true (List.replicate 64 97)]

/-- Destroying the window in the middle makes the status window active, and the second window with a
long title is a second one with the title of the first. -/
theorem not_windowsOk_closeMiddle :
    ¬ (Always tuiCall (tuiStart true) closeMiddle WindowsOk ∧
        NoStep tuiCall (tuiStart true) closeMiddle (fun s c ↦ c.valid s ∧ ¬ CallOk s c)) ∧
      ¬ Always tuiCall (tuiStart true) longTitleTwice WindowsOk := by
  constructor
  · rintro ⟨-, hcalls⟩
    have hrun : ((runSteps tuiCall (tuiStart true) (closeMiddle.take 3)).bind fun s ↦
        (tuiCall s (.destroy true (some 1))).map fun s' ↦
          ((s.heap 1).isSome, s.activeSlot, s'.activeSlot)) = some (true, some 2, some 0) := by decide
    obtain ⟨s, hs, hstep⟩ := Option.bind_eq_some_iff.mp hrun
    obtain ⟨s', hs', hfacts⟩ := Option.map_eq_some_iff.mp hstep
    rw [Prod.mk.injEq, Prod.mk.injEq] at hfacts
    obtain ⟨hlive, hbefore, hafter⟩ := hfacts
    refine hcalls (closeMiddle.take 3) (.destroy true (some 1)) s (List.prefix_refl closeMiddle) hs
      ⟨hlive, ?_⟩
    rintro ⟨s'', hs'', hkeep⟩
    obtain rfl := Option.some_inj.mp (hs'.symm.trans hs'')
    have hsame := hkeep 1 rfl (by rw [hbefore]; decide)
    rw [hbefore, hafter] at hsame
    cases hsame
  · intro hok
    have hrun : (runSteps tuiCall (tuiStart true) longTitleTwice).map (fun s ↦
        (s.slots.take 3, (s.heap 1).map TuiWindow.title, (s.heap 2).map TuiWindow.title))
        = some ([some 0, some 1, some 2], some (List.replicate 63 97),
          some (List.replicate 63 97)) := by decide +kernel
    obtain ⟨s, hs, hfacts⟩ := Option.map_eq_some_iff.mp hrun
    rw [Prod.mk.injEq, Prod.mk.injEq] at hfacts
    obtain ⟨hslots, hfirst, hsecond⟩ := hfacts
    obtain ⟨w, hw, hwt⟩ := Option.map_eq_some_iff.mp hfirst
    obtain ⟨v, hv, hvt⟩ := Option.map_eq_some_iff.mp hsecond
    have hget : ∀ i < 3, s.slots[i]? = [some 0, some 1, some 2][i]? := fun i hi ↦ by
      rw [← hslots, List.getElem?_take_of_lt hi]
    have htitles := (hok _ s (List.prefix_refl _) hs).titles 1 2 1 2 w v (by decide)
      (hget 1 (by decide)) (hget 2 (by decide)) hw hv
    rw [hwt, hvt, strcaseeq, beq_self_eq_true] at htitles
    cases htitles

end Rustyaxe
