import Mathlib.Data.Nat.Find
import Mathlib.Order.Basic

/-!
# Searching along a probe sequence

An open-addressing table is a function from positions to `Cell`s, and every key comes with a
*probe sequence* `p : ℕ → ℕ`, the positions tried for it in order.  A cell is `empty` (never used
since the table was made), `deleted` (its entry was taken out again) or `full`.

`search` walks the sequence.  It stops at a full cell that `hit` accepts, or at an empty cell; in
the second case it reports the first deleted cell it went past, if there was one, so that an
insertion can reuse it.  It is the walk of every such table, whatever its probe sequence is.

* `search_eq_none_iff`: the walk uses up its fuel exactly when it passes every cell it looks at.
* `search_eq_some`: whatever it returns is a hit, or a free position that lies on the path of the
  key.
* `search_of_onPath`: an entry that lies on its path is found.
* `OnPath cell p i`: position `i` is met before any empty cell.  This is the clause of a table's
  invariant that makes an entry findable, and `OnPath.mono` says that it survives every change
  that makes no empty cell — filling one, and deleting one.
-/

set_option autoImplicit false

namespace ProbeSearch

/-- A position of an open-addressing table. -/
inductive Cell (α : Type) where
  /-- Never used. -/
  | empty
  /-- Used once, and deleted since. -/
  | deleted
  /-- In use. -/
  | full (a : α)
  deriving DecidableEq, Repr

variable {α : Type} (cell : ℕ → Cell α) (hit : α → Bool) (p : ℕ → ℕ)

/-- Walk the probe sequence from step `n` for at most `fuel` cells.  `free` is the first deleted
position met so far.  `none` means that the fuel ran out. -/
def search : (fuel n : ℕ) → (free : Option ℕ) → Option ℕ
  | 0, _, _ => none
  | fuel + 1, n, free =>
    match cell (p n) with
    | .empty => some (free.getD (p n))
    | .deleted => search fuel (n + 1) (free.or (some (p n)))
    | .full a => if hit a then some (p n) else search fuel (n + 1) free

/-- The walk goes past step `n`: the cell is neither empty nor a hit. -/
def Passes (n : ℕ) : Prop :=
  cell (p n) ≠ .empty ∧ ∀ a, cell (p n) = .full a → hit a = false

/-- Position `i` is met before any empty cell. -/
def OnPath (i : ℕ) : Prop := ∃ n, p n = i ∧ ∀ m < n, cell (p m) ≠ .empty

variable {cell hit p}

theorem search_eq_none_iff : ∀ {fuel n : ℕ} {free : Option ℕ},
    search cell hit p fuel n free = none ↔ ∀ m < fuel, Passes cell hit p (n + m)
  | 0, _, _ => by simp [search]
  | fuel + 1, n, free => by
    have hsplit : (∀ m < fuel + 1, Passes cell hit p (n + m)) ↔
        Passes cell hit p n ∧ ∀ m < fuel, Passes cell hit p (n + 1 + m) := by
      refine ⟨fun h ↦ ⟨h 0 (by omega), fun m hm ↦ ?_⟩, fun h m hm ↦ ?_⟩
      · have := h (m + 1) (by omega)
        rwa [show n + (m + 1) = n + 1 + m by omega] at this
      · cases m with
        | zero => exact h.1
        | succ m => rw [show n + (m + 1) = n + 1 + m by omega]; exact h.2 m (by omega)
    rw [hsplit, search]
    cases hc : cell (p n) with
    | empty => simp [Passes, hc]
    | deleted => simpa [Passes, hc] using search_eq_none_iff
    | full a =>
      by_cases ha : hit a = true
      · simp [Passes, hc, ha]
      · simpa [Passes, hc, ha] using search_eq_none_iff

/-- **What a walk can return**: a hit, or a position that is not in use and lies on the path.  The
two hypotheses are the invariant of the walk: it has met no empty cell before step `n`, and the
position it is carrying was deleted. -/
theorem search_eq_some : ∀ {fuel n : ℕ} {free : Option ℕ} {i : ℕ},
    (∀ m < n, cell (p m) ≠ .empty) →
    (∀ f, free = some f → cell f = .deleted ∧ OnPath cell p f) →
    search cell hit p fuel n free = some i →
    (∃ a, cell i = .full a ∧ hit a = true) ∨
      ((cell i = .empty ∨ cell i = .deleted) ∧ OnPath cell p i)
  | 0, _, _, _, _, _, h => by simp [search] at h
  | fuel + 1, n, free, i, hne, hfree, h => by
    have hnext : cell (p n) ≠ .empty → ∀ m < n + 1, cell (p m) ≠ .empty := fun hn m hm ↦ by
      rcases Nat.lt_succ_iff_lt_or_eq.mp hm with hm | rfl
      · exact hne m hm
      · exact hn
    rw [search] at h
    cases hc : cell (p n) with
    | empty =>
      rw [hc] at h
      cases hf : free with
      | none =>
        obtain rfl : p n = i := by simpa [hf] using h
        exact .inr ⟨.inl hc, n, rfl, hne⟩
      | some f =>
        obtain rfl : f = i := by simpa [hf] using h
        exact .inr ⟨.inr (hfree f hf).1, (hfree f hf).2⟩
    | deleted =>
      rw [hc] at h
      refine search_eq_some (hnext (by simp [hc])) (fun f hf ↦ ?_) h
      cases hf' : free with
      | none =>
        obtain rfl : p n = f := by simpa [hf'] using hf
        exact ⟨hc, n, rfl, hne⟩
      | some g =>
        obtain rfl : g = f := by simpa [hf'] using hf
        exact hfree g hf'
    | full a =>
      rw [hc] at h
      by_cases ha : hit a = true
      · obtain rfl : p n = i := by simpa [ha] using h
        exact .inl ⟨a, hc, ha⟩
      · exact search_eq_some (hnext (by simp [hc])) hfree (by simpa [ha] using h)

/-- A walk with enough fuel to reach step `k` finds a hit there, if nothing before it is empty and
every hit is at that position. -/
theorem search_of_hit {i : ℕ} {a : α} (hi : cell i = .full a) (ha : hit a = true)
    (huniq : ∀ j b, cell j = .full b → hit b = true → j = i) :
    ∀ {k fuel n : ℕ} {free : Option ℕ}, k < fuel → p (n + k) = i →
      (∀ m < k, cell (p (n + m)) ≠ .empty) → search cell hit p fuel n free = some i
  | 0, fuel + 1, n, free, _, hp, _ => by
    rw [Nat.add_zero] at hp
    rw [search, hp, hi]
    simp [ha]
  | k + 1, fuel + 1, n, free, hk, hp, hne => by
    have hnext : ∀ free', search cell hit p fuel (n + 1) free' = some i := fun free' ↦ by
      refine search_of_hit hi ha huniq (by omega) (k := k) ?_ (fun m hm ↦ ?_)
      · rw [← hp]; congr 1; omega
      · have := hne (m + 1) (by omega)
        rwa [show n + (m + 1) = n + 1 + m by omega] at this
    rw [search]
    cases hc : cell (p n) with
    | empty => exact absurd hc (hne 0 (by omega))
    | deleted => exact hnext _
    | full b =>
      by_cases hb : hit b = true
      · simp [hb, huniq _ b hc hb]
      · simpa [hb] using hnext free

/-- **An entry on its path is found**, by any walk long enough to see every position. -/
theorem search_of_onPath {fuel i : ℕ} {a : α} (hcover : ∃ n < fuel, p n = i)
    (hpath : OnPath cell p i) (hi : cell i = .full a) (ha : hit a = true)
    (huniq : ∀ j b, cell j = .full b → hit b = true → j = i) :
    search cell hit p fuel 0 none = some i := by
  classical
  have hex : ∃ n, p n = i := let ⟨n, _, hn⟩ := hcover; ⟨n, hn⟩
  obtain ⟨n, hn, hne⟩ := hpath
  have hle : Nat.find hex ≤ n := Nat.find_min' hex hn
  refine search_of_hit hi ha huniq (k := Nat.find hex) ?_ ?_ (fun m hm ↦ ?_)
  · obtain ⟨n', hlt, hn'⟩ := hcover
    exact lt_of_le_of_lt (Nat.find_min' hex hn') hlt
  · rw [Nat.zero_add]; exact Nat.find_spec hex
  · rw [Nat.zero_add]; exact hne m (by omega)

theorem OnPath.mono {cell' : ℕ → Cell α} {i : ℕ} (h : OnPath cell p i)
    (hle : ∀ j, cell' j = .empty → cell j = .empty) : OnPath cell' p i :=
  let ⟨n, hn, hne⟩ := h
  ⟨n, hn, fun m hm he ↦ hne m hm (hle _ he)⟩

end ProbeSearch
