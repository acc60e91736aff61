import Mathlib.Algebra.Order.BigOperators.Group.Finset
import Rustyaxe.Tui.Rows

/-!
# The scrollback of a window

The ring of messages of a `tui_window_t`, the log area of `tui_redraw_screen`, and `handle_pgup`
and `handle_pgdn` of `tui.keys.c`.

The scroll offset counts rows of the screen from the newest one.  The renderer bounds it by the
rows of all messages (`maxScroll`), and `handle_pgup` by their number.
-/

set_option autoImplicit false

namespace Rustyaxe

/-! ## The ring -/

/-- `LOG_LINES` -/
def logLines : ℕ := 500

/-- The messages of a `tui_window_t` that shows its log.  `none` is `NULL`, and there is none among
the last `logCount` entries before `logHead`. -/
structure LogWindow where
  buffer : ℕ → Option CStr
  logHead : ℕ
  scrollOffset : ℤ
  logCount : ℕ
  head_lt : logHead < logLines
  count_le : logCount ≤ logLines
  stored : ∀ i < logCount,
    (buffer (((logHead + logLines - logCount) % logLines + i) % logLines)).isSome

namespace LogWindow

/-- A new window, and one after `tui_clear_scrollback`. -/
def empty : LogWindow where
  buffer _ := none
  logHead := 0
  scrollOffset := 0
  logCount := 0
  head_lt := by decide
  count_le := Nat.zero_le _
  stored i h := absurd h (Nat.not_lt_zero i)

/-- What `tui_vprint` does with a line, on a terminal of so many columns. -/
def append (w : LogWindow) (cols : ℕ) (line : CStr) : LogWindow where
  buffer := Function.update w.buffer w.logHead (some line)
  logHead := (w.logHead + 1) % logLines
  scrollOffset :=
    if 0 < w.scrollOffset then w.scrollOffset + tuiLineRows (some line) cols else w.scrollOffset
  logCount := if w.logCount < logLines then w.logCount + 1 else w.logCount
  head_lt := Nat.mod_lt _ (by decide)
  count_le := by
    split_ifs with h
    · exact h
    · exact w.count_le
  stored i hi := by
    have hhead := w.head_lt
    have hcount := w.count_le
    obtain ⟨k, hk⟩ : ∃ k, (((w.logHead + 1) % logLines + logLines -
        (if w.logCount < logLines then w.logCount + 1 else w.logCount)) % logLines + i) %
        logLines = k := ⟨_, rfl⟩
    rw [hk]
    by_cases hnew : k = w.logHead
    · rw [hnew, Function.update_self]
      rfl
    · rw [Function.update_of_ne hnew]
      -- An older message, which has kept its place in the buffer.
      have hold (j : ℕ) (hj : j < w.logCount)
          (heq : k = ((w.logHead + logLines - w.logCount) % logLines + j) % logLines) :
          (w.buffer k).isSome := heq ▸ w.stored j hj
      rw [logLines] at *
      split_ifs at hi hk with hfull
      · exact hold i (by omega) (by omega)
      · exact hold (i + 1) (by omega) (by omega)

/-- `oldest` -/
def oldest (w : LogWindow) : ℕ := (w.logHead + logLines - w.logCount) % logLines

/-- `w->buffer[idx]` -/
def entry (w : LogWindow) (i : ℕ) : Option CStr := w.buffer ((w.oldest + i) % logLines)

end LogWindow

/-! ## The log area -/

section Screen

variable (rows cols : ℕ)

/-- `log_area_rows` -/
def logAreaRows : ℤ := rows - 3

/-- `total_rows` -/
def totalRows (w : LogWindow) : ℕ :=
  (List.range w.logCount).foldl (fun total i ↦ match w.entry i with
    | some line => total + tuiLineRows (some line) cols
    | none => total) 0

/-- `max_scroll`, of `tui_redraw_screen`. -/
def maxScroll (w : LogWindow) : ℤ :=
  if logAreaRows rows < totalRows cols w then totalRows cols w - logAreaRows rows else 0

/-- The offset that the renderer leaves. -/
def clampScroll (w : LogWindow) : LogWindow :=
  { w with
    scrollOffset :=
      if w.scrollOffset < 0 then 0
      else if maxScroll rows cols w < w.scrollOffset then maxScroll rows cols w
      else w.scrollOffset }

/-- `target_row` -/
def targetRow (w : LogWindow) : ℕ :=
  (totalRows cols w - logAreaRows rows - w.scrollOffset).toNat

/-- The loop that looks for the message of `target_row`: `start` and `skip_rows`. -/
def findStart (w : LogWindow) : (is : List ℕ) → (skipRows : ℕ) → ℕ × ℕ
  | [], skipRows => (w.oldest, skipRows)
  | i :: is, skipRows =>
    match w.entry i with
    | none => findStart w is skipRows
    | some line =>
      if skipRows < tuiLineRows (some line) cols then ((w.oldest + i) % logLines, skipRows)
      else findStart w is (skipRows - tuiLineRows (some line) cols)

/-- The loop that writes the messages, from `start` on. -/
def drawMessages (buffer : ℕ → Option CStr) (start : ℕ) : (is : List ℕ) → Drawing → Drawing
  | [], d => d
  | i :: is, d =>
    if d.row + 1 < rows then
      match buffer ((start + i) % logLines) with
      | none => drawMessages buffer start is d
      | some line => drawMessages buffer start is (messageLoop rows cols line [] 0 d)
    else d

/-- The rows of the log area, from a row of a message on. -/
def drawLog (w : LogWindow) (start skipRows : ℕ) : List Row :=
  (drawMessages rows cols w.buffer start (List.range w.logCount) ⟨2, skipRows, true, []⟩).shown

/-- `tui_redraw_screen`, between the top line and the footer: the window it leaves, and what it
writes. -/
def tuiRedrawScreen (w : LogWindow) : LogWindow × List Row :=
  let w := clampScroll rows cols w
  let (start, skipRows) := findStart cols w (List.range w.logCount) (targetRow rows cols w)
  (w, drawLog rows cols w start skipRows)

/-- `page`, of the key handlers. -/
def pageRows : ℤ := if (rows : ℤ) - 3 < 1 then 1 else rows - 3

/-- `handle_pgup` -/
def handlePgup (w : LogWindow) : LogWindow :=
  let page := pageRows rows
  let maxScroll := if page < w.logCount then w.logCount - page else 0
  (tuiRedrawScreen rows cols { w with
    scrollOffset :=
      if maxScroll < w.scrollOffset + page then maxScroll else w.scrollOffset + page }).1

/-- `handle_pgdn` -/
def handlePgdn (w : LogWindow) : LogWindow :=
  let page := pageRows rows
  (tuiRedrawScreen rows cols { w with
    scrollOffset := if w.scrollOffset - page < 0 then 0 else w.scrollOffset - page }).1

/-! ## What the user asks for -/

/-- From any offset, page up comes to the bound of the renderer, where the log area starts at the
oldest message, and page down goes back from there. -/
def ScrollbackReachable (w : LogWindow) : Prop :=
  ∀ offset, ∃ n, ∃ top, top = (handlePgup rows cols)^[n] { w with scrollOffset := offset } ∧
    top.scrollOffset = maxScroll rows cols w ∧
    (tuiRedrawScreen rows cols top).2 = drawLog rows cols w w.oldest 0 ∧
    ∃ k, ((handlePgdn rows cols)^[k] top).scrollOffset = 0

/-- All messages fit the log area, or none takes more than a row. -/
def LogFits (w : LogWindow) : Prop :=
  (totalRows cols w : ℤ) ≤ logAreaRows rows ∨
    ∀ i < w.logCount, ∀ line, w.entry i = some line → tuiLineRows (some line) cols = 1

end Screen

/-! ## Pages

A position is moved by a page, and kept between two bounds. -/

/-- One page up, to the bound at most. -/
def pageUp (page bound o : ℤ) : ℤ := max 0 (min (o + page) bound)

/-- One page down. -/
def pageDown (page o : ℤ) : ℤ := max 0 (o - page)

theorem iterate_pageUp_le (page : ℤ) {bound : ℤ} (hbound : 0 ≤ bound) {o : ℤ} (ho : o ≤ bound)
    (n : ℕ) : (pageUp page bound)^[n] o ≤ bound := by
  induction n with
  | zero => exact ho
  | succ n ih =>
    rw [Function.iterate_succ_apply']
    exact max_le hbound (min_le_right _ _)

theorem exists_iterate_pageUp {page bound : ℤ} (hpage : 0 < page) (hbound : 0 ≤ bound) (o : ℤ) :
    ∃ n, (pageUp page bound)^[n] o = bound := by
  have hclimb (n : ℕ) : min bound n ≤ (pageUp page bound)^[n + 1] o := by
    induction n with
    | zero => exact (min_le_right _ _).trans (le_max_left _ _)
    | succ n ih =>
      rw [Function.iterate_succ_apply', pageUp]
      omega
  refine ⟨bound.toNat + 1, le_antisymm ?_ ?_⟩
  · rw [Function.iterate_succ_apply']
    exact max_le hbound (min_le_right _ _)
  · have htop := hclimb bound.toNat
    rwa [Int.toNat_of_nonneg hbound, min_self] at htop

theorem exists_iterate_pageDown {page : ℤ} (hpage : 0 < page) {o : ℤ} (ho : 0 ≤ o) :
    ∃ k, (pageDown page)^[k] o = 0 := by
  have hfall (k : ℕ) : 0 ≤ (pageDown page)^[k] o ∧ (pageDown page)^[k] o ≤ max 0 (o - k) := by
    induction k with
    | zero =>
      rw [Function.iterate_zero_apply]
      omega
    | succ k ih =>
      rw [Function.iterate_succ_apply', pageDown]
      omega
  have hend := hfall o.toNat
  exact ⟨o.toNat, by omega⟩

/-! ## The rows of all messages -/

theorem lineRowsLoop_le {width : ℕ} (s : CStr) (rows col : ℕ) :
    rows ≤ lineRowsLoop width s rows col := by
  induction s, rows, col using lineRowsLoop.induct width with
  | case1 => rw [lineRowsLoop]
  | case2 rows col c s hescape ih =>
    rw [lineRowsLoop, if_pos hescape]
    exact ih
  | case3 rows col s hescape ih =>
    rw [lineRowsLoop, if_neg hescape, if_pos rfl]
    exact (Nat.le_succ rows).trans ih
  | case4 rows col c s hescape hnewline hfull ih =>
    rw [lineRowsLoop, if_neg hescape, if_neg hnewline, if_pos hfull]
    exact (Nat.le_succ rows).trans ih
  | case5 rows col c s hescape hnewline hfull ih =>
    rw [lineRowsLoop, if_neg hescape, if_neg hnewline, if_neg hfull]
    exact ih

/-- Every message is counted. -/
theorem tuiLineRows_pos (s : Option CStr) (width : ℕ) : 1 ≤ tuiLineRows s width := by
  rcases s with _ | s
  · exact le_rfl
  · rw [tuiLineRows]
    split_ifs
    · exact le_rfl
    · exact lineRowsLoop_le s 1 0

theorem totalRows_eq (cols : ℕ) (w : LogWindow) :
    totalRows cols w = ∑ i ∈ Finset.range w.logCount, tuiLineRows (w.entry i) cols := by
  have hsum : ∑ i ∈ Finset.range w.logCount, tuiLineRows (w.entry i) cols =
      ((List.range w.logCount).map fun i ↦ tuiLineRows (w.entry i) cols).sum := rfl
  rw [hsum, List.sum_eq_foldl, List.foldl_map, totalRows]
  refine List.foldl_ext _ _ _ fun total i hi ↦ ?_
  obtain ⟨line, hline⟩ := Option.isSome_iff_exists.mp (w.stored i (List.mem_range.mp hi))
  have hentry : w.entry i = some line := hline
  rw [hentry]

theorem sum_one (w : LogWindow) : ∑ _i ∈ Finset.range w.logCount, 1 = w.logCount := by
  rw [← Finset.card_eq_sum_ones, Finset.card_range]

theorem logCount_le_totalRows (cols : ℕ) (w : LogWindow) : w.logCount ≤ totalRows cols w := by
  calc w.logCount = ∑ _i ∈ Finset.range w.logCount, 1 := (sum_one w).symm
    _ ≤ ∑ i ∈ Finset.range w.logCount, tuiLineRows (w.entry i) cols :=
        Finset.sum_le_sum fun i _ ↦ tuiLineRows_pos (w.entry i) cols
    _ = totalRows cols w := (totalRows_eq cols w).symm

theorem totalRows_eq_logCount_iff (cols : ℕ) (w : LogWindow) : totalRows cols w = w.logCount ↔
    ∀ i < w.logCount, ∀ line, w.entry i = some line → tuiLineRows (some line) cols = 1 := by
  have hones : totalRows cols w = w.logCount ↔ ∑ _i ∈ Finset.range w.logCount, 1 =
      ∑ i ∈ Finset.range w.logCount, tuiLineRows (w.entry i) cols := by
    rw [totalRows_eq, sum_one, eq_comm]
  rw [hones, Finset.sum_eq_sum_iff_of_le fun i _ ↦ tuiLineRows_pos (w.entry i) cols]
  refine forall_congr' fun i ↦ ?_
  rw [Finset.mem_range]
  refine forall_congr' fun hi ↦ ?_
  obtain ⟨line, hline⟩ := Option.isSome_iff_exists.mp (w.stored i hi)
  have hentry : w.entry i = some line := hline
  rw [hentry]
  exact ⟨fun h l hl ↦ Option.some.inj hl ▸ h.symm, fun h ↦ (h line rfl).symm⟩

/-! ## The keys -/

/-- The window at another offset. -/
def LogWindow.scrollTo (w : LogWindow) (offset : ℤ) : LogWindow := { w with scrollOffset := offset }

/-- The bound of `handle_pgup`. -/
def pgupBound (rows : ℕ) (w : LogWindow) : ℤ := max 0 (w.logCount - (rows - 3))

theorem maxScroll_eq (rows cols : ℕ) (w : LogWindow) :
    maxScroll rows cols w = max 0 ((totalRows cols w : ℤ) - (rows - 3)) := by
  rw [maxScroll, logAreaRows]
  split_ifs <;> omega

theorem clampScroll_eq (rows cols : ℕ) (w : LogWindow) (o : ℤ) :
    clampScroll rows cols (w.scrollTo o) = w.scrollTo (max 0 (min (maxScroll rows cols w) o)) := by
  have hmax := maxScroll_eq rows cols w
  change w.scrollTo (if o < 0 then 0 else if maxScroll rows cols w < o then maxScroll rows cols w
    else o) = _
  congr 1
  split_ifs <;> omega

/-- Page up, while the renderer allows more than the handler. -/
theorem handlePgup_scrollTo {rows : ℕ} (hrows : 4 ≤ rows) (cols : ℕ) (w : LogWindow) (o : ℤ) :
    handlePgup rows cols (w.scrollTo o) = w.scrollTo (pageUp (rows - 3) (pgupBound rows w) o) := by
  have hpage : pageRows rows = (rows : ℤ) - 3 := if_neg (by omega)
  have hcount := logCount_le_totalRows cols w
  have hmax := maxScroll_eq rows cols w
  change clampScroll rows cols (w.scrollTo _) = _
  rw [clampScroll_eq, hmax, hpage, pageUp, pgupBound]
  congr 1
  change max 0 (min _
    (if (if (rows : ℤ) - 3 < w.logCount then (w.logCount : ℤ) - (rows - 3) else 0) < o + (rows - 3)
      then (if (rows : ℤ) - 3 < w.logCount then (w.logCount : ℤ) - (rows - 3) else 0)
      else o + (rows - 3))) = _
  split_ifs <;> omega

/-- Page down. -/
theorem handlePgdn_scrollTo {rows : ℕ} (hrows : 4 ≤ rows) (cols : ℕ) (w : LogWindow) {o : ℤ}
    (ho : o ≤ maxScroll rows cols w) :
    handlePgdn rows cols (w.scrollTo o) = w.scrollTo (pageDown (rows - 3) o) := by
  have hpage : pageRows rows = (rows : ℤ) - 3 := if_neg (by omega)
  have hmax := maxScroll_eq rows cols w
  change clampScroll rows cols (w.scrollTo _) = _
  rw [clampScroll_eq, hpage, pageDown]
  congr 1
  change max 0 (min _ (if o - ((rows : ℤ) - 3) < 0 then 0 else o - (rows - 3))) = _
  split_ifs <;> omega

theorem iterate_handlePgup {rows : ℕ} (hrows : 4 ≤ rows) (cols : ℕ) (w : LogWindow) (o : ℤ)
    (n : ℕ) : (handlePgup rows cols)^[n] (w.scrollTo o) =
      w.scrollTo ((pageUp (rows - 3) (pgupBound rows w))^[n] o) := by
  have hsemi : Function.Semiconj w.scrollTo (pageUp (rows - 3) (pgupBound rows w))
    (handlePgup rows cols) := fun o ↦ (handlePgup_scrollTo hrows cols w o).symm
  exact ((hsemi.iterate_right n).eq o).symm

theorem iterate_handlePgdn {rows : ℕ} (hrows : 4 ≤ rows) (cols : ℕ) (w : LogWindow) {o : ℤ}
    (ho : o ≤ maxScroll rows cols w) (k : ℕ) : (handlePgdn rows cols)^[k] (w.scrollTo o) =
      w.scrollTo ((pageDown (rows - 3))^[k] o) ∧
      (pageDown (rows - 3))^[k] o ≤ maxScroll rows cols w := by
  induction k with
  | zero => exact ⟨rfl, ho⟩
  | succ k ih =>
    have hmax := maxScroll_eq rows cols w
    rw [Function.iterate_succ_apply', Function.iterate_succ_apply', ih.1,
      handlePgdn_scrollTo hrows cols w ih.2]
    refine ⟨rfl, ?_⟩
    rw [pageDown]
    omega

/-- The oldest message is the first one that has a row. -/
theorem findStart_zero (cols : ℕ) (w : LogWindow) :
    findStart cols w (List.range w.logCount) 0 = (w.oldest, 0) := by
  rcases Nat.eq_zero_or_pos w.logCount with hzero | hpos
  · rw [hzero]
    rfl
  · obtain ⟨line, hline⟩ := Option.isSome_iff_exists.mp (w.stored 0 hpos)
    have hentry : w.entry 0 = some line := hline
    obtain ⟨n, hn⟩ := Nat.exists_eq_succ_of_ne_zero hpos.ne'
    have hrow : 0 < tuiLineRows (some line) cols := tuiLineRows_pos (some line) cols
    rw [hn, List.range_succ_eq_map, findStart, hentry]
    simp only [if_pos hrow, Nat.add_zero, LogWindow.oldest, Nat.mod_mod]

/-- **At the bound of the renderer, the log area starts at the oldest message.** -/
theorem tuiRedrawScreen_top (rows cols : ℕ) (w : LogWindow) :
    (tuiRedrawScreen rows cols (w.scrollTo (maxScroll rows cols w))).2 =
      drawLog rows cols w w.oldest 0 := by
  have hmax := maxScroll_eq rows cols w
  have hclamp : clampScroll rows cols (w.scrollTo (maxScroll rows cols w)) =
      w.scrollTo (maxScroll rows cols w) := by
    rw [clampScroll_eq]
    congr 1
    omega
  have htarget : targetRow rows cols (w.scrollTo (maxScroll rows cols w)) = 0 := by
    change ((totalRows cols w : ℤ) - (rows - 3) - maxScroll rows cols w).toNat = 0
    omega
  rw [tuiRedrawScreen]
  simp only [hclamp, htarget, findStart_zero]
  rfl

/-- What page up reaches, it reaches within its own bound. -/
theorem maxScroll_le_of_reachable {rows cols : ℕ} (hrows : 4 ≤ rows) {w : LogWindow}
    (h : ScrollbackReachable rows cols w) : maxScroll rows cols w ≤ pgupBound rows w := by
  obtain ⟨n, top, rfl, htop, -, -⟩ := h 0
  change ((handlePgup rows cols)^[n] (w.scrollTo 0)).scrollOffset = _ at htop
  rw [iterate_handlePgup hrows] at htop
  change (pageUp (rows - 3) (pgupBound rows w))^[n] 0 = _ at htop
  have hbound : 0 ≤ pgupBound rows w := le_max_left _ _
  exact htop ▸ iterate_pageUp_le (rows - 3) hbound hbound n

/-- **The scrollback is reachable if and only if all messages fit, or none is wrapped.** -/
theorem scrollbackReachable_iff {rows cols : ℕ} (hrows : 4 ≤ rows) (w : LogWindow) :
    ScrollbackReachable rows cols w ↔ LogFits rows cols w := by
  have hmax := maxScroll_eq rows cols w
  have hcount := logCount_le_totalRows cols w
  have hfits : LogFits rows cols w ↔ maxScroll rows cols w ≤ pgupBound rows w := by
    rw [LogFits, ← totalRows_eq_logCount_iff, hmax, pgupBound, logAreaRows]
    omega
  refine ⟨fun h ↦ hfits.mpr (maxScroll_le_of_reachable hrows h), fun h offset ↦ ?_⟩
  have heq : pgupBound rows w = maxScroll rows cols w := by
    refine le_antisymm ?_ (hfits.mp h)
    rw [hmax, pgupBound]
    omega
  have hpage : 0 < (rows : ℤ) - 3 := by omega
  have hbound : 0 ≤ maxScroll rows cols w := hmax ▸ le_max_left _ _
  obtain ⟨n, hn⟩ := exists_iterate_pageUp hpage hbound offset
  obtain ⟨k, hk⟩ := exists_iterate_pageDown hpage hbound
  have htop : (handlePgup rows cols)^[n] (w.scrollTo offset) =
      w.scrollTo (maxScroll rows cols w) := by
    rw [iterate_handlePgup hrows, heq, hn]
  refine ⟨n, _, htop.symm, rfl, tuiRedrawScreen_top rows cols w, k, ?_⟩
  rw [(iterate_handlePgdn hrows cols w le_rfl k).1, hk]
  rfl

/-- Five messages in a window of one row. -/
def fiveMessages : LogWindow :=
  [lit "one", lit "two", lit "three", lit "four", lit "five"].foldl (·.append 10 ·) .empty

theorem scrollbackReachable_iff_fiveMessages :
    maxScroll 4 10 fiveMessages = 4 ∧ ScrollbackReachable 4 10 fiveMessages := by
  refine ⟨by decide +kernel, (scrollbackReachable_iff (by decide) _).mpr (.inr ?_)⟩
  have h : ∀ i < fiveMessages.logCount, (fiveMessages.entry i).all
      (fun line ↦ tuiLineRows (some line) 10 = 1) = true := by decide +kernel
  intro i hi line hline
  have := h i hi
  rw [hline] at this
  simpa using this

/-- The first row of a wrapped message is out of reach. -/
theorem not_scrollbackReachable_wrapped :
    ¬ScrollbackReachable 4 10 (LogWindow.empty.append 10 (lit "hello, world")) := by
  intro h
  exact absurd (maxScroll_le_of_reachable (by decide) h) (by decide +kernel)

end Rustyaxe
