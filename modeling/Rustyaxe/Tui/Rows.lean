import Mathlib.Data.List.Basic
import Rustyaxe.CString

/-!
# The rows of a message

`tui_line_rows` of `tui.c`, and the loop of `tui_redraw_screen` that writes a message to the log
area.

Both read a line as escape sequences, newlines and visible bytes (`lineTokens`).
-/

set_option autoImplicit false

namespace Rustyaxe

/-! ## The code -/

/-- `*s >= '@' && *s <= '~'` -/
def isFinal (c : UInt8) : Bool := 0x40 ≤ c && c ≤ 0x7e

/-- What follows an escape sequence, from its parameters on. -/
def afterEscape (s : CStr) : CStr := (s.dropWhile (!isFinal ·)).drop 1

theorem length_afterEscape_le (s : CStr) : (afterEscape s).length ≤ s.length := by
  rw [afterEscape, List.length_drop]
  exact (Nat.sub_le _ _).trans (List.dropWhile_sublist _).length_le

/-- The loop of `tui_line_rows`. -/
def lineRowsLoop (width : ℕ) (s : CStr) (rows col : ℕ) : ℕ :=
  match s with
  | [] => rows
  | c :: s =>
    if c = esc ∧ s.head? = some lbracket then lineRowsLoop width (afterEscape (s.drop 1)) rows col
    else if c = newline then lineRowsLoop width s (rows + 1) 0
    else if width < col + 1 then lineRowsLoop width s (rows + 1) 1
    else lineRowsLoop width s rows (col + 1)
termination_by s.length
decreasing_by
  · have := length_afterEscape_le (s.drop 1)
    simp only [List.length_drop, List.length_cons] at *
    omega
  all_goals simp

/-- `tui_line_rows`, and `NULL` is `none`. -/
def tuiLineRows (s : Option CStr) (width : ℕ) : ℕ :=
  match s with
  | none => 1
  | some s => if width = 0 then 1 else lineRowsLoop width s 1 0

/-- The inner loop of `tui_redraw_screen`, from `p` on: where it stops, `last_break`, and
`active_sgr`. -/
def rowLoop (cols : ℕ) (p : CStr) (col : ℕ) (lastBreak activeSgr : CStr) : CStr × CStr × CStr :=
  match p with
  | [] => ([], lastBreak, activeSgr)
  | c :: s =>
    if col < cols then
      if c = esc ∧ s.head? = some lbracket then
        let rest := afterEscape (s.drop 1)
        let sequence := (c :: s).take ((c :: s).length - rest.length)
        rowLoop cols rest col lastBreak
          (if sequence.getLast? = some 0x6d ∧ sequence.length < 64 then sequence else activeSgr)
      else if c = newline then (c :: s, lastBreak, activeSgr)
      else rowLoop cols s (col + 1) s activeSgr
    else (c :: s, lastBreak, activeSgr)
termination_by p.length
decreasing_by
  · have := length_afterEscape_le (s.drop 1)
    simp only [List.length_drop, List.length_cons] at *
    omega
  · simp

/-- A row of the log area: where it is, the colour that is restored first, and the text. -/
structure Row where
  row : ℕ
  activeSgr : CStr
  text : CStr
deriving DecidableEq

/-- The state of the loop over the messages, with the rows that have been written. -/
structure Drawing where
  row : ℕ
  skipRows : ℕ
  firstMessage : Bool
  shown : List Row
deriving DecidableEq

/-- `fwrite(start, 1, stop - start, stdout)` -/
def upTo (start stop : CStr) : CStr := start.take (start.length - stop.length)

/-- One row of a message in `tui_redraw_screen`: `p`, `active_sgr`, and the rest of the state. -/
def drawRow (cols : ℕ) (p activeSgr : CStr) (rowsDone : ℕ) (d : Drawing) :
    CStr × CStr × Drawing :=
  let (stop, lastBreak, activeSgr) := rowLoop cols p 0 p activeSgr
  let explicitNewline := stop.head? = some newline
  let (p, d) :=
    if d.firstMessage ∧ 0 < d.skipRows then (stop, { d with skipRows := d.skipRows - 1 })
    else
      (if explicitNewline then stop.drop 1 else stop, { d with
        row := d.row + 1
        shown := d.shown ++ [{
          row := d.row
          activeSgr := if 0 < rowsDone then activeSgr else []
          text := upTo p (if explicitNewline then stop else lastBreak) }] })
  (p, activeSgr, { d with firstMessage := d.firstMessage && d.skipRows ≠ 0 })

theorem drawRow_decreasing {rows : ℕ} (cols : ℕ) (p activeSgr : CStr) (rowsDone : ℕ) {d : Drawing}
    (hrow : d.row + 1 < rows) :
    rows - (drawRow cols p activeSgr rowsDone d).2.2.row +
        (drawRow cols p activeSgr rowsDone d).2.2.skipRows < rows - d.row + d.skipRows := by
  rw [drawRow]
  by_cases hskip : d.firstMessage ∧ 0 < d.skipRows
  · simp only [if_pos hskip]
    omega
  · simp only [if_neg hskip]
    omega

/-- The loop over the rows of a message. -/
def messageLoop (rows cols : ℕ) (p activeSgr : CStr) (rowsDone : ℕ) (d : Drawing) : Drawing :=
  if p ≠ [] ∧ d.row + 1 < rows then
    let next := drawRow cols p activeSgr rowsDone d
    messageLoop rows cols next.1 next.2.1 (rowsDone + 1) next.2.2
  else d
termination_by rows - d.row + d.skipRows
decreasing_by
  rename_i hrow
  exact drawRow_decreasing cols p activeSgr rowsDone hrow.2

/-- A message at the top of the log area, with so many of its rows skipped. -/
def drawMessage (rows cols skipRows : ℕ) (line : CStr) : List Row :=
  (messageLoop rows cols line [] 0 ⟨2, skipRows, true, []⟩).shown

/-! ## Tokens -/

/-- What a line is made of. -/
inductive LineToken where
  | escape
  | lineBreak
  | visible
deriving DecidableEq

open LineToken

/-- The tokens of a line. -/
def lineTokens (s : CStr) : List LineToken :=
  match s with
  | [] => []
  | c :: s =>
    if c = esc ∧ s.head? = some lbracket then escape :: lineTokens (afterEscape (s.drop 1))
    else if c = newline then lineBreak :: lineTokens s
    else visible :: lineTokens s
termination_by s.length
decreasing_by
  · have := length_afterEscape_le (s.drop 1)
    simp only [List.length_drop, List.length_cons] at *
    omega
  all_goals simp

theorem lineTokens_nil : lineTokens [] = [] := by rw [lineTokens]

theorem lineTokens_eq_nil {s : CStr} : lineTokens s = [] ↔ s = [] := by
  rw [lineTokens.eq_def]
  split
  · simp
  · split_ifs <;> simp

/-- A token before a newline at the end is one of the tokens before it. -/
theorem cons_eq_body {t : LineToken} {ts body tail : List LineToken} (ht : t ≠ lineBreak)
    (htail : tail = [] ∨ tail = [lineBreak]) (h : t :: ts = body ++ tail) :
    ∃ body', body = t :: body' ∧ ts = body' ++ tail := by
  rcases body with _ | ⟨t', body'⟩
  · rcases htail with rfl | rfl
    · exact absurd h (List.cons_ne_nil _ _)
    · exact absurd (List.cons.inj h).1 ht
  · obtain ⟨rfl, hts⟩ := List.cons.inj h
    exact ⟨body', rfl, hts⟩

/-- **The rows that are counted**, in a line without a newline, but perhaps one at its end. -/
theorem lineRowsLoop_eq {width : ℕ} (hwidth : 0 < width) {s : CStr} {rows col : ℕ}
    {body tail : List LineToken} (hcol : col ≤ width) (hs : lineTokens s = body ++ tail)
    (hbody : lineBreak ∉ body) (htail : tail = [] ∨ tail = [lineBreak]) :
    lineRowsLoop width s rows col =
      rows + (col + body.count visible - 1) / width + tail.length := by
  have hzero (col : ℕ) (hcol : col ≤ width) : (col - 1) / width = 0 :=
    Nat.div_eq_of_lt (by omega)
  induction s, rows, col using lineRowsLoop.induct width generalizing body with
  | case1 rows col =>
    rw [lineTokens_nil] at hs
    obtain ⟨rfl, rfl⟩ := List.append_eq_nil_iff.mp hs.symm
    rw [lineRowsLoop, List.count_nil, Nat.add_zero, hzero col hcol]
    rfl
  | case2 rows col c s hescape ih =>
    rw [lineTokens, if_pos hescape] at hs
    obtain ⟨body, rfl, hrest⟩ := cons_eq_body (by decide) htail hs
    rw [lineRowsLoop, if_pos hescape, ih hcol hrest (fun h ↦ hbody (List.mem_cons_of_mem _ h)),
      List.count_cons_of_ne (by decide)]
  | case3 rows col s hescape ih =>
    rw [lineTokens, if_neg hescape, if_pos rfl] at hs
    have hnil : body = [] := by
      by_contra hne
      obtain ⟨t, body, rfl⟩ := List.exists_cons_of_ne_nil hne
      exact hbody (List.mem_cons.mpr (.inl (List.cons.inj hs).1))
    subst hnil
    rcases htail with rfl | rfl
    · exact absurd hs (List.cons_ne_nil _ _)
    · obtain rfl : s = [] := lineTokens_eq_nil.mp (List.cons.inj hs).2
      rw [lineRowsLoop, if_neg hescape, if_pos rfl, lineRowsLoop, List.count_nil,
        hzero (col + 0) hcol]
      rfl
  | case4 rows col c s hescape hnewline hfull ih =>
    rw [lineTokens, if_neg hescape, if_neg hnewline] at hs
    obtain ⟨body, rfl, hrest⟩ := cons_eq_body (by decide) htail hs
    rw [lineRowsLoop, if_neg hescape, if_neg hnewline, if_pos hfull,
      ih hwidth hrest (fun h ↦ hbody (List.mem_cons_of_mem _ h)), List.count_cons_self]
    obtain rfl : col = width := by omega
    have hdiv : (col + (body.count visible + 1) - 1) / col = body.count visible / col + 1 := by
      rw [Nat.add_sub_assoc (by omega), Nat.add_sub_cancel, Nat.add_comm col,
        Nat.add_div_right _ hwidth]
    rw [hdiv, Nat.add_sub_cancel_left]
    omega
  | case5 rows col c s hescape hnewline hfull ih =>
    rw [lineTokens, if_neg hescape, if_neg hnewline] at hs
    obtain ⟨body, rfl, hrest⟩ := cons_eq_body (by decide) htail hs
    rw [lineRowsLoop, if_neg hescape, if_neg hnewline, if_neg hfull,
      ih (by omega) hrest (fun h ↦ hbody (List.mem_cons_of_mem _ h)), List.count_cons_self,
      Nat.add_right_comm col 1, Nat.add_assoc col]

theorem lineTokens_escape (s : CStr) :
    lineTokens (esc :: lbracket :: s) = escape :: lineTokens (afterEscape s) := by
  rw [lineTokens, if_pos ⟨rfl, rfl⟩, List.drop_one, List.tail_cons]

/-- Bytes without an escape and a newline are seen one by one. -/
theorem lineTokens_plain {s : CStr} (hesc : esc ∉ s) (hnewline : newline ∉ s) :
    lineTokens s = List.replicate s.length visible := by
  induction s with
  | nil => exact lineTokens_nil
  | cons c s ih =>
    rw [List.mem_cons, not_or] at hesc hnewline
    rw [lineTokens, if_neg fun h ↦ hesc.1 h.1.symm, if_neg fun h ↦ hnewline.1 h.symm,
      ih hesc.2 hnewline.2]
    rfl

theorem lineTokens_newline (s : CStr) : lineTokens (newline :: s) = lineBreak :: lineTokens s := by
  rw [lineTokens, if_neg (fun h ↦ absurd h.1 (by decide)), if_pos rfl]

theorem lineTokens_of_head {s : CStr} (h : s.head? = some newline) :
    lineTokens s = lineBreak :: lineTokens (s.drop 1) := by
  obtain ⟨s, rfl⟩ := List.head?_eq_some_iff.mp h
  exact lineTokens_newline s

theorem length_lineTokens_le (s : CStr) : (lineTokens s).length ≤ s.length := by
  induction s using lineTokens.induct with
  | case1 =>
    rw [lineTokens_nil]
    exact le_rfl
  | case2 c s hescape ih =>
    have hrest := length_afterEscape_le (s.drop 1)
    rw [List.length_drop] at hrest
    rw [lineTokens, if_pos hescape, List.length_cons, List.length_cons]
    omega
  | case3 s hescape ih =>
    rw [lineTokens_newline, List.length_cons, List.length_cons]
    exact Nat.succ_le_succ ih
  | case4 c s hescape hnewline ih =>
    rw [lineTokens, if_neg hescape, if_neg hnewline, List.length_cons, List.length_cons]
    exact Nat.succ_le_succ ih

/-! ## A row -/

/-- **What a row holds.**  It ends at the end of the line or at a newline, unless it is full, and
then it ends right after its last visible byte. -/
theorem rowLoop_spec {cols : ℕ} (p : CStr) {col : ℕ} (lastBreak activeSgr : CStr)
    (hcol : col ≤ cols) : ∃ read,
      lineTokens p = read ++ lineTokens (rowLoop cols p col lastBreak activeSgr).1 ∧
      lineBreak ∉ read ∧
      (col + read.count visible < cols ∧
          ((rowLoop cols p col lastBreak activeSgr).1 = [] ∨
            (rowLoop cols p col lastBreak activeSgr).1.head? = some newline) ∨
        col + read.count visible = cols ∧ (read = [] ∨ read.getLast? = some visible)) := by
  induction p, col, lastBreak, activeSgr using rowLoop.induct cols with
  | case1 col lastBreak activeSgr =>
    rw [rowLoop]
    refine ⟨[], rfl, List.not_mem_nil, ?_⟩
    rcases hcol.lt_or_eq with hlt | heq
    · exact .inl ⟨hlt, .inl rfl⟩
    · exact .inr ⟨heq, .inl rfl⟩
  | case2 col lastBreak activeSgr c s hlt hescape rest sequence ih =>
    obtain ⟨read, hread, hplain, hend⟩ := ih hcol
    rw [rowLoop, if_pos hlt, if_pos hescape, lineTokens, if_pos hescape, hread]
    refine ⟨escape :: read, rfl, List.not_mem_cons_of_ne_of_not_mem (by decide) hplain, ?_⟩
    rw [List.count_cons_of_ne (by decide)]
    refine hend.imp_right fun ⟨hfull, hlast⟩ ↦ ⟨hfull, .inr ?_⟩
    rcases hlast with rfl | hlast
    · exact absurd hfull (Nat.ne_of_lt hlt)
    · rw [List.getLast?_cons, hlast, Option.getD_some]
  | case3 col lastBreak activeSgr s hlt hescape =>
    rw [rowLoop, if_pos hlt, if_neg hescape, if_pos rfl]
    exact ⟨[], rfl, List.not_mem_nil, .inl ⟨hlt, .inr rfl⟩⟩
  | case4 col lastBreak activeSgr c s hlt hescape hnewline ih =>
    obtain ⟨read, hread, hplain, hend⟩ := ih hlt
    rw [rowLoop, if_pos hlt, if_neg hescape, if_neg hnewline, lineTokens, if_neg hescape,
      if_neg hnewline, hread]
    refine ⟨visible :: read, rfl, List.not_mem_cons_of_ne_of_not_mem (by decide) hplain, ?_⟩
    rw [List.count_cons_self, ← Nat.add_assoc, Nat.add_right_comm]
    refine hend.imp_right fun ⟨hfull, hlast⟩ ↦ ⟨hfull, .inr ?_⟩
    rcases hlast with rfl | hlast
    · rfl
    · rw [List.getLast?_cons, hlast, Option.getD_some]
  | case5 col lastBreak activeSgr c s hlt =>
    rw [rowLoop, if_neg hlt]
    exact ⟨[], rfl, List.not_mem_nil, .inr ⟨by rw [List.count_nil]; omega, .inl rfl⟩⟩

/-- Where the next row starts. -/
def afterRow (cols : ℕ) (p activeSgr : CStr) : CStr :=
  let stop := (rowLoop cols p 0 p activeSgr).1
  if stop.head? = some newline then stop.drop 1 else stop

theorem length_lineTokens_afterRow_lt {cols : ℕ} (hcols : 0 < cols) {p : CStr} (hp : p ≠ [])
    (activeSgr : CStr) :
    (lineTokens (afterRow cols p activeSgr)).length < (lineTokens p).length := by
  obtain ⟨read, hread, -, hend⟩ := rowLoop_spec p p activeSgr (Nat.zero_le cols)
  have hlength := congrArg List.length hread
  rw [List.length_append] at hlength
  rw [afterRow]
  split_ifs with hnewline
  · rw [lineTokens_of_head hnewline, List.length_cons] at hlength
    omega
  · have hne : read ≠ [] := by
      rintro rfl
      rcases hend with ⟨-, hnil | hhead⟩ | ⟨hfull, -⟩
      · rw [hnil, List.nil_append, lineTokens_nil] at hread
        exact hp (lineTokens_eq_nil.mp hread)
      · exact hnewline hhead
      · rw [List.count_nil] at hfull
        omega
    have hpos := List.length_pos_iff.mpr hne
    omega

/-- The colour at the end of a row. -/
def rowSgr (cols : ℕ) (p activeSgr : CStr) : CStr := (rowLoop cols p 0 p activeSgr).2.2

/-- What is written for a row. -/
def rowText (cols : ℕ) (p activeSgr : CStr) (rowsDone : ℕ) : CStr :=
  let (stop, lastBreak, sgr) := rowLoop cols p 0 p activeSgr
  (if 0 < rowsDone then sgr else []) ++
    upTo p (if stop.head? = some newline then stop else lastBreak)

/-- The rows of a message, as they are written if nothing is skipped. -/
def rowsOf (cols : ℕ) (p activeSgr : CStr) (rowsDone : ℕ) : List CStr :=
  if 0 < cols ∧ p ≠ [] then
    rowText cols p activeSgr rowsDone ::
      rowsOf cols (afterRow cols p activeSgr) (rowSgr cols p activeSgr) (rowsDone + 1)
  else []
termination_by (lineTokens p).length
decreasing_by
  rename_i h
  exact length_lineTokens_afterRow_lt h.1 h.2 activeSgr

/-! ## The loop over the rows -/

/-- What is written for a row, after the cursor has been moved to it. -/
def Row.written (r : Row) : CStr := r.activeSgr ++ r.text

theorem drawRow_skip (cols : ℕ) (p activeSgr : CStr) (rowsDone : ℕ) {d : Drawing}
    (hfirst : d.firstMessage = true) (hskip : 0 < d.skipRows) :
    drawRow cols p activeSgr rowsDone d =
      ((rowLoop cols p 0 p activeSgr).1, rowSgr cols p activeSgr,
        { d with skipRows := d.skipRows - 1, firstMessage := d.skipRows - 1 ≠ 0 }) := by
  rw [drawRow]
  simp only [if_pos (And.intro hfirst hskip)]
  simp only [hfirst, Bool.true_and, rowSgr]

/-- **A row that is written.** -/
theorem drawRow_show (cols : ℕ) (p activeSgr : CStr) (rowsDone : ℕ) {d : Drawing}
    (hskip : d.skipRows = 0) : ∃ d', drawRow cols p activeSgr rowsDone d =
        (afterRow cols p activeSgr, rowSgr cols p activeSgr, d') ∧ d'.row = d.row + 1 ∧
      d'.skipRows = 0 ∧ d'.shown.map Row.written =
        d.shown.map Row.written ++ [rowText cols p activeSgr rowsDone] := by
  have hneg : ¬(d.firstMessage = true ∧ 0 < d.skipRows) := fun h ↦ by omega
  rw [drawRow]
  simp only [if_neg hneg]
  refine ⟨_, rfl, rfl, hskip, ?_⟩
  rw [List.map_append]
  rfl

/-- **The rows that are written if nothing is skipped.** -/
theorem messageLoop_show (rows : ℕ) {cols : ℕ} (hcols : 0 < cols) (p activeSgr : CStr)
    (rowsDone : ℕ) {d : Drawing} (hskip : d.skipRows = 0)
    (hroom : d.row + (lineTokens p).length < rows) :
    (messageLoop rows cols p activeSgr rowsDone d).shown.map Row.written =
      d.shown.map Row.written ++ rowsOf cols p activeSgr rowsDone := by
  induction p, activeSgr, rowsDone using rowsOf.induct cols generalizing d with
  | case1 p activeSgr rowsDone h ih =>
    have hlt := length_lineTokens_afterRow_lt h.1 h.2 activeSgr
    obtain ⟨d', hdraw, hrow, hskip', hshown⟩ := drawRow_show cols p activeSgr rowsDone hskip
    rw [messageLoop, if_pos ⟨h.2, by omega⟩, rowsOf, if_pos h]
    simp only [hdraw]
    rw [ih hskip' (by omega), hshown, List.append_assoc]
    rfl
  | case2 p activeSgr rowsDone h =>
    have hnil : p = [] := by
      by_contra hne
      exact h ⟨hcols, hne⟩
    rw [messageLoop, if_neg (fun h ↦ h.1 hnil), rowsOf, if_neg h, List.append_nil]

/-- **A row that is skipped.** -/
theorem messageLoop_skip {rows cols : ℕ} {p : CStr} (activeSgr : CStr) (rowsDone : ℕ) {d : Drawing}
    (hp : p ≠ []) (hrow : d.row + 1 < rows) (hfirst : d.firstMessage = true)
    (hskip : 0 < d.skipRows) :
    messageLoop rows cols p activeSgr rowsDone d =
      messageLoop rows cols (rowLoop cols p 0 p activeSgr).1 (rowSgr cols p activeSgr)
        (rowsDone + 1) { d with
          skipRows := d.skipRows - 1, firstMessage := d.skipRows - 1 ≠ 0 } := by
  rw [messageLoop, if_pos ⟨hp, hrow⟩]
  simp only [drawRow_skip cols p activeSgr rowsDone hfirst hskip]

/-! ## Where rows end -/

/-- `rowLoop_spec`, for a whole row. -/
theorem row_spec {cols : ℕ} (hcols : 0 < cols) (p activeSgr : CStr) : ∃ read,
    lineTokens p = read ++ lineTokens (rowLoop cols p 0 p activeSgr).1 ∧ lineBreak ∉ read ∧
      (read.count visible < cols ∧ ((rowLoop cols p 0 p activeSgr).1 = [] ∨
          (rowLoop cols p 0 p activeSgr).1.head? = some newline) ∨
        read.count visible = cols ∧ read.getLast? = some visible) := by
  obtain ⟨read, hread, hplain, hend⟩ := rowLoop_spec p p activeSgr (Nat.zero_le cols)
  rw [Nat.zero_add] at hend
  refine ⟨read, hread, hplain, hend.imp_right fun ⟨hfull, hlast⟩ ↦ ⟨hfull, ?_⟩⟩
  refine hlast.resolve_left ?_
  rintro rfl
  rw [List.count_nil] at hfull
  omega

theorem afterRow_of_newline {cols : ℕ} {p activeSgr : CStr}
    (h : (rowLoop cols p 0 p activeSgr).1.head? = some newline) :
    afterRow cols p activeSgr = (rowLoop cols p 0 p activeSgr).1.drop 1 := by
  simp only [afterRow, if_pos h]

theorem afterRow_of_not_newline {cols : ℕ} {p activeSgr : CStr}
    (h : (rowLoop cols p 0 p activeSgr).1.head? ≠ some newline) :
    afterRow cols p activeSgr = (rowLoop cols p 0 p activeSgr).1 := by
  simp only [afterRow, if_neg h]

theorem afterRow_newline {cols : ℕ} (hcols : 0 < cols) (s activeSgr : CStr) :
    afterRow cols (newline :: s) activeSgr = s := by
  have hstop (lastBreak : CStr) :
      (rowLoop cols (newline :: s) 0 lastBreak activeSgr).1 = newline :: s := by
    rw [rowLoop, if_pos hcols, if_neg (fun h ↦ absurd h.1 (by decide)), if_pos rfl]
  rw [afterRow_of_newline (by rw [hstop]; rfl), hstop]
  rfl

theorem head?_of_lineTokens {s : CStr} {ts : List LineToken} (h : lineTokens s = lineBreak :: ts) :
    s.head? = some newline := by
  rw [lineTokens.eq_def] at h
  split at h
  · exact absurd h.symm (List.cons_ne_nil _ _)
  · split_ifs at h with hescape hnewline
    · exact absurd (List.cons.inj h).1 (by decide)
    · rw [hnewline, List.head?_cons]
    · exact absurd (List.cons.inj h).1 (by decide)

theorem length_rowsOf_cons {cols : ℕ} (hcols : 0 < cols) {p : CStr} (hp : p ≠ [])
    (activeSgr : CStr) (rowsDone : ℕ) : (rowsOf cols p activeSgr rowsDone).length =
      (rowsOf cols (afterRow cols p activeSgr) (rowSgr cols p activeSgr) (rowsDone + 1)).length +
        1 := by
  rw [rowsOf, if_pos ⟨hcols, hp⟩, List.length_cons]

theorem length_rowsOf_nil (cols : ℕ) (activeSgr : CStr) (rowsDone : ℕ) :
    (rowsOf cols [] activeSgr rowsDone).length = 0 := by
  rw [rowsOf, if_neg (fun h ↦ h.2 rfl), List.length_nil]

/-- The tokens of a row and of what follows it, if only the last token can be a newline. -/
theorem row_split {read rest body tail : List LineToken} (hs : read ++ rest = body ++ tail)
    (hread : lineBreak ∉ read) (htail : tail = [] ∨ tail = [lineBreak]) :
    read = body ∧ rest = tail ∨
      ∃ body', body' ≠ [] ∧ body = read ++ body' ∧ rest = body' ++ tail := by
  rcases List.append_eq_append_iff.mp hs with ⟨body', rfl, rfl⟩ | ⟨c, rfl, rfl⟩
  · rcases eq_or_ne body' [] with rfl | hne
    · exact .inl ⟨(List.append_nil _).symm, rfl⟩
    · exact .inr ⟨body', hne, rfl, rfl⟩
  · rcases c with _ | ⟨t, c⟩
    · exact .inl ⟨List.append_nil _, rfl⟩
    · have htail' := htail.resolve_left (List.cons_ne_nil _ _)
      rw [(List.cons.inj htail').1] at hread
      exact absurd (List.mem_append_right _ List.mem_cons_self) hread

theorem pos_of_getLast? {body : List LineToken} (h : body.getLast? = some visible) :
    0 < body.count visible :=
  List.count_pos_iff.mpr (List.mem_of_getLast? h)

/-- **The rows that are written**, of a line without a newline, but perhaps one at its end. -/
theorem length_rowsOf {cols : ℕ} (hcols : 0 < cols) {p : CStr} (activeSgr : CStr) (rowsDone : ℕ)
    {body tail : List LineToken} (hp : p ≠ []) (hs : lineTokens p = body ++ tail)
    (hbody : lineBreak ∉ body) (htail : tail = [] ∨ tail = [lineBreak]) :
    (rowsOf cols p activeSgr rowsDone).length =
      if cols ∣ body.count visible ∧ body.getLast? = some visible then body.count visible / cols
      else body.count visible / cols + 1 := by
  induction p, activeSgr, rowsDone using rowsOf.induct cols generalizing body with
  | case2 p activeSgr rowsDone h => exact absurd ⟨hcols, hp⟩ h
  | case1 p activeSgr rowsDone h ih =>
    obtain ⟨read, hread, hplain, hend⟩ := row_spec hcols p activeSgr
    rw [length_rowsOf_cons hcols hp]
    rcases row_split (hread ▸ hs) hplain htail with ⟨rfl, hrest⟩ | ⟨body', hne, rfl, hrest⟩
    · -- The last row: what follows is at most the newline.
      have hafter : afterRow cols p activeSgr = [] := by
        rcases htail with rfl | rfl
        · have hnil := lineTokens_eq_nil.mp hrest
          rw [afterRow_of_not_newline (by rw [hnil]; exact nofun), hnil]
        · have hnewline := head?_of_lineTokens hrest
          rw [lineTokens_of_head hnewline] at hrest
          rw [afterRow_of_newline hnewline, lineTokens_eq_nil.mp (List.cons.inj hrest).2]
      rw [hafter, length_rowsOf_nil]
      rcases hend with ⟨hlt, -⟩ | ⟨hfull, hlast⟩
      · rw [if_neg, Nat.div_eq_of_lt hlt]
        rintro ⟨hdvd, hlast⟩
        exact absurd (Nat.le_of_dvd (pos_of_getLast? hlast) hdvd) (not_le.mpr hlt)
      · rw [if_pos ⟨hfull ▸ Nat.dvd_refl cols, hlast⟩, hfull, Nat.div_self hcols]
    · -- A full row, which ends in a visible byte, and the rest of the line.
      have hstop : (rowLoop cols p 0 p activeSgr).1 ≠ [] := by
        intro hnil
        rw [hnil, lineTokens_nil] at hrest
        exact hne (List.append_eq_nil_iff.mp hrest.symm).1
      have hnewline : (rowLoop cols p 0 p activeSgr).1.head? ≠ some newline := by
        intro hhead
        obtain ⟨t, body', rfl⟩ := List.exists_cons_of_ne_nil hne
        rw [lineTokens_of_head hhead] at hrest
        refine hbody (List.mem_append_right _ ?_)
        rw [(List.cons.inj hrest).1]
        exact List.mem_cons_self
      obtain ⟨hfull, -⟩ := hend.resolve_left fun ⟨_, hstop'⟩ ↦ hstop'.elim hstop hnewline
      have hlast : (read ++ body').getLast? = body'.getLast? :=
        List.getLast?_append_of_ne_nil _ hne
      rw [afterRow_of_not_newline hnewline] at ih ⊢
      rw [ih hstop hrest (fun h ↦ hbody (List.mem_append_right _ h)), hlast, List.count_append,
        hfull]
      simp only [Nat.dvd_add_right (Nat.dvd_refl cols)]
      rw [Nat.add_comm cols, Nat.add_div_right _ hcols]
      split_ifs <;> rfl

/-! ## Skipped rows -/

/-- Where a row stops does not depend on the colours. -/
theorem rowLoop_stop_congr {cols : ℕ} (p : CStr) (col : ℕ)
    (lastBreak lastBreak' activeSgr activeSgr' : CStr) :
    (rowLoop cols p col lastBreak activeSgr).1 = (rowLoop cols p col lastBreak' activeSgr').1 := by
  induction p, col, lastBreak, activeSgr using rowLoop.induct cols
    generalizing lastBreak' activeSgr' with
  | case1 => rw [rowLoop, rowLoop]
  | case2 col lastBreak activeSgr c s hlt hescape rest sequence ih =>
    rw [rowLoop, if_pos hlt, if_pos hescape, rowLoop, if_pos hlt, if_pos hescape]
    exact ih _ _
  | case3 col lastBreak activeSgr s hlt hescape =>
    rw [rowLoop, if_pos hlt, if_neg hescape, if_pos rfl, rowLoop, if_pos hlt, if_neg hescape,
      if_pos rfl]
  | case4 col lastBreak activeSgr c s hlt hescape hnewline ih =>
    rw [rowLoop, if_pos hlt, if_neg hescape, if_neg hnewline, rowLoop, if_pos hlt, if_neg hescape,
      if_neg hnewline]
    exact ih _ _
  | case5 col lastBreak activeSgr c s hlt => rw [rowLoop, if_neg hlt, rowLoop, if_neg hlt]

theorem length_rowsOf_congr (cols : ℕ) (p activeSgr activeSgr' : CStr) (rowsDone rowsDone' : ℕ) :
    (rowsOf cols p activeSgr rowsDone).length = (rowsOf cols p activeSgr' rowsDone').length := by
  induction p, activeSgr, rowsDone using rowsOf.induct cols
    generalizing activeSgr' rowsDone' with
  | case1 p activeSgr rowsDone h ih =>
    have hafter : afterRow cols p activeSgr' = afterRow cols p activeSgr := by
      rw [afterRow, afterRow, rowLoop_stop_congr p 0 p p activeSgr' activeSgr]
    rw [length_rowsOf_cons h.1 h.2, length_rowsOf_cons h.1 h.2, hafter, ih]
  | case2 p activeSgr rowsDone h => rw [rowsOf, if_neg h, rowsOf, if_neg h]

theorem mem_dropLast_append {t : LineToken} (l : List LineToken) {l' : List LineToken}
    (h : t ∈ l'.dropLast) : t ∈ (l ++ l').dropLast := by
  have hne : l' ≠ [] := by
    rintro rfl
    exact List.not_mem_nil h
  rw [List.dropLast_append_of_ne_nil hne]
  exact List.mem_append_right _ h

/-- **Rows are skipped as they are written**, in a line without a newline, but perhaps one at its
end. -/
theorem messageLoop_drop {rows cols k : ℕ} {p activeSgr : CStr} {rowsDone : ℕ} {d : Drawing}
    (hplain : lineBreak ∉ (lineTokens p).dropLast)
    (hk : k < (rowsOf cols p activeSgr rowsDone).length)
    (hskip : d.skipRows = k) (hfirst : 0 < k → d.firstMessage = true)
    (hroom : d.row + (lineTokens p).length < rows) :
    (messageLoop rows cols p activeSgr rowsDone d).shown.map Row.written =
      d.shown.map Row.written ++ (rowsOf cols p activeSgr rowsDone).drop k := by
  induction p, activeSgr, rowsDone using rowsOf.induct cols generalizing k d with
  | case2 p activeSgr rowsDone h =>
    rw [rowsOf, if_neg h] at hk
    exact absurd hk (Nat.not_lt_zero k)
  | case1 p activeSgr rowsDone h ih =>
    rcases k with _ | k
    · exact messageLoop_show rows h.1 p activeSgr rowsDone hskip hroom
    · obtain ⟨read, hread, -, -⟩ := row_spec h.1 p activeSgr
      have hle := congrArg List.length hread
      rw [List.length_append] at hle
      have hpos : 0 < (lineTokens p).length :=
        List.length_pos_iff.mpr (lineTokens_eq_nil.not.mpr h.2)
      have hnewline : (rowLoop cols p 0 p activeSgr).1.head? ≠ some newline := by
        intro hhead
        rw [hread, lineTokens_of_head hhead] at hplain
        have hnil : lineTokens (afterRow cols p activeSgr) = [] := by
          rw [afterRow_of_newline hhead]
          by_contra hne
          rw [List.dropLast_append_of_ne_nil (List.cons_ne_nil _ _),
            List.dropLast_cons_of_ne_nil hne] at hplain
          exact hplain (List.mem_append_right _ List.mem_cons_self)
        rw [length_rowsOf_cons h.1 h.2, lineTokens_eq_nil.mp hnil, length_rowsOf_nil] at hk
        omega
      rw [messageLoop_skip activeSgr rowsDone h.2 (by omega) (hfirst k.succ_pos) (by omega)]
      rw [length_rowsOf_cons h.1 h.2] at hk
      rw [afterRow_of_not_newline hnewline] at ih hk
      rw [rowsOf, if_pos h, afterRow_of_not_newline hnewline, List.drop_succ_cons]
      refine ih (fun hmem ↦ hplain ?_) (Nat.lt_of_succ_lt_succ hk) (by simp [hskip])
        (fun hk ↦ ?_) ?_
      · rw [hread]
        exact mem_dropLast_append read hmem
      · exact decide_eq_true (by omega)
      · change d.row + _ < rows
        omega

/-- **A newline in the line is not skipped with its row**, so that it gives a row of its own. -/
theorem exists_skip_length_ne (rows : ℕ) {cols : ℕ} (hcols : 0 < cols) {p activeSgr : CStr}
    {rowsDone : ℕ} (hmem : lineBreak ∈ (lineTokens p).dropLast) :
    ∃ k < (rowsOf cols p activeSgr rowsDone).length, ∀ d : Drawing, d.skipRows = k →
      (0 < k → d.firstMessage = true) → d.row + (lineTokens p).length < rows →
      (messageLoop rows cols p activeSgr rowsDone d).shown.length ≠
        d.shown.length + ((rowsOf cols p activeSgr rowsDone).length - k) := by
  induction p, activeSgr, rowsDone using rowsOf.induct cols with
  | case2 p activeSgr rowsDone h =>
    obtain rfl : p = [] := by
      by_contra hne
      exact h ⟨hcols, hne⟩
    rw [lineTokens_nil] at hmem
    exact absurd hmem List.not_mem_nil
  | case1 p activeSgr rowsDone h ih =>
    obtain ⟨read, hread, hplain, -⟩ := row_spec hcols p activeSgr
    have hle := congrArg List.length hread
    rw [List.length_append] at hle
    have hpos : 0 < (lineTokens p).length := List.length_pos_iff.mpr (lineTokens_eq_nil.not.mpr h.2)
    rw [hread] at hmem
    by_cases hhead : (rowLoop cols p 0 p activeSgr).1.head? = some newline
    · have hafter := afterRow_of_newline hhead
      obtain ⟨rest, hstop⟩ := List.head?_eq_some_iff.mp hhead
      rw [hstop, List.drop_one, List.tail_cons] at hafter
      have hrest : rest ≠ [] := by
        rintro rfl
        rw [hstop, lineTokens_newline, lineTokens_nil, List.dropLast_concat] at hmem
        exact hplain hmem
      refine ⟨1, ?_, fun d hd hfirst hroom ↦ ?_⟩
      · rw [length_rowsOf_cons hcols h.2, hafter, length_rowsOf_cons hcols hrest]
        omega
      · have hshown := congrArg List.length (messageLoop_show rows hcols
          (rowLoop cols p 0 p activeSgr).1 (rowSgr cols p activeSgr) (rowsDone + 1)
          (d := { d with skipRows := d.skipRows - 1, firstMessage := d.skipRows - 1 ≠ 0 })
          (Nat.sub_eq_zero_of_le hd.le) (by simp only; omega))
        rw [List.length_append, List.length_map, List.length_map, hstop,
          length_rowsOf_cons hcols (List.cons_ne_nil _ _), afterRow_newline hcols] at hshown
        rw [messageLoop_skip activeSgr rowsDone h.2 (by omega) (hfirst Nat.one_pos) (by omega),
          length_rowsOf_cons hcols h.2, hafter, hstop, hshown,
          length_rowsOf_congr cols rest _ (rowSgr cols p activeSgr) _ (rowsDone + 1)]
        simp only
        omega
    · have hne : lineTokens (rowLoop cols p 0 p activeSgr).1 ≠ [] := by
        intro hnil
        rw [hnil, List.append_nil] at hmem
        exact hplain (List.dropLast_subset _ hmem)
      rw [List.dropLast_append_of_ne_nil hne] at hmem
      rw [afterRow_of_not_newline hhead] at ih
      obtain ⟨k, hk, hskip⟩ := ih ((List.mem_append.mp hmem).resolve_left hplain)
      rw [length_rowsOf_cons h.1 h.2, afterRow_of_not_newline hhead]
      refine ⟨k + 1, Nat.succ_lt_succ hk, fun d hd hfirst hroom ↦ ?_⟩
      rw [messageLoop_skip activeSgr rowsDone h.2 (by omega) (hfirst k.succ_pos) (by omega),
        Nat.add_sub_add_right]
      refine hskip _ ?_ (fun hk ↦ decide_eq_true ?_) ?_
      · exact Nat.sub_eq_of_eq_add hd
      · omega
      · change d.row + _ < rows
        omega

/-! ## The rows of a line -/

/-- The rows that are counted are those that are written if nothing is skipped, on a screen that is
tall enough, and what is written otherwise is the rows after the skipped ones. -/
def RowsAgree (cols : ℕ) (line : CStr) : Prop :=
  ∀ rows, line.length + 3 ≤ rows →
    (drawMessage rows cols 0 line).length = tuiLineRows (some line) cols ∧
      ∀ k < tuiLineRows (some line) cols, (drawMessage rows cols k line).map Row.written =
        ((drawMessage rows cols 0 line).map Row.written).drop k

/-- A line that is not empty, without a newline, but perhaps one at its end, and it has that if and
only if an escape sequence follows a last row that is full. -/
def RowsFit (cols : ℕ) (line : CStr) : Prop :=
  let body := (lineTokens line).filter (· ≠ lineBreak)
  line ≠ [] ∧ lineBreak ∉ (lineTokens line).dropLast ∧
    ((lineTokens line).getLast? = some lineBreak ↔
      0 < body.count visible ∧ cols ∣ body.count visible ∧ body.getLast? = some escape)

/-- The two numbers of rows, of a line with so many visible bytes and so many newlines at its
end. -/
theorem rows_eq_iff {cols n newlines : ℕ} {full : Prop} [Decidable full]
    (hfull : full → 0 < n) (hnewlines : newlines ≤ 1) :
    (if cols ∣ n ∧ full then n / cols else n / cols + 1) = 1 + (0 + n - 1) / cols + newlines ↔
      (newlines = 1 ↔ 0 < n ∧ cols ∣ n ∧ ¬full) := by
  rcases n with _ | n
  · have hempty : ¬full := fun h ↦ absurd (hfull h) (Nat.lt_irrefl 0)
    simp [hempty]
    omega
  · rw [Nat.zero_add, Nat.add_sub_cancel]
    by_cases hdvd : cols ∣ n + 1
    · rw [Nat.succ_div_of_dvd hdvd]
      by_cases hf : full <;> simp [hdvd, hf] <;> omega
    · rw [Nat.succ_div_of_not_dvd hdvd]
      simp [hdvd]
      omega

/-- The rows of a message that is drawn, if nothing is skipped. -/
theorem drawMessage_zero {rows cols : ℕ} (hcols : 0 < cols) {line : CStr}
    (hrows : line.length + 3 ≤ rows) :
    (drawMessage rows cols 0 line).map Row.written = rowsOf cols line [] 0 := by
  have htokens := length_lineTokens_le line
  exact messageLoop_show rows hcols line [] 0 rfl (by simp only; omega)

/-- A line whose only newline can be its last token, with and without it. -/
theorem exists_body {line : CStr} (hplain : lineBreak ∉ (lineTokens line).dropLast) :
    ∃ tail, lineTokens line = (lineTokens line).filter (· ≠ lineBreak) ++ tail ∧
      (tail = [] ∨ tail = [lineBreak]) ∧
      (tail.length = 1 ↔ (lineTokens line).getLast? = some lineBreak) := by
  have hfilter {ts : List LineToken} (h : lineBreak ∉ ts) : ts.filter (· ≠ lineBreak) = ts :=
    List.filter_eq_self.mpr fun t ht ↦ decide_eq_true (ne_of_mem_of_not_mem ht h)
  by_cases hlast : (lineTokens line).getLast? = some lineBreak
  · obtain ⟨body, hbody⟩ := List.getLast?_eq_some_iff.mp hlast
    rw [hbody, List.dropLast_concat] at hplain
    refine ⟨[lineBreak], ?_, .inr rfl, by simp [hlast]⟩
    have hnone : [lineBreak].filter (· ≠ lineBreak) = [] := by decide
    rw [hbody, List.filter_append, hfilter hplain, hnone, List.append_nil]
  · have hmem : lineBreak ∉ lineTokens line := by
      intro hmem
      have hne := List.ne_nil_of_mem hmem
      rw [← List.dropLast_append_getLast hne, List.mem_append, List.mem_singleton] at hmem
      exact hlast (by rw [List.getLast?_eq_some_getLast hne, ← hmem.resolve_left hplain])
    refine ⟨[], ?_, .inl rfl, by simp [hlast]⟩
    rw [hfilter hmem, List.append_nil]

/-- The numbers of rows are equal if and only if it is the last condition of `RowsFit`. -/
theorem length_eq_iff {cols : ℕ} (hcols : 0 < cols) {line : CStr} (hne : line ≠ [])
    (hplain : lineBreak ∉ (lineTokens line).dropLast) :
    (rowsOf cols line [] 0).length = tuiLineRows (some line) cols ↔ RowsFit cols line := by
  obtain ⟨tail, hsplit, htail, hlength⟩ := exists_body hplain
  obtain ⟨body, hbody⟩ : ∃ body, (lineTokens line).filter (· ≠ lineBreak) = body := ⟨_, rfl⟩
  have hmem : lineBreak ∉ body := by
    rw [← hbody]
    exact fun h ↦ absurd (List.of_mem_filter h) (by decide)
  rw [hbody] at hsplit
  have hlast : 0 < body.count visible → (¬body.getLast? = some visible ↔
      body.getLast? = some escape) := by
    intro hpos
    obtain ⟨t, ht⟩ : ∃ t, body.getLast? = some t := Option.ne_none_iff_exists'.mp
      (List.getLast?_eq_none_iff.not.mpr (List.ne_nil_of_mem (List.count_pos_iff.mp hpos)))
    have hbreak : t ≠ lineBreak := ne_of_mem_of_not_mem (List.mem_of_getLast? ht) hmem
    rw [ht]
    revert hbreak
    cases t <;> decide
  have hfit : RowsFit cols line ↔ (tail.length = 1 ↔
      0 < body.count visible ∧ cols ∣ body.count visible ∧ ¬body.getLast? = some visible) := by
    simp only [RowsFit, hbody, ← hlength]
    rw [and_iff_right hne, and_iff_right hplain]
    refine iff_congr Iff.rfl (and_congr_right fun hpos ↦ and_congr_right fun _ ↦ ?_)
    exact (hlast hpos).symm
  rw [hfit, ← rows_eq_iff pos_of_getLast? (by rcases htail with rfl | rfl <;> decide),
    length_rowsOf hcols [] 0 hne hsplit hmem htail, tuiLineRows]
  simp only [if_neg hcols.ne']
  rw [lineRowsLoop_eq hcols (Nat.zero_le _) hsplit hmem htail]

/-- **Counting and drawing agree on the lines that fit, and on no others.** -/
theorem rowsAgree_iff {cols : ℕ} (hcols : 0 < cols) (line : CStr) :
    RowsAgree cols line ↔ RowsFit cols line := by
  constructor
  · intro h
    obtain ⟨hcount, hskip⟩ := h _ le_rfl
    have hlength : (rowsOf cols line [] 0).length = tuiLineRows (some line) cols := by
      rw [← hcount, ← drawMessage_zero hcols le_rfl, List.length_map]
    have hne : line ≠ [] := by
      rintro rfl
      rw [length_rowsOf_nil, tuiLineRows] at hlength
      simp only [if_neg hcols.ne', lineRowsLoop] at hlength
      exact absurd hlength (by decide)
    have hplain : lineBreak ∉ (lineTokens line).dropLast := by
      intro hmem
      obtain ⟨k, hk, hdraw⟩ := exists_skip_length_ne (line.length + 3) hcols hmem
      have htokens := length_lineTokens_le line
      have hrows := congrArg List.length (hskip k (hlength ▸ hk))
      rw [drawMessage_zero hcols le_rfl, List.length_drop, List.length_map] at hrows
      refine hdraw ⟨2, k, true, []⟩ rfl (fun _ ↦ rfl) (by simp only; omega) ?_
      rw [List.length_nil, Nat.zero_add]
      exact hrows
    exact (length_eq_iff hcols hne hplain).mp hlength
  · intro h rows hrows
    have hlength := (length_eq_iff hcols h.1 h.2.1).mpr h
    have hzero := drawMessage_zero hcols hrows
    refine ⟨?_, fun k hk ↦ ?_⟩
    · rw [← hlength, ← hzero, List.length_map]
    · have htokens := length_lineTokens_le line
      rw [hzero, drawMessage, messageLoop_drop h.2.1 (hlength ▸ hk) rfl (fun _ ↦ rfl)
        (by simp only; omega)]
      rfl

theorem rowsAgree_iff_boldHello : RowsAgree 2 (esc :: lit "[1mhello") := by
  have htokens : lineTokens (esc :: lit "[1mhello") = escape :: List.replicate 5 visible := by
    have hline : esc :: lit "[1mhello" = esc :: lbracket :: lit "1mhello" := by decide
    have hrest : afterEscape (lit "1mhello") = lit "hello" := by decide
    rw [hline, lineTokens_escape, hrest, lineTokens_plain (by decide) (by decide)]
    rfl
  refine (rowsAgree_iff (by decide) _).mpr ?_
  rw [RowsFit, htokens]
  decide

/-- An escape sequence after a full row gives a row that is not counted. -/
theorem not_rowsAgree_reset : ¬RowsAgree 2 (lit "ab" ++ esc :: lit "[0m") := by
  intro h
  exact absurd (h 9 (by decide +kernel)).1 (by decide +kernel)

end Rustyaxe
