import Rustyaxe.Lib.Recall
import Rustyaxe.Tui.InputLine

/-!
# The history of input

`history_prev`, `history_next` and `history_add` of `tui.keys.c` over whole runs, with one history
for all windows or with one for each.  A history holds the last fifty lines that were entered while
it was the active one, and going back and forth in it shows them in their order
(`histories_recall`).

There is memory for the lines that are added.
-/

set_option autoImplicit false

namespace Rustyaxe

/-! ## The code -/

/-- The histories: `none` stands for the one that windows share. -/
structure Histories (κ : Type) where
  sharedInputHistory : Bool
  history : Option κ → InputHistory

/-- A call. -/
inductive HistoryCall (κ : Type) where
  | add (window : Option κ) (line : CStr)
  | prev (window : Option κ)
  | next (window : Option κ)
  | setShared (shared : Bool)

variable {κ : Type}

/-- `active_history`, with what `tui_active_window` returns. -/
def activeHistory (shared : Bool) (window : Option κ) : Option κ :=
  if shared ∨ window = none then none else window

/-- The history that `tui_set_shared_input_history` leaves. -/
def InputHistory.setShared (h : InputHistory) (shared : Bool) : InputHistory :=
  { h with
    index := if shared then h.count else -1
    neg_one_le_index := by split_ifs <;> omega
    index_le := by
      have hcount := h.count_le
      split_ifs <;> omega }

/-- A call, with what it returns. -/
def Histories.step [DecidableEq κ] (s : Histories κ) :
    HistoryCall κ → Option HistoryLine × Histories κ
  | .add window line =>
    let k := activeHistory s.sharedInputHistory window
    (none, { s with history := Function.update s.history k ((s.history k).add true line) })
  | .prev window =>
    let k := activeHistory s.sharedInputHistory window
    let (line, h) := (s.history k).prev
    (line, { s with history := Function.update s.history k h })
  | .next window =>
    let k := activeHistory s.sharedInputHistory window
    let (line, h) := (s.history k).next
    (line, { s with history := Function.update s.history k h })
  | .setShared shared =>
    (none, ⟨shared, Function.update s.history none ((s.history none).setShared shared)⟩)

theorem length_noLines :
    (List.replicate historyLines (none : Option HistoryLine)).length = historyLines :=
  List.length_replicate

/-- The history of all windows, which is in static storage, or that of one, from `calloc`. -/
def InputHistory.new (shared : Bool) : InputHistory where
  lines := List.replicate historyLines none
  count := 0
  index := if shared then -1 else 0
  length_lines := length_noLines
  count_le := Nat.zero_le _
  neg_one_le_index := by split_ifs <;> omega
  index_le := by split_ifs <;> omega

/-- What there is at first. -/
def Histories.static : Histories κ where
  sharedInputHistory := true
  history k := .new k.isNone

/-- The histories after some calls. -/
def Histories.run [DecidableEq κ] (cs : List (HistoryCall κ)) : Histories κ :=
  cs.foldl (fun s c ↦ (s.step c).2) .static

/-! ## What is recalled -/

/-- What a call does to one of the histories. -/
def HistoryCall.ops [DecidableEq κ] (k : Option κ) (shared : Bool) :
    HistoryCall κ → List (Recall.Op HistoryLine)
  | .add window line =>
    if activeHistory shared window = k ∧ line.takeWhile (· ≠ 0) ≠ [] then
      [.enter (strndupLine line)]
    else []
  | .prev window => if activeHistory shared window = k then [.older] else []
  | .next window => if activeHistory shared window = k then [.newer] else []
  | .setShared _ => if k = none then [.leave] else []

/-- Whether windows share a history after a call. -/
def HistoryCall.shared (shared : Bool) : HistoryCall κ → Bool
  | .setShared shared => shared
  | _ => shared

/-- What the calls of a run do to one of the histories. -/
def routed [DecidableEq κ] (k : Option κ) : Bool → List (HistoryCall κ) →
    List (Recall.Op HistoryLine)
  | _, [] => []
  | shared, c :: cs => c.ops k shared ++ routed k (c.shared shared) cs

/-- A history holds the lines, and its index stands as far back. -/
structure Recalls (h : InputHistory) (r : Recall HistoryLine) : Prop where
  lines : h.lines.take h.count = r.lines.map some
  index : if r.depth = 0 then h.index = -1 ∨ h.index = h.count else h.index = h.count - r.depth

/-- What going forth shows: the line after, an empty one behind the last, and nothing or again an
empty one where no line is looked at. -/
def ShowsNewer (r : Recall HistoryLine) (line : Option HistoryLine) : Prop :=
  if r.depth = 0 then line = none ∨ line = some (strndupLine [])
  else if r.depth = 1 then line = some (strndupLine [])
  else line = (r.step historyLines .newer).shown

section
variable {h : InputHistory} {r : Recall HistoryLine}

theorem Recalls.count_eq (hr : Recalls h r) : h.count = r.lines.length := by
  have hlen := congrArg List.length hr.lines
  rw [List.length_take, h.length_lines, min_eq_left h.count_le, List.length_map] at hlen
  exact hlen

/-- The line so far from the end is the one that is shown at this depth. -/
theorem Recalls.get_eq (hr : Recalls h r) {d : ℕ} (hd : d ≤ r.lines.length) (hpos : d ≠ 0)
    (i : Fin h.lines.length) (hi : i + d = h.count) :
    h.lines.get i = (⟨r.lines, d, hd⟩ : Recall HistoryLine).shown := by
  have hcount := hr.count_eq
  have hget : (h.lines.take h.count)[i.1]? = (r.lines.map some)[i.1]? := by rw [hr.lines]
  have hlt : i.1 < r.lines.length := by omega
  rw [List.getElem?_take_of_lt (by omega), List.getElem?_eq_getElem i.2, List.getElem?_map,
    List.getElem?_eq_getElem hlt, Option.map_some, Option.some.injEq] at hget
  rw [Recall.shown, if_neg hpos, List.get_eq_getElem, hget]
  have hplace : r.lines.length - d = i.1 := by omega
  dsimp only
  rw [hplace, List.getElem?_eq_getElem hlt]

/-- **Going back shows the line before.** -/
theorem Recalls.prev (hr : Recalls h r) : h.prev.1 = (r.step historyLines .older).shown ∧
    Recalls h.prev.2 (r.step historyLines .older) := by
  have hcount := hr.count_eq
  have hdepth := r.depth_le
  have hindex := hr.index
  rw [InputHistory.prev]
  by_cases hzero : h.count = 0
  · have hshown : min (r.depth + 1) r.lines.length = 0 := by omega
    rw [dif_pos hzero]
    refine ⟨(if_pos hshown).symm, hr.lines, ?_⟩
    rw [Recall.step, if_pos hshown]
    rwa [if_pos (by omega)] at hindex
  · rw [dif_neg hzero]
    have hback : (if h.index < 0 then (h.count : ℤ) - 1
        else if 0 < h.index then h.index - 1 else h.index) =
          h.count - (min (r.depth + 1) r.lines.length : ℕ) := by
      split_ifs at hindex ⊢ <;> omega
    have hpos : min (r.depth + 1) r.lines.length ≠ 0 := by omega
    refine ⟨hr.get_eq (min_le_right _ _) hpos _ ?_, hr.lines, ?_⟩
    · dsimp only
      rw [hback]
      omega
    · rw [Recall.step, if_neg hpos]
      exact hback

/-- **Going forth shows the line after.** -/
theorem Recalls.next (hr : Recalls h r) :
    ShowsNewer r h.next.1 ∧ Recalls h.next.2 (r.step historyLines .newer) := by
  have hcount := hr.count_eq
  have hdepth := r.depth_le
  have hindex := hr.index
  rw [InputHistory.next, ShowsNewer]
  by_cases hstop : h.count = 0 ∨ h.index < 0
  · have hzero : r.depth = 0 := by
      split_ifs at hindex <;> omega
    have hnewer : r.depth - 1 = 0 := by omega
    rw [dif_pos hstop, if_pos hzero]
    rw [if_pos hzero] at hindex
    exact ⟨.inl rfl, hr.lines, by rwa [Recall.step, if_pos hnewer]⟩
  rw [dif_neg hstop]
  by_cases hend : (h.count : ℤ) ≤ h.index + 1
  · have hlast : r.depth - 1 = 0 := by
      split_ifs at hindex <;> omega
    rw [dif_pos hend]
    refine ⟨?_, hr.lines, ?_⟩
    · split_ifs
      · exact .inr rfl
      · rfl
      · omega
    · rw [Recall.step, if_pos hlast]
      exact .inl rfl
  · rw [dif_neg hend]
    have hmore : r.depth ≠ 0 ∧ r.depth - 1 ≠ 0 ∧ h.index = h.count - r.depth := by
      split_ifs at hindex <;> omega
    obtain ⟨hne, hpos, hindex⟩ := hmore
    have hle := h.count_le
    rw [if_neg hne, if_neg (by omega)]
    refine ⟨hr.get_eq _ hpos _ ?_, hr.lines, ?_⟩
    · dsimp only
      omega
    · rw [Recall.step, if_neg hpos]
      dsimp only
      omega

/-- What stands before a place and in it, when something has been put there. -/
theorem take_set_concat {α : Type} {l : List α} {n : ℕ} (hn : n < l.length) (a : α) :
    (l.set n a).take (n + 1) = l.take n ++ [a] := by
  rw [List.take_add_one, List.getElem?_set_self hn, List.take_set,
    List.set_eq_of_length_le (List.length_take_le _ _)]
  rfl

/-- **A line that is entered stands at the end**, and the oldest one makes room. -/
theorem Recalls.add (hr : Recalls h r) {line : CStr} (hline : line.takeWhile (· ≠ 0) ≠ []) :
    Recalls (h.add true line) (r.step historyLines (.enter (strndupLine line))) := by
  have hcount := hr.count_eq
  have hle := h.count_le
  have hlen := h.length_lines
  have hfifty : historyLines = 50 := rfl
  rw [InputHistory.add, if_neg hline]
  refine ⟨?_, ?_⟩
  · dsimp only
    rw [if_pos rfl]
    dsimp only
    rw [Recall.step]
    dsimp only
    by_cases hfull : historyLines ≤ h.count
    · have hall : h.lines = r.lines.map some := by
        rw [← hr.lines, List.take_of_length_le (by omega)]
      have htail : (h.lines.tail ++ h.lines.drop (historyLines - 1)).take (h.count - 1) =
          h.lines.tail := by
        rw [List.take_append_of_le_length (by rw [List.length_tail]; omega),
          List.take_of_length_le (by rw [List.length_tail]; omega)]
      have hdrop : r.lines.length + 1 - historyLines = 1 := by omega
      rw [if_pos hfull, if_pos hfull, take_set_concat _ _, htail, hall, hdrop,
        List.drop_append_of_le_length (by omega), List.drop_one, List.map_append, List.map_tail]
      · rfl
      · rw [List.length_append, List.length_tail, List.length_drop]
        omega
    · have hdrop : r.lines.length + 1 - historyLines = 0 := by omega
      rw [if_neg hfull, if_neg hfull, take_set_concat (by omega), hr.lines, hdrop, List.drop_zero,
        List.map_append]
      rfl
  · rw [Recall.step, if_pos rfl]
    exact .inr rfl

theorem Recalls.setShared (hr : Recalls h r) (shared : Bool) :
    Recalls (h.setShared shared) (r.step historyLines .leave) := by
  refine ⟨hr.lines, ?_⟩
  rw [Recall.step, if_pos rfl, InputHistory.setShared]
  cases shared with
  | true => exact .inr rfl
  | false => exact .inl rfl

theorem recalls_new (shared : Bool) : Recalls (.new shared) .empty := by
  refine ⟨rfl, ?_⟩
  rw [Recall.empty, if_pos rfl]
  cases shared with
  | true => exact .inl rfl
  | false => exact .inr rfl

end

/-! ## Runs -/

variable [DecidableEq κ]

theorem routed_concat (k : Option κ) (cs : List (HistoryCall κ)) (c : HistoryCall κ) :
    ∀ shared, routed k shared (cs ++ [c]) =
      routed k shared cs ++ c.ops k (cs.foldl HistoryCall.shared shared) := by
  induction cs with
  | nil => exact fun shared ↦ List.append_nil _
  | cons d cs ih =>
    intro shared
    rw [List.cons_append, routed, ih, routed, List.append_assoc, List.foldl_cons]

theorem Histories.step_shared (s : Histories κ) (c : HistoryCall κ) :
    (s.step c).2.sharedInputHistory = c.shared s.sharedInputHistory := by
  cases c with
  | add window line => rfl
  | prev window => rfl
  | next window => rfl
  | setShared shared => rfl

/-- Every history does what is for it, and the others do nothing. -/
theorem recalls_update {history : Option κ → InputHistory} {r : Option κ → Recall HistoryLine}
    (hr : ∀ k, Recalls (history k) (r k)) {k : Option κ} {h : InputHistory}
    {op : Recall.Op HistoryLine} (hop : Recalls h ((r k).step historyLines op)) (k' : Option κ) :
    Recalls (Function.update history k h k')
      ((if k = k' then [op] else []).foldl (Recall.step historyLines) (r k')) := by
  by_cases hk : k = k'
  · subst hk
    rw [Function.update_self, if_pos rfl]
    exact hop
  · rw [Function.update_of_ne (Ne.symm hk), if_neg hk]
    exact hr k'

theorem Histories.recalls_step {s : Histories κ} {r : Option κ → Recall HistoryLine}
    (hr : ∀ k, Recalls (s.history k) (r k)) (c : HistoryCall κ) (k : Option κ) :
    Recalls ((s.step c).2.history k)
      ((c.ops k s.sharedInputHistory).foldl (Recall.step historyLines) (r k)) := by
  cases c with
  | add window line =>
    rw [HistoryCall.ops]
    by_cases hline : line.takeWhile (· ≠ 0) = []
    · have hsame : (s.history (activeHistory s.sharedInputHistory window)).add true line =
          s.history (activeHistory s.sharedInputHistory window) := by
        rw [InputHistory.add, if_pos hline]
      rw [if_neg fun h ↦ h.2 hline, Histories.step, hsame, Function.update_eq_self]
      exact hr k
    · have hadd := (hr (activeHistory s.sharedInputHistory window)).add hline
      rw [if_congr (and_iff_left hline) rfl rfl]
      exact recalls_update hr hadd k
  | prev window => exact recalls_update hr (hr _).prev.2 k
  | next window => exact recalls_update hr (hr _).next.2 k
  | setShared shared =>
    have hupdate := recalls_update hr ((hr none).setShared shared) k
    rwa [HistoryCall.ops, if_congr eq_comm rfl rfl]

theorem Histories.recalls_run (cs : List (HistoryCall κ)) :
    (Histories.run cs).sharedInputHistory = cs.foldl HistoryCall.shared true ∧
      ∀ k, Recalls ((Histories.run cs).history k) (Recall.run historyLines (routed k true cs)) := by
  induction cs using List.reverseRecOn with
  | nil =>
    exact ⟨rfl, fun k ↦ recalls_new k.isNone⟩
  | append_singleton cs c ih =>
    obtain ⟨hshared, hrecalls⟩ := ih
    have hrun : Histories.run (cs ++ [c]) = ((Histories.run cs).step c).2 := by
      rw [Histories.run, List.foldl_append, List.foldl_cons, List.foldl_nil, Histories.run]
    rw [hrun, List.foldl_append]
    refine ⟨(Histories.step_shared _ c).trans (by rw [hshared]; rfl), fun k ↦ ?_⟩
    rw [routed_concat, Recall.run_append, ← hshared]
    exact Histories.recalls_step hrecalls c k

/-- **What a history recalls.**  After every run of calls, in one window or another and with or
without a history of its own for each: the active history holds the last fifty lines that were
entered while it was the active one, and going back and forth shows them one after the other. -/
theorem histories_recall (cs : List (HistoryCall κ)) (window : Option κ) :
    let s := Histories.run cs
    let k := activeHistory s.sharedInputHistory window
    let ops := routed k true cs
    let r := Recall.run historyLines ops
    (s.history k).lines.take (s.history k).count = r.lines.map some ∧
      r.lines = (Recall.entered ops).drop ((Recall.entered ops).length - historyLines) ∧
      (s.step (.prev window)).1 = (r.step historyLines .older).shown ∧
      ShowsNewer r (s.step (.next window)).1 := by
  obtain ⟨-, hrecalls⟩ := Histories.recalls_run cs
  have hactive := hrecalls (activeHistory (Histories.run cs).sharedInputHistory window)
  exact ⟨hactive.lines, Recall.lines_run _, hactive.prev.1, hactive.next.1⟩

end Rustyaxe
