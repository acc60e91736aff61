import Mathlib.Data.List.Induction
import Mathlib.Order.Lattice

/-!
# Recalling what was entered

The last lines that were entered, at most as many as there is room for, and how far back one of
them is being looked at: `depth` lines from the end, or none of them at depth zero.

Lines are only lost when there is no room for them (`lines_run`), and looking at them changes none.
-/

set_option autoImplicit false

/-- Some lines, and how far back one is. -/
structure Recall (α : Type) where
  lines : List α
  depth : ℕ
  depth_le : depth ≤ lines.length

namespace Recall

variable {α : Type}

/-- What can be done with them. -/
inductive Op (α : Type) where
  | enter (a : α)
  | older
  | newer
  | leave

/-- The line that is looked at. -/
def shown (r : Recall α) : Option α :=
  if r.depth = 0 then none else r.lines[r.lines.length - r.depth]?

/-- One operation, with room for `n` lines. -/
def step (n : ℕ) (r : Recall α) : Op α → Recall α
  | .enter a => ⟨(r.lines ++ [a]).drop (r.lines.length + 1 - n), 0, Nat.zero_le _⟩
  | .older => ⟨r.lines, min (r.depth + 1) r.lines.length, min_le_right _ _⟩
  | .newer => ⟨r.lines, r.depth - 1, (Nat.sub_le _ _).trans r.depth_le⟩
  | .leave => ⟨r.lines, 0, Nat.zero_le _⟩

/-- Nothing has been entered yet. -/
def empty : Recall α := ⟨[], 0, Nat.le_refl _⟩

def run (n : ℕ) (ops : List (Op α)) : Recall α := ops.foldl (step n) empty

/-- The line that an operation enters. -/
def Op.line : Op α → Option α
  | .enter a => some a
  | _ => none

/-- What is entered. -/
def entered (ops : List (Op α)) : List α := ops.filterMap Op.line

variable {n : ℕ}

theorem run_concat (ops : List (Op α)) (op : Op α) : run n (ops ++ [op]) = (run n ops).step n op := by
  rw [run, List.foldl_append, List.foldl_cons, List.foldl_nil, run]

theorem run_append (ops ops' : List (Op α)) :
    run n (ops ++ ops') = ops'.foldl (step n) (run n ops) := List.foldl_append

/-- Only the last ones of some elements are kept when one more comes. -/
theorem drop_concat {l : List α} (a : α) :
    (l.drop (l.length - n) ++ [a]).drop ((l.drop (l.length - n)).length + 1 - n) =
      (l ++ [a]).drop ((l ++ [a]).length - n) := by
  have hlen : (l.drop (l.length - n)).length = min l.length n := by
    rw [List.length_drop]
    omega
  have hcat : l.drop (l.length - n) ++ [a] = (l ++ [a]).drop (l.length - n) := by
    rw [List.drop_append_of_le_length (Nat.sub_le _ _)]
  rw [hcat, List.drop_drop, hlen, List.length_append, List.length_singleton]
  congr 1
  omega

theorem entered_concat (ops : List (Op α)) (op : Op α) :
    entered (ops ++ [op]) = entered ops ++ op.line.toList := by
  rw [entered, List.filterMap_append]
  cases op with
  | enter a => rfl
  | older => rfl
  | newer => rfl
  | leave => rfl

/-- **The lines are the last ones that were entered.** -/
theorem lines_run (ops : List (Op α)) :
    (run n ops).lines = (entered ops).drop ((entered ops).length - n) := by
  induction ops using List.reverseRecOn with
  | nil => exact List.drop_nil.symm
  | append_singleton ops op ih =>
    rw [run_concat, entered_concat]
    cases op with
    | enter a =>
      have hstep : ((run n ops).step n (.enter a)).lines =
          ((run n ops).lines ++ [a]).drop ((run n ops).lines.length + 1 - n) := rfl
      rw [hstep, ih]
      exact drop_concat a
    | older => simpa [step, Op.line] using ih
    | newer => simpa [step, Op.line] using ih
    | leave => simpa [step, Op.line] using ih

end Recall
