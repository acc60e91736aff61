import Mathlib.Data.List.Rotate
import Mathlib.Data.Nat.ModEq

/-!
# Circular buffers

A queue in a fixed block of slots, with the index of the next slot to read, the index of the next
slot to write and the number of slots in use.  The three agree (`tail_eq`), so a buffer whose
indices have come apart cannot be built.

`contents` is the queue itself, oldest element first: `contents_push` and `contents_pop` say that
the buffer is a first-in-first-out queue, however often the indices have wrapped around.
-/

set_option autoImplicit false

/-- A queue in a block of slots. -/
structure CircularBuffer (α : Type) where
  slots : List α
  /-- The next slot to read. -/
  head : ℕ
  /-- The next slot to write. -/
  tail : ℕ
  /-- The number of slots in use. -/
  length : ℕ
  head_lt : head < slots.length
  tail_eq : tail = (head + length) % slots.length
  length_le : length ≤ slots.length

namespace CircularBuffer

variable {α : Type}

def capacity (b : CircularBuffer α) : ℕ := b.slots.length

theorem capacity_pos (b : CircularBuffer α) : 0 < b.slots.length := (Nat.zero_le _).trans_lt b.head_lt

/-- An empty buffer in the given block. -/
def empty (slots : List α) (h : 0 < slots.length) : CircularBuffer α where
  slots := slots
  head := 0
  tail := 0
  length := 0
  head_lt := h
  tail_eq := (Nat.zero_mod _).symm
  length_le := Nat.zero_le _

/-- Write the element behind the last one. -/
def push (b : CircularBuffer α) (a : α) (h : b.length < b.slots.length) : CircularBuffer α where
  slots := b.slots.set b.tail a
  head := b.head
  tail := (b.tail + 1) % b.slots.length
  length := b.length + 1
  head_lt := by simpa using b.head_lt
  tail_eq := by rw [List.length_set, b.tail_eq, Nat.mod_add_mod, Nat.add_assoc]
  length_le := by rwa [List.length_set]

/-- The oldest element. -/
def front (b : CircularBuffer α) : α := b.slots.get ⟨b.head, b.head_lt⟩

/-- Step over the oldest element. -/
def pop (b : CircularBuffer α) (h : b.length ≠ 0) : CircularBuffer α where
  slots := b.slots
  head := (b.head + 1) % b.slots.length
  tail := b.tail
  length := b.length - 1
  head_lt := Nat.mod_lt _ b.capacity_pos
  tail_eq := by
    rw [b.tail_eq, Nat.mod_add_mod]
    congr 1
    omega
  length_le := (Nat.sub_le _ _).trans b.length_le

/-- The queue, oldest element first. -/
def contents (b : CircularBuffer α) : List α := (b.slots.rotate b.head).take b.length

@[simp] theorem contents_empty (slots : List α) (h : 0 < slots.length) :
    (empty slots h).contents = [] := rfl

@[simp] theorem capacity_push (b : CircularBuffer α) (a : α) (h : b.length < b.slots.length) :
    (b.push a h).capacity = b.capacity := List.length_set

@[simp] theorem capacity_pop (b : CircularBuffer α) (h : b.length ≠ 0) :
    (b.pop h).capacity = b.capacity := rfl

@[simp] theorem length_contents (b : CircularBuffer α) : b.contents.length = b.length := by
  rw [contents, List.length_take, List.length_rotate, min_eq_left b.length_le]

/-- Writing to a slot of a rotated block. -/
theorem rotate_set (l : List α) (a : α) (n k : ℕ) (hk : k < l.length) :
    (l.set ((n + k) % l.length) a).rotate n = (l.rotate n).set k a := by
  refine List.ext_getElem? fun j ↦ ?_
  by_cases hj : j < l.length
  · have hslot : (n + k) % l.length = (j + n) % l.length ↔ k = j := by
      rw [Nat.add_comm j n]
      refine ⟨fun h ↦ ?_, fun h ↦ by rw [h]⟩
      have := Nat.ModEq.add_left_cancel' n h
      rwa [Nat.ModEq, Nat.mod_eq_of_lt hk, Nat.mod_eq_of_lt hj] at this
    have hlt : (n + k) % l.length < l.length := Nat.mod_lt _ ((Nat.zero_le _).trans_lt hj)
    rw [List.getElem?_rotate (by rwa [List.length_set]), List.getElem?_set, List.getElem?_set,
      List.length_set, List.length_rotate, List.getElem?_rotate hj]
    simp only [hslot, hlt, hk, if_true]
  · rw [List.getElem?_eq_none (by simpa using hj), List.getElem?_eq_none (by simpa using hj)]

/-- **Pushing appends to the queue.** -/
theorem contents_push (b : CircularBuffer α) (a : α) (h : b.length < b.slots.length) :
    (b.push a h).contents = b.contents ++ [a] := by
  have hlen : b.length < (b.slots.rotate b.head).length := by rwa [List.length_rotate]
  change ((b.slots.set b.tail a).rotate b.head).take (b.length + 1) = _
  rw [b.tail_eq, rotate_set _ _ _ _ h, List.take_add_one, List.take_set_of_le le_rfl,
    List.getElem?_set_self hlen]
  rfl

/-- **Popping takes the oldest element off the queue.** -/
theorem contents_pop (b : CircularBuffer α) (h : b.length ≠ 0) :
    b.contents = b.front :: (b.pop h).contents := by
  obtain ⟨n, hn⟩ := Nat.exists_eq_succ_of_ne_zero h
  obtain ⟨rest, hrest⟩ : ∃ rest, b.slots.rotate b.head = b.front :: rest := by
    rw [← List.head?_eq_some_iff, List.head?_rotate b.head_lt, List.getElem?_eq_getElem b.head_lt]
    rfl
  have hlen : n ≤ rest.length := by
    have := congrArg List.length hrest
    rw [List.length_rotate, List.length_cons] at this
    have := b.length_le
    omega
  have hpop : (b.pop h).contents = (b.slots.rotate (b.head + 1)).take n := by
    change (b.slots.rotate ((b.head + 1) % b.slots.length)).take (b.length - 1) = _
    rw [List.rotate_mod, hn, Nat.succ_sub_one]
  rw [hpop, ← List.rotate_rotate, hrest, List.rotate_cons_succ, List.rotate_zero,
    List.take_append_of_le_length hlen, contents, hrest, hn, List.take_succ_cons]

end CircularBuffer
