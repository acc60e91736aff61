import Mathlib.Data.Int.Notation
import Mathlib.Data.List.Basic

/-!
# Texts in buffers of a fixed size

A buffer is a list, and its indices are integers, as a program computes them.  An access outside the
buffer has no result.  `HoldsText nul size buf text` says that a buffer of this size holds the text,
with a terminator behind it.

The editing of the text in place is described by what it does to the text: `HoldsText.truncate` cuts
it off, `HoldsText.cut` takes a piece out of it, and `HoldsText.openGap` makes room in it for
another.  The one condition is that the result fits (`memmove_eq_none`).
-/

set_option autoImplicit false

namespace TextBuffer

variable {α : Type}

/-! ## Accesses -/

/-- `buf[i]` -/
def load (buf : List α) (i : ℤ) : Option α := if 0 ≤ i then buf[i.toNat]? else none

/-- `buf[i] = a` -/
def store (buf : List α) (i : ℤ) (a : α) : Option (List α) :=
  if 0 ≤ i ∧ i < buf.length then some (buf.set i.toNat a) else none

/-- `memcpy(&buf[dst], src, …)`, where `src` is all that is copied. -/
def memcpy (buf : List α) (dst : ℤ) (src : List α) : Option (List α) :=
  if 0 ≤ dst ∧ dst + src.length ≤ buf.length then
    some (buf.take dst.toNat ++ src ++ buf.drop (dst.toNat + src.length))
  else none

/-- `n` elements from `&buf[src]` on. -/
def slice (buf : List α) (src n : ℤ) : Option (List α) :=
  if 0 ≤ src ∧ 0 ≤ n ∧ src + n ≤ buf.length then some ((buf.drop src.toNat).take n.toNat) else none

/-- `memmove(&buf[dst], &buf[src], n)` -/
def memmove (buf : List α) (dst src n : ℤ) : Option (List α) := do
  memcpy buf dst (← slice buf src n)

/-- `while (i > 0 && p(buf[i - 1])) i--`, for at most so many rounds. -/
def scanBackLoop (p : α → Bool) (buf : List α) : (fuel : ℕ) → (i : ℤ) → Option ℤ
  | 0, i => some i
  | fuel + 1, i => do
    if p (← load buf (i - 1)) then scanBackLoop p buf fuel (i - 1) else some i

/-- `while (i > 0 && p(buf[i - 1])) i--` -/
def scanBack (p : α → Bool) (buf : List α) (i : ℤ) : Option ℤ := scanBackLoop p buf i.toNat i

/-- `while (i < stop && p(buf[i])) i++`, for at most so many rounds. -/
def scanForwardLoop (p : α → Bool) (buf : List α) : (fuel : ℕ) → (i : ℤ) → Option ℤ
  | 0, i => some i
  | fuel + 1, i => do
    if p (← load buf i) then scanForwardLoop p buf fuel (i + 1) else some i

/-- `while (i < stop && p(buf[i])) i++` -/
def scanForward (p : α → Bool) (buf : List α) (i stop : ℤ) : Option ℤ :=
  scanForwardLoop p buf (stop - i).toNat i

theorem load_natCast (buf : List α) (i : ℕ) : load buf i = buf[i]? := by
  rw [load, if_pos (Int.natCast_nonneg i), Int.toNat_natCast]

theorem store_natCast {buf : List α} {i : ℕ} (h : i < buf.length) (a : α) :
    store buf i a = some (buf.set i a) := by
  rw [store, if_pos ⟨Int.natCast_nonneg i, by omega⟩, Int.toNat_natCast]

theorem load_isSome (buf : List α) {i : ℤ} (hi : 0 ≤ i) (h : i < buf.length) :
    (load buf i).isSome := by
  rw [load, if_pos hi, List.getElem?_eq_getElem (by omega)]
  rfl

theorem scanBackLoop_spec (p : α → Bool) (buf : List α) : ∀ (fuel : ℕ) {i : ℤ}, fuel = i →
    i ≤ buf.length → ∃ i', scanBackLoop p buf fuel i = some i' ∧ 0 ≤ i' ∧ i' ≤ i
  | 0, i, hi, _ => ⟨i, rfl, by omega, Int.le_refl i⟩
  | fuel + 1, i, hi, hle => by
    obtain ⟨a, ha⟩ := Option.isSome_iff_exists.mp (load_isSome buf (i := i - 1) (by omega)
      (by omega))
    rw [scanBackLoop, ha, Option.bind_eq_bind, Option.bind_some]
    cases p a with
    | false => exact ⟨i, rfl, by omega, Int.le_refl i⟩
    | true =>
      obtain ⟨i', hscan, h0, hle'⟩ := scanBackLoop_spec p buf fuel (i := i - 1) (by omega) (by omega)
      exact ⟨i', hscan, h0, by omega⟩

/-- The scan stops between the start of the buffer and where it began. -/
theorem scanBack_spec (p : α → Bool) {buf : List α} {i : ℤ} (hi : 0 ≤ i) (hle : i ≤ buf.length) :
    ∃ i', scanBack p buf i = some i' ∧ 0 ≤ i' ∧ i' ≤ i :=
  scanBackLoop_spec p buf _ (Int.toNat_of_nonneg hi) hle

theorem scanForwardLoop_spec (p : α → Bool) (buf : List α) : ∀ (fuel : ℕ) {i : ℤ}, 0 ≤ i →
    i + fuel ≤ buf.length → ∃ i', scanForwardLoop p buf fuel i = some i' ∧ i ≤ i' ∧ i' ≤ i + fuel
  | 0, i, _, _ => ⟨i, rfl, Int.le_refl i, by omega⟩
  | fuel + 1, i, hi, hle => by
    obtain ⟨a, ha⟩ := Option.isSome_iff_exists.mp (load_isSome buf hi (by omega))
    rw [scanForwardLoop, ha, Option.bind_eq_bind, Option.bind_some]
    cases p a with
    | false => exact ⟨i, rfl, Int.le_refl i, by omega⟩
    | true =>
      obtain ⟨i', hscan, hge, hle'⟩ :=
        scanForwardLoop_spec p buf fuel (i := i + 1) (by omega) (by omega)
      exact ⟨i', hscan, by omega, by omega⟩

/-- The scan stops between where it began and where it is to stop. -/
theorem scanForward_spec (p : α → Bool) {buf : List α} {i stop : ℤ} (hi : 0 ≤ i) (hle : i ≤ stop)
    (hstop : stop ≤ buf.length) :
    ∃ i', scanForward p buf i stop = some i' ∧ i ≤ i' ∧ i' ≤ stop := by
  obtain ⟨i', hscan, hge, hle'⟩ :=
    scanForwardLoop_spec p buf (stop - i).toNat hi (by omega)
  exact ⟨i', hscan, hge, by omega⟩

/-- What is written takes the place of as much of the buffer. -/
theorem memcpy_append (pre gap post src : List α) (h : src.length = gap.length) {dst : ℤ}
    (hdst : dst = pre.length) : memcpy (pre ++ gap ++ post) dst src = some (pre ++ src ++ post) := by
  subst hdst
  rw [memcpy, if_pos ⟨Int.natCast_nonneg _, by simp only [List.length_append]; omega⟩,
    Int.toNat_natCast]
  have htake : (pre ++ gap ++ post).take pre.length = pre := by
    rw [List.append_assoc, List.take_left]
  have hdrop : (pre ++ gap ++ post).drop (pre.length + src.length) = post := by
    rw [h, ← List.length_append, List.drop_left]
  rw [htake, hdrop]

/-- What is stored takes the place of one element. -/
theorem store_append (pre post : List α) (x a : α) {i : ℤ} (hi : i = pre.length) :
    store (pre ++ [x] ++ post) i a = some (pre ++ [a] ++ post) := by
  subst hi
  rw [store_natCast (by simp), List.append_assoc, List.set_append_right _ _ (Nat.le_refl _),
    Nat.sub_self, List.append_assoc]
  rfl

theorem load_append (pre post : List α) (a : α) {i : ℤ} (hi : i = pre.length) :
    load (pre ++ [a] ++ post) i = some a := by
  subst hi
  rw [load_natCast, List.append_assoc, List.getElem?_append_right (Nat.le_refl _), Nat.sub_self]
  rfl

/-- **An element that has been read may be overwritten**: the gap between what is written and what
is to be read goes on from there. -/
theorem store_gap (written gap taken post : List α) (htaken : taken ≠ []) (a : α) :
    ∃ gap', gap'.length + 1 = gap.length + taken.length ∧
      store (written ++ gap ++ (taken ++ post)) written.length a =
        some (written ++ [a] ++ gap' ++ post) := by
  obtain ⟨x, gap', hgap⟩ := List.exists_cons_of_ne_nil
    (List.append_ne_nil_of_right_ne_nil gap htaken)
  refine ⟨gap', ?_, ?_⟩
  · rw [← List.length_append, hgap, List.length_cons]
  · have hbuf : written ++ gap ++ (taken ++ post) = written ++ [x] ++ (gap' ++ post) := by
      rw [← List.append_assoc (written ++ gap), List.append_assoc written, hgap]
      simp
    rw [hbuf, store_append _ _ x a rfl, ← List.append_assoc]

theorem store_length {buf buf' : List α} {i : ℤ} {a : α} (h : store buf i a = some buf') :
    buf'.length = buf.length := by
  rw [store] at h
  split_ifs at h
  rw [← Option.some.inj h, List.length_set]

theorem slice_append (pre text post : List α) {src n : ℤ} (hsrc : src = pre.length)
    (hn : n = text.length) : slice (pre ++ text ++ post) src n = some text := by
  subst hsrc hn
  rw [slice, if_pos ⟨Int.natCast_nonneg _, Int.natCast_nonneg _, by
    simp only [List.length_append]; omega⟩, Int.toNat_natCast, Int.toNat_natCast, List.append_assoc,
    List.drop_left, List.take_left]

/-! ## Texts -/

/-- The buffer holds the text and the terminator behind it. -/
structure HoldsText (nul : α) (size : ℕ) (buf text : List α) : Prop where
  length_eq : buf.length = size
  isPrefix : text ++ [nul] <+: buf
  no_nul : nul ∉ text

namespace HoldsText

variable {nul : α} {size : ℕ} {buf text : List α} (h : HoldsText nul size buf text)
include h

theorem length_lt : text.length < size := by
  have hle := h.isPrefix.length_le
  rw [List.length_append, List.length_singleton, h.length_eq] at hle
  omega

theorem exists_rest : ∃ rest, buf = text ++ nul :: rest := by
  obtain ⟨rest, hrest⟩ := h.isPrefix
  exact ⟨rest, by rw [← hrest, List.append_assoc, List.singleton_append]⟩

theorem load_length : load buf text.length = some nul := by
  obtain ⟨rest, rfl⟩ := h.exists_rest
  rw [load_natCast, List.getElem?_append_right (Nat.le_refl _), Nat.sub_self, List.getElem?_cons_zero]

theorem load_lt {i : ℕ} (hi : i < text.length) : load buf i = some text[i] := by
  obtain ⟨rest, rfl⟩ := h.exists_rest
  rw [load_natCast, List.getElem?_append_left hi, List.getElem?_eq_getElem hi]

/-- The text is what stands before the first terminator. -/
theorem takeWhile_eq [DecidableEq α] : buf.takeWhile (fun a ↦ decide (a ≠ nul)) = text := by
  obtain ⟨rest, rfl⟩ := h.exists_rest
  have hall : ∀ a ∈ text, decide (a ≠ nul) = true := fun a ha ↦
    decide_eq_true fun he : a = nul ↦ h.no_nul (he ▸ ha)
  rw [List.takeWhile_append_of_pos hall, List.takeWhile_cons_of_neg (by simp), List.append_nil]

/-- **Cutting the text off.** -/
theorem truncate {i : ℕ} (hi : i ≤ text.length) :
    ∃ buf', store buf i nul = some buf' ∧ HoldsText nul size buf' (text.take i) := by
  have hlt := h.length_lt
  have hlen := h.length_eq
  refine ⟨_, store_natCast (by omega) nul, by rw [List.length_set, hlen], ?_,
    fun hmem ↦ h.no_nul (List.mem_of_mem_take hmem)⟩
  obtain ⟨rest, rfl⟩ := h.exists_rest
  rw [List.length_append, List.length_cons] at hlen
  refine ⟨(text ++ nul :: rest).drop (i + 1), ?_⟩
  rw [List.set_eq_take_append_cons_drop, if_pos (by rw [List.length_append, List.length_cons]; omega),
    List.take_append_of_le_length hi, List.append_assoc, List.singleton_append]

/-- The end of the text, from the place `j` on, with its terminator. -/
theorem slice_tail {j : ℕ} (hj : j ≤ text.length) {n : ℤ} (hn : n = text.length - j + 1) :
    slice buf j n = some (text.drop j ++ [nul]) := by
  obtain ⟨rest, rfl⟩ := h.exists_rest
  have hsplit : text ++ nul :: rest = text.take j ++ (text.drop j ++ [nul]) ++ rest := by
    rw [← List.append_assoc, List.take_append_drop, List.append_assoc, List.singleton_append]
  rw [hsplit]
  refine slice_append _ _ _ ?_ ?_
  · rw [List.length_take]
    omega
  · rw [List.length_append, List.length_drop, List.length_singleton]
    omega

/-- **Taking a piece out**: what is behind it, terminator included, moves up. -/
theorem cut {i j : ℕ} (hij : i ≤ j) (hj : j ≤ text.length) {n : ℤ} (hn : n = text.length - j + 1) :
    ∃ buf', memmove buf i j n = some buf' ∧ HoldsText nul size buf' (text.take i ++ text.drop j) := by
  have hlt := h.length_lt
  have hlen := h.length_eq
  rw [memmove, h.slice_tail hj hn, Option.bind_eq_bind, Option.bind_some]
  obtain ⟨rest, hrest⟩ := h.exists_rest
  have htake : buf.take i = text.take i := by
    rw [hrest, List.take_append_of_le_length (by omega)]
  have hsplit : buf = text.take i ++ (buf.drop i).take (text.drop j ++ [nul]).length ++
      (buf.drop i).drop (text.drop j ++ [nul]).length := by
    rw [List.append_assoc, List.take_append_drop, ← htake, List.take_append_drop]
  have hroom : (text.drop j ++ [nul]).length ≤ (buf.drop i).length := by
    rw [List.length_append, List.length_drop, List.length_drop, List.length_singleton]
    omega
  refine ⟨text.take i ++ (text.drop j ++ [nul]) ++
    (buf.drop i).drop (text.drop j ++ [nul]).length, ?_, ?_, ?_, fun hmem ↦ ?_⟩
  · conv_lhs => rw [hsplit]
    refine memcpy_append _ _ _ _ ?_ ?_
    · rw [List.length_take, Nat.min_eq_left hroom]
    · rw [List.length_take]
      omega
  · have hall := congrArg List.length hsplit
    rw [List.length_append, List.length_append, List.length_take (l := buf.drop i),
      Nat.min_eq_left hroom] at hall
    rw [List.length_append, List.length_append, ← hall, hlen]
  · exact ⟨_, by rw [List.append_assoc (text.take i)]⟩
  · rcases List.mem_append.mp hmem with hmem | hmem
    · exact h.no_nul (List.mem_of_mem_take hmem)
    · exact h.no_nul (List.mem_of_mem_drop hmem)

/-- **Making room**: what is behind the piece moves, and leaves a gap of `k` elements. -/
theorem openGap {i j k : ℕ} (hi : i ≤ text.length) (hj : j ≤ text.length) {dst n : ℤ}
    (hdst : dst = i + k) (hn : n = text.length - j + 1)
    (hfits : i + k + (text.length - j) < size) :
    ∃ gap rest, gap.length = k ∧
      memmove buf dst j n = some (text.take i ++ gap ++ (text.drop j ++ nul :: rest)) ∧
      (text.take i ++ gap ++ (text.drop j ++ nul :: rest)).length = size := by
  have hlen := h.length_eq
  obtain ⟨rest, hrest⟩ := h.exists_rest
  have htake : buf.take i = text.take i := by
    rw [hrest, List.take_append_of_le_length hi]
  have htail : (text.drop j ++ [nul]).length = text.length - j + 1 := by
    rw [List.length_append, List.length_drop, List.length_singleton]
  have hgap : ((buf.drop i).take k).length = k := by
    rw [List.length_take, List.length_drop]
    omega
  -- the gap, the place of the tail, and what is behind that
  have hsplit : buf = text.take i ++ (buf.drop i).take k ++
      ((buf.drop i).drop k).take (text.drop j ++ [nul]).length ++
      ((buf.drop i).drop k).drop (text.drop j ++ [nul]).length := by
    rw [List.append_assoc, List.take_append_drop, List.append_assoc, List.take_append_drop, ← htake,
      List.take_append_drop]
  have hroom : (((buf.drop i).drop k).take (text.drop j ++ [nul]).length).length
      = (text.drop j ++ [nul]).length := by
    rw [List.length_take, List.length_drop, List.length_drop, htail]
    omega
  refine ⟨(buf.drop i).take k, ((buf.drop i).drop k).drop (text.drop j ++ [nul]).length, hgap, ?_, ?_⟩
  · rw [memmove, h.slice_tail hj hn, Option.bind_eq_bind, Option.bind_some]
    conv_lhs => rw [hsplit]
    rw [memcpy_append _ _ _ _ hroom.symm (by
      rw [List.length_append, List.length_take, hgap]
      omega)]
    simp only [List.append_assoc, List.singleton_append]
  · have hall := congrArg List.length hsplit
    simp only [List.length_append, List.length_cons, List.length_nil] at hall hroom ⊢
    omega

end HoldsText

/-- Filling the gap makes a text of the three pieces. -/
theorem holdsText_of_pieces {nul : α} {size : ℕ} {pre new post rest : List α}
    (hlen : (pre ++ new ++ (post ++ nul :: rest)).length = size) (hpre : nul ∉ pre)
    (hnew : nul ∉ new) (hpost : nul ∉ post) :
    HoldsText nul size (pre ++ new ++ (post ++ nul :: rest)) (pre ++ new ++ post) := by
  refine ⟨hlen, ⟨rest, by simp⟩, fun h ↦ ?_⟩
  rcases List.mem_append.mp h with h | h
  · exact (List.mem_append.mp h).elim hpre hnew
  · exact hpost h

/-- **A move past the end of the buffer has no result.** -/
theorem memmove_eq_none {buf : List α} {dst src n : ℤ} (h : buf.length < dst + n) :
    memmove buf dst src n = none := by
  rw [memmove, slice]
  split
  · next hin =>
    rw [Option.bind_eq_bind, Option.bind_some, memcpy, if_neg]
    rintro ⟨hpos, hle⟩
    rw [List.length_take, List.length_drop] at hle
    omega
  · rfl

end TextBuffer
