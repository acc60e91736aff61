import Mathlib.Data.List.Basic
import Mathlib.Logic.Function.Basic

/-!
# The mapped EEPROM

`eeprom.c` on a POSIX host: the file with the EEPROM is mapped, and its bytes are read and written
there.

A single byte is written where it should be, so a run of `eeprom_write` leaves the image with all
its bytes set (`eepromWrites_mapped`).  `eeprom_read_block` adds the offset to the first byte of
the image instead of its address, and its loop goes on for one byte too many: whatever has been
written, what is stored in the buffer is the first byte and the numbers after it
(`applyStores_readBlock`), and the byte behind the block is overwritten.
-/

set_option autoImplicit false

namespace Rustyaxe

/-! ## The code -/

/-- The static variables of `eeprom.c`; `mmap` is the mapped image. -/
structure Eeprom where
  mmap : Option (List UInt8)
  fd : UInt32
  ready : Bool
  corrupted : Bool
  deriving DecidableEq, Repr

/-- After `eeprom_init` has mapped an image. -/
def Eeprom.mapped (fd : UInt32) (image : List UInt8) : Eeprom := ⟨some image, fd, true, false⟩

/-- `eeprom_write`, with its result; `none` is a write outside the mapping. -/
def eepromWrite (e : Eeprom) (offset : ℕ) (data : UInt8) : Option (UInt32 × Eeprom) :=
  if e.ready = false ∨ e.corrupted then some (-1, e)
  else match e.mmap with
    | none => some (1, e)
    | some image =>
      if offset < image.length then some (0, { e with mmap := some (image.set offset data) })
      else none

/-- What `eeprom_read_block` stores in `buf`, one byte after the other: `*eeprom_mmap` is a byte,
and the sum is cut to one. -/
def readBlockStores (first : UInt8) (offset len : ℕ) : List (ℕ × UInt8) :=
  (List.range (len + 1)).map fun myoff ↦ (myoff, first + UInt8.ofNat (offset + myoff))

/-- `eeprom_read_block`, with its result and what it stores in `buf`; `none` is a read outside the
mapping. -/
def eepromReadBlock (e : Eeprom) (bufIsNull : Bool) (offset len : ℕ) :
    Option (UInt32 × List (ℕ × UInt8)) :=
  if e.ready = false ∨ e.corrupted then some (-1, [])
  else match e.mmap with
    | none => some (0, [])
    | some image =>
      if bufIsNull ∨ offset = 0 ∨ len = 0 then some (-1, [])
      else do
        let first ← image.head?
        return (0, readBlockStores first offset len)

/-! ## Runs of writes -/

/-- `eeprom_write`, over and over. -/
def eepromWrites (e : Eeprom) (writes : List (ℕ × UInt8)) : Option Eeprom :=
  writes.foldlM (fun e w ↦ (eepromWrite e w.1 w.2).map Prod.snd) e

/-- The image with all these bytes set. -/
def setAll (image : List UInt8) (writes : List (ℕ × UInt8)) : List UInt8 :=
  writes.foldl (fun image w ↦ image.set w.1 w.2) image

theorem length_setAll (image : List UInt8) (writes : List (ℕ × UInt8)) :
    (setAll image writes).length = image.length := by
  induction writes generalizing image with
  | nil => rfl
  | cons w writes ih => exact (ih _).trans List.length_set

theorem eepromWrite_mapped {fd : UInt32} {image : List UInt8} {offset : ℕ}
    (h : offset < image.length) (data : UInt8) :
    eepromWrite (.mapped fd image) offset data = some (0, .mapped fd (image.set offset data)) := by
  simp [eepromWrite, Eeprom.mapped, h]

theorem eepromWrites_mapped {fd : UInt32} {image : List UInt8} {writes : List (ℕ × UInt8)}
    (h : ∀ w ∈ writes, w.1 < image.length) :
    eepromWrites (.mapped fd image) writes = some (.mapped fd (setAll image writes)) := by
  induction writes generalizing image with
  | nil => rfl
  | cons w writes ih =>
    rw [List.forall_mem_cons] at h
    rw [eepromWrites, List.foldlM_cons, eepromWrite_mapped h.1]
    exact ih fun w hw ↦ List.length_set.symm ▸ h.2 w hw

/-! ## Blocks -/

/-- A buffer after stores to it. -/
def applyStores (buf : ℕ → UInt8) (stores : List (ℕ × UInt8)) : ℕ → UInt8 :=
  stores.foldl (fun buf s ↦ Function.update buf s.1 s.2) buf

theorem applyStores_range (buf : ℕ → UInt8) (value : ℕ → UInt8) (n i : ℕ) :
    applyStores buf ((List.range n).map fun myoff ↦ (myoff, value myoff)) i =
      if i < n then value i else buf i := by
  induction n with
  | zero => rfl
  | succ n ih =>
    rw [List.range_succ, List.map_append, applyStores, List.foldl_append, List.map_singleton,
      List.foldl_cons, List.foldl_nil, Function.update_apply, ← applyStores, ih]
    by_cases hin : i = n
    · simp [hin]
    · simp [hin, show i < n + 1 ↔ i < n by omega]

/-- What is in the buffer afterwards. -/
theorem applyStores_readBlock (buf : ℕ → UInt8) (first : UInt8) (offset len i : ℕ) :
    applyStores buf (readBlockStores first offset len) i =
      if i ≤ len then first + UInt8.ofNat (offset + i) else buf i := by
  rw [readBlockStores, applyStores_range]
  simp only [Nat.lt_succ_iff]

/-- The block is stored in the buffer, whatever was there, and no byte is written behind it. -/
def ReadsBlock (e : Eeprom) (offset len : ℕ) : Prop :=
  ∃ rc stores, eepromReadBlock e false offset len = some (rc, stores) ∧
    (∀ image, e.mmap = some image → ∀ buf, ∀ i < len,
      image[offset + i]? = some (applyStores buf stores i)) ∧
    ∀ s ∈ stores, s.1 < len

theorem eepromReadBlock_mapped (fd : UInt32) {image : List UInt8} {offset len : ℕ}
    (hoffset : 1 ≤ offset) (hlen : 1 ≤ len) (hfit : offset + len ≤ image.length) :
    ∃ first, image.head? = some first ∧ eepromReadBlock (.mapped fd image) false offset len =
      some (0, readBlockStores first offset len) := by
  obtain ⟨first, rest, rfl⟩ := List.exists_cons_of_length_pos (by omega : 0 < image.length)
  refine ⟨first, rfl, ?_⟩
  simp [eepromReadBlock, Eeprom.mapped, Nat.ne_of_gt hoffset, Nat.ne_of_gt hlen]

/-- **No block is read correctly**, after any writes. -/
theorem eepromReadBlock_overruns (fd : UInt32) {image : List UInt8} {writes : List (ℕ × UInt8)}
    (hwrites : ∀ w ∈ writes, w.1 < image.length) {offset len : ℕ} (hoffset : 1 ≤ offset)
    (hlen : 1 ≤ len) (hfit : offset + len ≤ image.length) :
    ∃ e, eepromWrites (.mapped fd image) writes = some e ∧ ¬ ReadsBlock e offset len := by
  refine ⟨_, eepromWrites_mapped hwrites, ?_⟩
  rintro ⟨rc, stores, hread, -, hinside⟩
  obtain ⟨first, -, hstores⟩ := eepromReadBlock_mapped fd hoffset hlen
    ((length_setAll image writes).symm ▸ hfit)
  rw [hstores, Option.some.injEq, Prod.mk.injEq] at hread
  have hbehind : (len, first + UInt8.ofNat (offset + len)) ∈ stores := by
    rw [← hread.2]
    exact List.mem_map.mpr ⟨len, List.mem_range.mpr len.lt_succ_self, rfl⟩
  exact Nat.lt_irrefl _ (hinside _ hbehind)

theorem eepromReadBlock_overruns_oneWrite :
    ∃ e, eepromWrites (.mapped 3 [0x10, 0x20, 0x30]) [(1, 0x40)] = some e ∧
      ¬ ReadsBlock e 1 1 :=
  eepromReadBlock_overruns 3 (by decide) (by decide) (by decide) (by decide)

/-- One byte is read: it is not the one in the image, and the byte behind it is written. -/
theorem not_readsBlock_oneByte : ¬ ReadsBlock (.mapped 3 [0x10, 0x20, 0x30]) 1 1 := by
  rintro ⟨rc, stores, hread, hblock, -⟩
  have hstores : stores = [(0, 0x11), (1, 0x12)] := by
    have hread' : some ((0 : UInt32), [((0 : ℕ), (0x11 : UInt8)), (1, 0x12)]) = some (rc, stores) :=
      hread
    simpa [eq_comm] using (Prod.mk.inj (Option.some.inj hread')).2
  have := hblock [0x10, 0x20, 0x30] rfl (fun _ ↦ 0) 0 (by decide)
  rw [hstores] at this
  exact absurd this (by decide)

end Rustyaxe
