import Mathlib.Data.List.Basic
import Mathlib.Data.List.TakeWhile

/-!
# Texts in UTF-8

`IsUtf8` says that a byte string is the UTF-8 encoding of some characters.  An ASCII byte is never
part of the encoding of another character, so a text may be taken apart there
(`isUtf8_append_cons`), and rewriting the ASCII bytes of a text by others does not matter
(`isUtf8_flatMap`).
-/

set_option autoImplicit false

namespace Utf8

/-- The encoding of some characters. -/
def IsUtf8 (s : List UInt8) : Prop := ∃ cs : List Char, s = cs.flatMap String.utf8EncodeChar

theorem isUtf8_nil : IsUtf8 [] := ⟨[], rfl⟩

theorem IsUtf8.append {s t : List UInt8} (hs : IsUtf8 s) (ht : IsUtf8 t) : IsUtf8 (s ++ t) := by
  obtain ⟨cs, rfl⟩ := hs
  obtain ⟨ds, rfl⟩ := ht
  exact ⟨cs ++ ds, List.flatMap_append.symm⟩

theorem isUtf8_encode (c : Char) : IsUtf8 (String.utf8EncodeChar c) := ⟨[c], by simp⟩

/-- A byte of a longer encoding. -/
theorem le_ofNat {n : ℕ} (h : 0x80 ≤ n) (h' : n < 0x100) : (0x80 : UInt8) ≤ UInt8.ofNat n := by
  rw [UInt8.le_iff_toNat_le, UInt8.toNat_ofNat_of_lt' h']
  exact h

/-- A character is encoded as one ASCII byte, or as several bytes none of which is ASCII. -/
theorem encode_cases (c : Char) : (∃ b < 0x80, String.utf8EncodeChar c = [b]) ∨
    2 ≤ (String.utf8EncodeChar c).length ∧ ∀ b ∈ String.utf8EncodeChar c, 0x80 ≤ b := by
  rw [String.utf8EncodeChar]
  generalize c.val.toNat = v
  split
  · next h =>
    refine .inl ⟨_, ?_, rfl⟩
    rw [UInt8.lt_iff_toNat_lt, UInt8.toNat_ofNat_of_lt' (Nat.lt_of_le_of_lt h (by decide))]
    exact Nat.lt_succ_of_le h
  · refine .inr ?_
    have hnil : ∀ b ∈ ([] : List UInt8), 0x80 ≤ b := fun _ h ↦ absurd h List.not_mem_nil
    split
    · simp only [List.forall_mem_cons, List.length_cons]
      exact ⟨by omega, le_ofNat (by omega) (by omega), le_ofNat (by omega) (by omega), hnil⟩
    · split <;> simp only [List.forall_mem_cons, List.length_cons]
      · exact ⟨by omega, le_ofNat (by omega) (by omega), le_ofNat (by omega) (by omega),
          le_ofNat (by omega) (by omega), hnil⟩
      · exact ⟨by omega, le_ofNat (by omega) (by omega), le_ofNat (by omega) (by omega),
          le_ofNat (by omega) (by omega), le_ofNat (by omega) (by omega), hnil⟩

theorem isUtf8_singleton {b : UInt8} (hb : b < 0x80) : IsUtf8 [b] := by
  have hlt := UInt8.lt_iff_toNat_lt.mp hb
  have h80 : (0x80 : UInt8).toNat = 128 := rfl
  have hvalid : b.toNat.isValidChar := .inl (by omega)
  refine ⟨[Char.ofNat b.toNat], ?_⟩
  have hval : (Char.ofNat b.toNat).val.toNat = b.toNat := by
    rw [Char.ofNat, dif_pos hvalid]
    rfl
  rw [List.flatMap_singleton, String.utf8EncodeChar, hval]
  rw [if_pos (by omega), UInt8.ofNat_toNat]

/-- A byte alone is a text only if it is ASCII. -/
theorem isUtf8_singleton_iff {b : UInt8} : IsUtf8 [b] ↔ b < 0x80 := by
  refine ⟨?_, isUtf8_singleton⟩
  rintro ⟨cs, hcs⟩
  cases cs with
  | nil => exact absurd hcs (by simp)
  | cons c cs =>
    rw [List.flatMap_cons] at hcs
    rcases encode_cases c with ⟨b', hb', henc⟩ | ⟨hlen, -⟩
    · rw [henc] at hcs
      exact (List.cons.inj hcs).1 ▸ hb'
    · have hlen' := congrArg List.length hcs
      rw [List.length_append, List.length_singleton] at hlen'
      omega

/-- **A text is taken apart at an ASCII byte.** -/
theorem isUtf8_append_cons {b : UInt8} (hb : b < 0x80) {s t : List UInt8} :
    IsUtf8 (s ++ b :: t) ↔ IsUtf8 s ∧ IsUtf8 t := by
  refine ⟨?_, fun ⟨hs, ht⟩ ↦ hs.append ((isUtf8_singleton hb).append ht)⟩
  rintro ⟨cs, hcs⟩
  induction cs generalizing s with
  | nil => exact absurd hcs (by simp)
  | cons c cs ih =>
    rw [List.flatMap_cons, List.append_eq_append_iff] at hcs
    rcases hcs with ⟨e, he, hrest⟩ | ⟨s', rfl, hrest⟩
    · cases e with
      | nil =>
        obtain ⟨-, ht⟩ := ih (s := []) hrest
        rw [List.append_nil] at he
        exact ⟨he ▸ isUtf8_encode c, ht⟩
      | cons b' e =>
        obtain ⟨rfl, rfl⟩ := List.cons.inj hrest
        rcases encode_cases c with ⟨b', -, hb'⟩ | ⟨-, hge⟩
        · rw [hb'] at he
          have hnil : s = [] ∧ e = [] := by
            have hlen := congrArg List.length he
            simp only [List.length_append, List.length_cons, List.length_nil] at hlen
            exact ⟨List.eq_nil_of_length_eq_zero (by omega),
              List.eq_nil_of_length_eq_zero (by omega)⟩
          rw [hnil.1, hnil.2]
          exact ⟨isUtf8_nil, cs, rfl⟩
        · exact absurd hb (UInt8.not_lt.mpr (hge b (he ▸ by simp)))
    · obtain ⟨hs, ht⟩ := ih hrest.symm
      exact ⟨(isUtf8_encode c).append hs, ht⟩

theorem isUtf8_cons {b : UInt8} (hb : b < 0x80) {t : List UInt8} :
    IsUtf8 (b :: t) ↔ IsUtf8 t := by
  rw [← List.nil_append (b :: t), isUtf8_append_cons hb]
  exact and_iff_right isUtf8_nil

/-- ASCII bytes in front of a text. -/
theorem isUtf8_ascii_append {w : List UInt8} (hw : ∀ b ∈ w, b < 0x80) {t : List UInt8} :
    IsUtf8 (w ++ t) ↔ IsUtf8 t := by
  induction w with
  | nil => rfl
  | cons b w ih =>
    rw [List.forall_mem_cons] at hw
    rw [List.cons_append, isUtf8_cons hw.1, ih hw.2]

theorem isUtf8_of_ascii {w : List UInt8} (hw : ∀ b ∈ w, b < 0x80) : IsUtf8 w := by
  rw [← List.append_nil w, isUtf8_ascii_append hw]
  exact isUtf8_nil

/-- ASCII bytes in the middle of a text. -/
theorem isUtf8_append_ascii_append {w : List UInt8} (hne : w ≠ []) (hw : ∀ b ∈ w, b < 0x80)
    {s t : List UInt8} : IsUtf8 (s ++ (w ++ t)) ↔ IsUtf8 s ∧ IsUtf8 t := by
  obtain ⟨b, w, rfl⟩ := List.exists_cons_of_ne_nil hne
  rw [List.forall_mem_cons] at hw
  rw [List.cons_append, isUtf8_append_cons hw.1, isUtf8_ascii_append hw.2]

/-- **Rewriting the ASCII bytes of a text.** -/
theorem isUtf8_flatMap {f : UInt8 → List UInt8} (hother : ∀ b, 0x80 ≤ b → f b = [b])
    (hne : ∀ b, f b ≠ []) (hascii : ∀ b < 0x80, ∀ x ∈ f b, x < 0x80) (s : List UInt8) :
    IsUtf8 (s.flatMap f) ↔ IsUtf8 s := by
  induction hn : s.length using Nat.strong_induction_on generalizing s with
  | _ n ih =>
    subst hn
    have hs := List.takeWhile_append_dropWhile (p := fun b : UInt8 ↦ 0x80 ≤ b) (l := s)
    have hother' : (s.takeWhile fun b ↦ 0x80 ≤ b).flatMap f = s.takeWhile fun b ↦ 0x80 ≤ b := by
      have hmap : (s.takeWhile fun b ↦ 0x80 ≤ b).flatMap f
          = (s.takeWhile fun b ↦ 0x80 ≤ b).flatMap fun b ↦ [b] :=
        List.flatMap_congr fun b hb ↦ hother b (by simpa using List.mem_takeWhile_imp hb)
      rw [hmap, List.flatMap_singleton']
    have hhead := List.head?_dropWhile_not (fun b : UInt8 ↦ decide (0x80 ≤ b)) s
    cases hrest : s.dropWhile fun b ↦ 0x80 ≤ b with
    | nil =>
      rw [hrest, List.append_nil] at hs
      rw [hs] at hother'
      rw [hother']
    | cons b t =>
      rw [hrest] at hs hhead
      have hb : b < 0x80 := by simpa using hhead
      have hlen : t.length < s.length := by
        rw [← hs, List.length_append, List.length_cons]
        omega
      rw [← hs, List.flatMap_append, List.flatMap_cons, hother',
        isUtf8_append_ascii_append (hne b) (hascii b hb), isUtf8_append_cons hb, ih _ hlen t rfl]

end Utf8
