import Rustyaxe.Tui.LineEditor

/-!
# The input line stays in its buffer

What a key does to the input line leaves a line there, with three exceptions.  A character whose
low byte is NUL is stored as the end of the line (`InsertsNul`); a completion looks for room for the
new word but not for the text behind it (`CompletesPast`); and a line with many control characters
is wider, when it is drawn, than the buffer that it is drawn in (`TooWide`).  A run of keys that
meets none of them is safe, and where the line is drawn there is no other safe run
(`inputLine_safe`).

The parts of `stdin_ev_cb` say whether they have handled the key; a part that has not leaves the
line alone (`Handles`), and the next one looks at it.
-/

set_option autoImplicit false

namespace Rustyaxe

open TextBuffer Runs

variable {κ : Type}

/-- A part of `stdin_ev_cb` returns with a line, and leaves it alone if it has not handled the
key. -/
def Handles (st : InputState κ) (r : Option (Bool × InputState κ)) : Prop :=
  ∃ handled st', r = some (handled, st') ∧ IsLine st' ∧ (handled = false → st' = st)

theorem handles_of_isLine {st st' : InputState κ} (h : IsLine st') :
    Handles st (some (true, st')) := ⟨true, st', rfl, h, fun h ↦ nomatch h⟩

theorem handles_self {st : InputState κ} (h : IsLine st) (handled : Bool) :
    Handles st (some (handled, st)) := ⟨handled, st, rfl, h, fun _ ↦ rfl⟩

theorem handles_of_some {st : InputState κ} {r : Option (InputState κ)}
    (h : ∃ st', r = some st' ∧ IsLine st') : Handles st (do return (true, ← r)) := by
  obtain ⟨st', rfl, hline⟩ := h
  exact handles_of_isLine hline

/-- An edit that leaves a part of a text that can be drawn. -/
theorem handles_of_part {st : InputState κ} {text : CStr} (hwidth : lineWidth text < drawBufsize)
    {r : Option (InputState κ)} (h : ∃ st', r = some st' ∧ ShowsPart st' text) :
    Handles st (do return (true, ← r)) := by
  obtain ⟨st', hr, hpart⟩ := h
  exact handles_of_some ⟨st', hr, hpart.isLine hwidth⟩

/-- A part that does one thing or another. -/
theorem handles_ite {c : Prop} [Decidable c] {st : InputState κ}
    {r r' : Option (Bool × InputState κ)} (hr : c → Handles st r) (hr' : ¬c → Handles st r') :
    Handles st (if c then r else r') := by
  by_cases hc : c
  · rw [if_pos hc]
    exact hr hc
  · rw [if_neg hc]
    exact hr' hc

/-- The next part looks at a key that none has handled yet. -/
theorem handles_nextPart {st st' : InputState κ} {handled : Bool} (hline : IsLine st')
    (hsame : handled = false → st' = st) (part : InputState κ → Option (Bool × InputState κ))
    (hpart : handled = false → Handles st (part st)) :
    Handles st (nextPart part (handled, st')) := by
  cases handled with
  | false =>
    rw [hsame rfl]
    exact hpart rfl
  | true => exact handles_of_isLine hline

/-- A line that has been cleared. -/
theorem isLine_cleared {buf : List UInt8} (hbuf : HoldsText 0 tuiInputlen buf [])
    (history : κ → InputHistory) : IsLine ⟨buf, 0, 0, history⟩ :=
  ⟨[], ⟨hbuf, rfl, Int.le_refl 0, Int.le_refl 0⟩, by decide⟩

/-! ## The bytes that are inserted -/

/-- The codes that edit the line, or move in it, with Ctrl. -/
def ctrlEdits : List ℤ :=
  [0x41, 0x61, 0x01, 0x45, 0x65, 0x05, 0x55, 0x75, 0x57, 0x77, 0x17, 0x44, 0x64, 0x04, 0x4b, 0x6b,
    0x0b, 0x08]

/-- The byte that the key inserts: a control character, or the low byte of a character that does not
edit the line. -/
def insertedByte (key : Key) : Option UInt8 :=
  match if key.ctrl then ctrlInsert key.c else none, key.code with
  | some insert, _ => some insert
  | none, .unicode _ =>
    if 0x20 ≤ key.c ∧ key.c ≠ 0x7f ∧ ¬(key.ctrl ∧ key.c ∈ ctrlEdits) ∧
        ¬(key.alt ∧ 0x30 ≤ key.c ∧ key.c ≤ 0x39) then some (toChar key.c)
    else none
  | none, _ => none

theorem ctrlInsert_cases {c : ℤ} {insert : UInt8} (h : ctrlInsert c = some insert) :
    insert ≠ 0 ∧ 0x42 ≤ c ∧ c ≠ 0x7f ∧ c ∉ ctrlEdits := by
  rw [ctrlInsert] at h
  rw [ctrlEdits]
  split_ifs at h <;> cases h <;> simp only [List.mem_cons, List.not_mem_nil, or_false] <;>
    refine ⟨by decide, ?_⟩ <;> omega

/-- A control character is inserted. -/
theorem insertedByte_of_ctrlInsert {key : Key} {insert : UInt8} (hctrl : key.ctrl)
    (h : ctrlInsert key.c = some insert) : insertedByte key = some insert := by
  rw [insertedByte, if_pos hctrl, h]

/-- The conversion to `int` keeps the low byte. -/
theorem toInt_emod (n : ℕ) : toInt n % 256 = (n % 256 : ℕ) := by
  have hdvd : (256 : ℤ) ∣ (0x100000000 : ℕ) := by omega
  have hbmod := Int.emod_emod_of_dvd (Int.bmod n 0x100000000) hdvd
  rw [Int.bmod_emod, Int.emod_emod_of_dvd _ hdvd] at hbmod
  exact hbmod.symm

theorem toChar_toInt_eq_zero_iff (n : ℕ) : toChar (toInt n) = 0 ↔ n % 256 = 0 := by
  have hzero : (0 : UInt8).toNat = 0 := rfl
  rw [toChar, toInt_emod, Int.toNat_natCast, ← UInt8.toNat_inj, UInt8.toNat_ofNat', hzero]
  omega

/-- **A NUL is inserted** by the characters whose low byte is one. -/
theorem insertedByte_eq_zero_iff (key : Key) : insertedByte key = some 0 ↔
    ∃ codepoint, key.code = .unicode codepoint ∧ 0x20 ≤ toInt codepoint ∧ codepoint % 256 = 0 := by
  constructor
  · intro h
    rw [insertedByte] at h
    split at h
    · next insert _ hinsert =>
      obtain rfl := Option.some.inj h
      split at hinsert
      · exact absurd rfl (ctrlInsert_cases hinsert).1
      · cases hinsert
    · next codepoint _ hcode =>
      have hc : key.c = toInt codepoint := by rw [Key.c, hcode]
      split at h
      · next hprint =>
        have hzero := Option.some.inj h
        rw [hc, toChar_toInt_eq_zero_iff] at hzero
        exact ⟨codepoint, hcode, hc ▸ hprint.1, hzero⟩
      · cases h
    · cases h
  · rintro ⟨codepoint, hcode, hprint, hzero⟩
    have hc : key.c = toInt codepoint := by rw [Key.c, hcode]
    have hlow : key.c % 256 = 0 := by rw [hc, toInt_emod, hzero]; rfl
    have hinsert : ctrlInsert key.c = none := by
      cases h : ctrlInsert key.c with
      | none => rfl
      | some insert =>
        rw [ctrlInsert] at h
        split_ifs at h <;> omega
    have hedits : key.c ∉ ctrlEdits := by
      rw [ctrlEdits]
      simp only [List.mem_cons, List.not_mem_nil, or_false]
      omega
    rw [insertedByte, hinsert, ite_self, hcode]
    dsimp only
    rw [← hc] at hprint
    rw [if_pos ⟨hprint, by omega, fun h ↦ hedits h.2, by omega⟩, hc,
      (toChar_toInt_eq_zero_iff codepoint).mpr hzero]

/-! ## The controls -/

/-- **Line editing with Ctrl keeps a line a line**, unless the line gets too wide. -/
theorem handles_ctrlKey {st : InputState κ} {text : CStr} (h : ShowsText st text)
    (hwidth : lineWidth text < drawBufsize) (c : ℤ)
    (hnarrow : ∀ insert, ctrlInsert c = some insert → st.inputLen < tuiInputlen - 1 →
      lineWidth text + charWidth insert < drawBufsize) : Handles st (ctrlKey c st) := by
  rw [ctrlKey]
  refine handles_ite (fun _ ↦ handles_of_isLine (h.home.isLine hwidth)) fun _ ↦ ?_
  refine handles_ite (fun _ ↦ handles_of_isLine (h.toEnd.isLine hwidth)) fun _ ↦ ?_
  refine handles_ite (fun _ ↦ handles_of_part hwidth h.killLine) fun _ ↦ ?_
  refine handles_ite (fun _ ↦ handles_of_part hwidth h.deleteWord) fun _ ↦ ?_
  refine handles_ite (fun _ ↦ handles_of_part hwidth h.deleteForward) fun _ ↦ ?_
  refine handles_ite (fun _ ↦ handles_of_part hwidth h.killToEnd) fun _ ↦ ?_
  refine handles_ite (fun _ ↦ handles_of_part hwidth h.deleteBack) fun _ ↦ ?_
  cases hinsert : ctrlInsert c with
  | none => exact handles_self ⟨text, h, hwidth⟩ false
  | some insert =>
    refine handles_ite (fun hroom ↦ ?_) fun _ ↦ handles_self ⟨text, h, hwidth⟩ false
    obtain ⟨st', hst', -, -, -, hline⟩ := h.insertByte hroom insert
    obtain ⟨text', h', hwidth'⟩ := hline (ctrlInsert_cases hinsert).1
    exact handles_of_some ⟨st', hst', text', h', hwidth' ▸ hnarrow insert hinsert hroom⟩

/-- A key that Ctrl does not handle is none of those that edit, and inserts nothing. -/
theorem ctrlKey_unhandled {c : ℤ} {st st' : InputState κ} (h : ctrlKey c st = some (false, st')) :
    c ∉ ctrlEdits ∧ (st.inputLen < tuiInputlen - 1 → ctrlInsert c = none) := by
  have hhandled : ∀ r : Option (InputState κ), (do return (true, ← r)) ≠ some (false, st') := by
    intro r hr
    cases r with
    | none => cases hr
    | some st'' => cases hr
  rw [ctrlKey] at h
  rw [ctrlEdits]
  simp only [List.mem_cons, List.not_mem_nil, or_false]
  split_ifs at h with h1 h2 h3 h4 h5 h6 h7 hroom
  · cases h
  · cases h
  · exact (hhandled _ h).elim
  · exact (hhandled _ h).elim
  · exact (hhandled _ h).elim
  · exact (hhandled _ h).elim
  · exact (hhandled _ h).elim
  · refine ⟨by omega, fun _ ↦ ?_⟩
    cases hinsert : ctrlInsert c with
    | none => rfl
    | some insert =>
      rw [hinsert] at h
      exact (hhandled _ h).elim
  · exact ⟨by omega, fun hroom' ↦ (hroom hroom').elim⟩

/-- A control character is inserted at the cursor. -/
theorem ctrlKey_of_ctrlInsert {c : ℤ} {insert : UInt8} (h : ctrlInsert c = some insert)
    {st : InputState κ} (hroom : st.inputLen < tuiInputlen - 1) :
    ctrlKey c st = (st.insertByte insert).map (true, ·) := by
  have hedits := (ctrlInsert_cases h).2.2.2
  rw [ctrlEdits] at hedits
  simp only [List.mem_cons, List.not_mem_nil, or_false, not_or] at hedits
  rw [ctrlKey, if_neg (by omega), if_neg (by omega), if_neg (by omega), if_neg (by omega),
    if_neg (by omega), if_neg (by omega), if_neg (by omega), h]
  dsimp only
  rw [if_pos hroom]
  exact Option.map_eq_bind.symm

theorem ctrlKey_of_not_mem {c : ℤ} (hedits : c ∉ ctrlEdits) (h : ctrlInsert c = none)
    (st : InputState κ) : ctrlKey c st = some (false, st) := by
  rw [ctrlEdits] at hedits
  simp only [List.mem_cons, List.not_mem_nil, or_false, not_or] at hedits
  rw [ctrlKey, if_neg (by omega), if_neg (by omega), if_neg (by omega), if_neg (by omega),
    if_neg (by omega), if_neg (by omega), if_neg (by omega), h]

section Keys

variable (w : KeyWorld κ)

/-! ## Completion -/

theorem commonLength_le : ∀ s t : CStr, commonLength s t ≤ s.length
  | [], _ => Nat.le_refl 0
  | _ :: _, [] => Nat.zero_le _
  | a :: s, b :: t => by
    rw [commonLength]
    split
    · exact Nat.succ_le_succ (commonLength_le s t)
    · exact Nat.zero_le _

theorem prefixLength_le (first : CString) (rest : List CString) :
    prefixLength first rest ≤ first.1.length := by
  have hfold : ∀ (rest : List CString) (plen : ℕ), plen ≤ first.1.length →
      rest.foldl (fun plen m ↦ commonLength (first.1.take plen) m.1) plen ≤ first.1.length := by
    intro rest
    induction rest with
    | nil => exact fun _ h ↦ h
    | cons m rest ih =>
      intro plen _
      exact ih _ (Nat.le_trans (commonLength_le _ _) (List.length_take_le' _ _))
  exact hfold rest _ (Nat.le_refl _)

/-- What takes the place of the word: the match and a space, or what all matches start with. -/
def replacement (first : CString) (rest : List CString) : CStr :=
  if rest = [] then first.1.take (replacementLength first rest - 1) ++ [space]
  else first.1.take (replacementLength first rest)

theorem exists_replacementLength (first : CString) : ∃ n, replacementLength first [] = n + 1 ∧
    n ≤ first.1.length := by
  have hle := prefixLength_le first []
  have h512 : tuiInputlen = 512 := rfl
  by_cases hroom : prefixLength first [] < tuiInputlen - 1
  · exact ⟨_, if_pos ⟨rfl, hroom⟩, hle⟩
  · refine ⟨prefixLength first [] - 1, ?_, by omega⟩
    rw [replacementLength, if_neg fun h ↦ hroom h.2]
    omega

theorem length_replacement (first : CString) (rest : List CString) :
    (replacement first rest).length = replacementLength first rest := by
  have hle := prefixLength_le first rest
  rw [replacement]
  split
  · next hrest =>
    obtain ⟨n, hn, hnle⟩ := exists_replacementLength first
    rw [hrest, hn, Nat.add_sub_cancel, List.length_append, List.length_take, List.length_singleton]
    omega
  · next hrest =>
    rw [replacementLength, if_neg fun h ↦ hrest h.1, List.length_take]
    omega

theorem zero_notMem_replacement (first : CString) (rest : List CString) :
    (0 : UInt8) ∉ replacement first rest := by
  rw [replacement]
  split
  · exact fun hmem ↦ (List.mem_append.mp hmem).elim (fun h ↦ first.2 (List.mem_of_mem_take h))
      (by decide)
  · exact fun hmem ↦ first.2 (List.mem_of_mem_take hmem)

/-- The word and the space behind it fill the gap that has been made for them. -/
theorem fillGap (pre post : List UInt8) {gap : List UInt8} {first : CString} {rest : List CString}
    {start : ℤ} (hgap : gap.length = replacementLength first rest) (hstart : start = pre.length) :
    ∃ buf, memcpy (pre ++ gap ++ post) start (first.1.take (if rest = [] then
        replacementLength first rest - 1 else replacementLength first rest)) = some buf ∧
      (if rest = [] then store buf (start + replacementLength first rest - 1) space else some buf)
        = some (pre ++ replacement first rest ++ post) := by
  by_cases hrest : rest = []
  · obtain ⟨n, hn, hnle⟩ := exists_replacementLength first
    simp only [replacement, if_pos hrest]
    subst hrest
    rw [hn] at hgap ⊢
    rw [Nat.add_sub_cancel]
    obtain ⟨g, x, rfl⟩ : ∃ g x, gap = g ++ [x] :=
      (List.eq_nil_or_concat' gap).resolve_left fun h ↦ by simp [h] at hgap
    have hg : (first.1.take n).length = g.length := by
      rw [List.length_append, List.length_singleton] at hgap
      rw [List.length_take]
      omega
    refine ⟨pre ++ first.1.take n ++ ([x] ++ post), ?_, ?_⟩
    · have hput := memcpy_append pre g ([x] ++ post) (first.1.take n) hg hstart
      simpa only [List.append_assoc] using hput
    · have hspace := store_append (pre ++ first.1.take n) post x space
        (i := start + (n + 1 : ℕ) - 1) (by
          rw [List.length_append, List.length_take]
          omega)
      simpa only [List.append_assoc] using hspace
  · have hlen := length_replacement first rest
    simp only [replacement, if_neg hrest] at hlen ⊢
    exact ⟨_, memcpy_append pre gap post _ (hlen.trans hgap.symm) hstart, rfl⟩

theorem replaceWord_eq (st : InputState κ) (start : ℤ) (first : CString) (rest : List CString) :
    replaceWord st start first rest =
      (memmove st.inputBuf (start + replacementLength first rest) st.cursorPos
        (st.inputLen - st.cursorPos + 1)).bind fun buf ↦
      (memcpy buf start (first.1.take (if rest = [] then
        replacementLength first rest - 1 else replacementLength first rest))).bind fun buf ↦
      (if rest = [] then store buf (start + replacementLength first rest - 1) space
        else some buf).bind fun buf ↦ some { st with
          inputBuf := buf
          inputLen := st.inputLen + (replacementLength first rest - (st.cursorPos - start))
          cursorPos := start + replacementLength first rest } := by
  rw [replaceWord]
  by_cases hrest : rest = []
  · simp only [if_pos hrest]
    rfl
  · simp only [if_neg hrest]
    rfl

/-- **A replacement that fits keeps a line a line.** -/
theorem replaceWord_spec {st : InputState κ} {text : CStr} (h : ShowsText st text) {start : ℤ}
    (h0 : 0 ≤ start) (hle : start ≤ st.cursorPos) (first : CString) (rest : List CString)
    (hfits : start + replacementLength first rest + (st.inputLen - st.cursorPos) < tuiInputlen) :
    ∃ st', replaceWord st start first rest = some st' ∧ ShowsText st'
      (text.take start.toNat ++ replacement first rest ++ text.drop st.cursorPos.toNat) := by
  obtain ⟨j, hj, hjle⟩ := h.exists_cursor
  obtain ⟨i, rfl⟩ := Int.eq_ofNat_of_zero_le h0
  have hlen := h.inputLen_eq
  have hn : st.inputLen - st.cursorPos + 1 = (text.length : ℤ) - j + 1 := by rw [hlen, hj]
  obtain ⟨gap, tail, hgap, hmove, hsize⟩ := h.holds.openGap (i := i) (j := j)
    (k := replacementLength first rest) (by omega) hjle rfl hn (by omega)
  have hpre : (text.take i).length = i := by
    rw [List.length_take]
    omega
  have hnew := length_replacement first rest
  obtain ⟨buf, hput, hspace⟩ := fillGap (text.take i) (text.drop j ++ 0 :: tail) hgap
    (show (i : ℤ) = _ by rw [hpre])
  rw [← hj] at hmove
  rw [replaceWord_eq, hmove, Option.bind_some, hput, Option.bind_some, hspace]
  rw [Int.toNat_natCast, show st.cursorPos.toNat = j by omega]
  refine ⟨_, rfl, holdsText_of_pieces ?_ ?_ (zero_notMem_replacement first rest) ?_, ?_, ?_, ?_⟩
  · simp only [List.length_append] at hsize ⊢
    omega
  · exact fun hmem ↦ h.holds.no_nul (List.mem_of_mem_take hmem)
  · exact fun hmem ↦ h.holds.no_nul (List.mem_of_mem_drop hmem)
  · simp only [List.length_append, List.length_drop, hpre, hnew]
    omega
  · dsimp only
    omega
  · dsimp only
    omega

/-- **A replacement that does not fit** moves the end of the line out of the buffer. -/
theorem replaceWord_eq_none {st : InputState κ} {text : CStr} (h : ShowsText st text) {start : ℤ}
    {first : CString} {rest : List CString} (hpast : (tuiInputlen : ℤ) ≤
      start + replacementLength first rest + (st.inputLen - st.cursorPos)) :
    replaceWord st start first rest = none := by
  have hsize := h.holds.length_eq
  rw [replaceWord_eq, memmove_eq_none (by omega), Option.bind_none]

theorem ShowsText.completionMatches_spec {st : InputState κ} {text : CStr} (h : ShowsText st text) :
    ∃ start word found, completionMatches w st = some (start, word, found) ∧
      0 ≤ start ∧ start ≤ st.cursorPos := by
  have h0 := h.cursorPos_nonneg
  have hcursor := Int.le_trans h.cursorPos_le h.length_le
  obtain ⟨start, hscan, hstart, hle⟩ := scanBack_spec (· != space) h0 hcursor
  obtain ⟨word, hword⟩ : ∃ word, slice st.inputBuf start (st.cursorPos - start) = some word :=
    ⟨_, if_pos ⟨hstart, by omega, by omega⟩⟩
  obtain ⟨line, hline⟩ : ∃ line, slice st.inputBuf 0 st.cursorPos = some line :=
    ⟨_, if_pos ⟨Int.le_refl 0, h0, by omega⟩⟩
  refine ⟨start, word, completionCollect w line word, ?_, hstart, hle⟩
  rw [completionMatches, hscan, Option.bind_eq_bind, Option.bind_some, hword, hline]
  rfl

/-- A completion would replace the word before the cursor, and there is room for the new word, but
not for what stands behind the cursor. -/
def CompletionOverflows (st : InputState κ) : Prop :=
  ¬w.completionHandler ∧ st.cursorPos ≠ 0 ∧ ∃ start word first rest,
    completionMatches w st = some (start, word, first :: rest) ∧
    (rest = [] ∨ word.length < prefixLength first rest) ∧
    start + replacementLength first rest < tuiInputlen ∧
    tuiInputlen ≤ start + replacementLength first rest + (st.inputLen - st.cursorPos)

/-- A completion would replace the word before the cursor, and the line would be too wide then. -/
def CompletionWidens (st : InputState κ) : Prop :=
  ¬w.completionHandler ∧ st.cursorPos ≠ 0 ∧ ∃ start word first rest,
    completionMatches w st = some (start, word, first :: rest) ∧
    (rest = [] ∨ word.length < prefixLength first rest) ∧
    start + replacementLength first rest < tuiInputlen ∧
    drawBufsize ≤ lineWidth
      (st.text.take start.toNat ++ replacement first rest ++ st.text.drop st.cursorPos.toNat)

/-- **A completion keeps a line a line**, unless it moves the end out of the buffer or widens the
line too much. -/
theorem handles_tuiDoCompletion {st : InputState κ} {text : CStr} (h : ShowsText st text)
    (hwidth : lineWidth text < drawBufsize) (hroom : ¬CompletionOverflows w st)
    (hnarrow : ¬CompletionWidens w st) : Handles st (tuiDoCompletion w st) := by
  obtain ⟨start, word, found, hfound, h0, hle⟩ := h.completionMatches_spec w
  rw [tuiDoCompletion]
  split_ifs with hhandler hcursor
  · exact handles_self ⟨text, h, hwidth⟩ true
  · exact handles_self ⟨text, h, hwidth⟩ false
  rw [hfound, Option.bind_eq_bind, Option.bind_some]
  cases found with
  | nil => exact handles_self ⟨text, h, hwidth⟩ false
  | cons first rest =>
    dsimp only
    split_ifs with hmatch hword
    · obtain ⟨st', hst', h'⟩ := replaceWord_spec h h0 hle first rest (by
        by_contra hpast
        exact hroom ⟨hhandler, hcursor, start, word, first, rest, hfound, hmatch, hword, by omega⟩)
      refine handles_of_some ⟨st', hst', _, h', ?_⟩
      by_contra hwide
      rw [← h.text_eq] at hwide
      exact hnarrow ⟨hhandler, hcursor, start, word, first, rest, hfound, hmatch, hword,
        Nat.le_of_not_lt hwide⟩
    · exact handles_self ⟨text, h, hwidth⟩ false
    · exact handles_self ⟨text, h, hwidth⟩ false

/-- A completion that widens the line too much, if there is room for it. -/
theorem tuiDoCompletion_of_widens {st : InputState κ} {text : CStr} (h : ShowsText st text)
    (hroom : ¬CompletionOverflows w st) (hwide : CompletionWidens w st) :
    ∃ st' text', tuiDoCompletion w st = some (true, st') ∧ ShowsText st' text' ∧
      drawBufsize ≤ lineWidth text' := by
  obtain ⟨hhandler, hcursor, start, word, first, rest, hfound, hmatch, hword, hwide⟩ := hwide
  obtain ⟨start', word', found', hfound', h0, hle⟩ := h.completionMatches_spec w
  obtain ⟨rfl, rfl, rfl⟩ : start' = start ∧ word' = word ∧ found' = first :: rest := by
    simpa using hfound'.symm.trans hfound
  obtain ⟨st', hst', h'⟩ := replaceWord_spec h h0 hle first rest (by
    by_contra hpast
    exact hroom ⟨hhandler, hcursor, _, _, first, rest, hfound, hmatch, hword, by omega⟩)
  rw [h.text_eq] at hwide
  refine ⟨st', _, ?_, h', hwide⟩
  rw [tuiDoCompletion, if_neg hhandler, if_neg hcursor, hfound, Option.bind_eq_bind,
    Option.bind_some]
  dsimp only
  rw [if_pos hmatch, if_pos hword, hst']
  rfl

theorem tuiDoCompletion_eq_none {st : InputState κ} {text : CStr} (h : ShowsText st text)
    (hpast : CompletionOverflows w st) : tuiDoCompletion w st = none := by
  obtain ⟨hhandler, hcursor, start, word, first, rest, hfound, hmatch, hword, htail⟩ := hpast
  rw [tuiDoCompletion, if_neg hhandler, if_neg hcursor, hfound, Option.bind_eq_bind,
    Option.bind_some]
  dsimp only
  rw [if_pos hmatch, if_pos hword, replaceWord_eq_none h htail]
  rfl

/-! ## Insertion, and Alt -/

/-- **An insertion keeps a line a line**, unless it stores a NUL or widens the line too much. -/
theorem handles_insertKey {st : InputState κ} {text : CStr} (h : ShowsText st text)
    (hwidth : lineWidth text < drawBufsize) {key : Key}
    (hbyte : ∀ codepoint, key.code = .unicode codepoint → 0x20 ≤ key.c →
      st.inputLen < tuiInputlen - 1 →
        toChar key.c ≠ 0 ∧ lineWidth text + charWidth (toChar key.c) < drawBufsize) :
    Handles st (insertKey key st) := by
  have hself : ∀ handled, Handles st (some (handled, st)) := handles_self ⟨text, h, hwidth⟩
  rw [insertKey]
  cases hcode : key.code with
  | unicode codepoint =>
    dsimp only
    split_ifs with hprint hroom
    · obtain ⟨st', hst', -, -, -, hline⟩ := h.insertByte hroom (toChar key.c)
      obtain ⟨hne, hnarrow⟩ := hbyte codepoint hcode hprint hroom
      obtain ⟨text', h', hwidth'⟩ := hline hne
      exact handles_of_some ⟨st', hst', text', h', hwidth' ▸ hnarrow⟩
    · exact hself true
    · exact hself false
  | keysym _ => exact hself false
  | mouse => exact hself false
  | other => exact hself false

/-- A letter with Alt leaves the line alone.  If it is not handled, it is none of `window_keys`. -/
theorem altLetter_spec {st : InputState κ} {text : CStr} (h : ShowsText st text)
    (hwidth : lineWidth text < drawBufsize) (key : Key) (handled : Bool) :
    ∃ handled', altLetter w key handled st = some (handled', st) ∧
      (handled' = false → handled = false ∧ ∀ codepoint, key.code = .unicode codepoint → key.alt →
        toChar (toInt codepoint) ∉ windowKeys ++ [0]) := by
  rw [altLetter]
  cases hcode : key.code with
  | unicode codepoint =>
    dsimp only
    split_ifs with hletter
    · rw [h.tuiUpdateInputLine_eq w hwidth]
      exact ⟨true, rfl, fun h ↦ nomatch h⟩
    · refine ⟨handled, rfl, fun hhandled ↦ ⟨hhandled, fun codepoint' hcode' halt hmem ↦ ?_⟩⟩
      obtain rfl := KeyCode.unicode.inj hcode'
      exact hletter (by simp [hhandled, halt, hmem])
  | keysym sym => exact ⟨handled, rfl, fun hhandled ↦ ⟨hhandled, fun _ h ↦ nomatch h⟩⟩
  | mouse => exact ⟨handled, rfl, fun hhandled ↦ ⟨hhandled, fun _ h ↦ nomatch h⟩⟩
  | other => exact ⟨handled, rfl, fun hhandled ↦ ⟨hhandled, fun _ h ↦ nomatch h⟩⟩

/-! ## Enter, and the history -/

variable [DecidableEq κ]

/-- Enter leaves a text in the buffer.  The cursor may be behind it, until the line is drawn. -/
theorem handleEnterKey_spec {st : InputState κ} {text : CStr} (h : ShowsText st text)
    (hwidth : lineWidth text < drawBufsize) :
    ∃ st' text', handleEnterKey w st = some st' ∧ HoldsText 0 tuiInputlen st'.inputBuf text' := by
  obtain ⟨buf, hstore, hbuf⟩ := h.holds.truncate (Nat.le_refl _)
  obtain ⟨buf', hstore', hbuf'⟩ := hbuf.truncate (Nat.zero_le _)
  rw [List.take_length] at hbuf
  rw [← h.inputLen_eq] at hstore
  rw [Int.natCast_zero] at hstore'
  have hline : ShowsText { st with inputBuf := buf } text :=
    ⟨hbuf, h.inputLen_eq, h.cursorPos_nonneg, h.cursorPos_le⟩
  rw [handleEnterKey, hstore, Option.bind_eq_bind, Option.bind_some]
  dsimp only
  split_ifs
  · exact ⟨_, _, hline.tuiUpdateInputLine_eq w hwidth, hbuf⟩
  · rw [hstore', Option.bind_some]
    obtain ⟨st', hst', hsame⟩ := tuiUpdateInputLine_empty w { st with
      inputBuf := buf', inputLen := 0
      history := Function.update st.history w.activeHistory
        ((st.history w.activeHistory).add w.strndup (buf.takeWhile (· ≠ 0))) } rfl
    exact ⟨st', _, hst', by rw [hsame]; exact hbuf'⟩
  · exact ⟨_, _, hline.tuiUpdateInputLine_eq w hwidth, hbuf⟩

theorem recallLine_spec {st : InputState κ} {text : CStr} (h : ShowsText st text)
    (r : Option HistoryLine × InputHistory) {len : HistoryLine → List UInt8 → ℕ}
    (hlen : ∀ line buf, HoldsText 0 tuiInputlen buf line.1 → len line buf = line.1.length) :
    ∃ st', recallLine w st r len = some st' ∧
      ShowsText st' ((r.1.map Subtype.val).getD text) := by
  have h' : ShowsText { st with history := Function.update st.history w.activeHistory r.2 } text :=
    ⟨h.holds, h.inputLen_eq, h.cursorPos_nonneg, h.cursorPos_le⟩
  rw [recallLine]
  cases r.1 with
  | none => exact ⟨_, rfl, h'⟩
  | some line => exact h'.putLine line (hlen line)

/-- A line of the history is recalled, unless it is too wide. -/
theorem handles_recallLine {st : InputState κ} {text : CStr} (h : ShowsText st text)
    (hwidth : lineWidth text < drawBufsize) (r : Option HistoryLine × InputHistory)
    {len : HistoryLine → List UInt8 → ℕ}
    (hlen : ∀ line buf, HoldsText 0 tuiInputlen buf line.1 → len line buf = line.1.length)
    (hnarrow : ∀ line, r.1 = some line → lineWidth line.1 < drawBufsize) :
    Handles st (do return (true, ← recallLine w st r len)) := by
  obtain ⟨st', hst', h'⟩ := recallLine_spec w h r hlen
  refine handles_of_some ⟨st', hst', _, h', ?_⟩
  cases hr : r.1 with
  | none => exact hwidth
  | some line => exact hnarrow line hr

/-- **Enter and the deleting keys keep a line a line.** -/
theorem handles_plainKey {st : InputState κ} {text : CStr} (h : ShowsText st text)
    (hwidth : lineWidth text < drawBufsize) (key : Key) : Handles st (plainKey w key st) := by
  rw [plainKey]
  refine handles_ite (fun _ ↦ ?_) fun _ ↦ ?_
  · obtain ⟨st', text', henter, hbuf⟩ := handleEnterKey_spec w h hwidth
    obtain ⟨buf, hstore, hbuf'⟩ := hbuf.truncate (Nat.zero_le _)
    rw [Int.natCast_zero] at hstore
    rw [henter, Option.bind_eq_bind, Option.bind_some, hstore]
    exact handles_of_isLine (isLine_cleared hbuf' st'.history)
  refine handles_ite (fun _ ↦ handles_of_part hwidth h.deleteBack) fun _ ↦ ?_
  refine handles_ite (fun _ ↦ ?_) fun _ ↦ ?_
  · rw [h.tuiUpdateInputLine_eq w hwidth]
    exact handles_of_isLine ⟨text, h, hwidth⟩
  refine handles_ite (fun _ ↦ handles_of_part hwidth h.deleteForward) fun _ ↦ ?_
  exact handles_self ⟨text, h, hwidth⟩ false

/-- A key that is handled neither here nor with Ctrl, and that is a character, is inserted. -/
theorem insertedByte_of_unhandled {key : Key} {st st' : InputState κ} {codepoint : ℕ}
    (hcode : key.code = .unicode codepoint) (hprint : 0x20 ≤ key.c)
    (hroom : st.inputLen < tuiInputlen - 1)
    (hctrl : key.ctrl → ctrlKey key.c st = some (false, st))
    (hplain : plainKey w key st = some (false, st')) :
    insertedByte key = some (toChar key.c) := by
  have hinsert : (if key.ctrl then ctrlInsert key.c else none) = none := by
    split
    · next hkey => exact (ctrlKey_unhandled (hctrl hkey)).2 hroom
    · rfl
  have hdelete : key.c ≠ 0x7f := by
    rintro hc
    rw [plainKey, if_neg (by omega), if_pos (.inr hc)] at hplain
    cases hback : st.deleteBack <;> rw [hback] at hplain <;> cases hplain
  have hdigit : ¬(key.alt ∧ 0x30 ≤ key.c ∧ key.c ≤ 0x39) := by
    rintro ⟨halt, hlow, hhigh⟩
    rw [plainKey, if_neg (by omega), if_neg (by omega), if_pos ⟨hlow, hhigh, halt⟩] at hplain
    cases hdraw : tuiUpdateInputLine w st <;> rw [hdraw] at hplain <;> cases hplain
  rw [insertedByte, hinsert, hcode]
  dsimp only
  rw [if_pos ⟨hprint, hdelete, fun h ↦ (ctrlKey_unhandled (hctrl h.1)).1 h.2, hdigit⟩]

/-! ## The parts of `stdin_ev_cb` -/

/-- **The special keys keep a line a line**, unless one is a completion without room, or puts a line
there that is too wide. -/
theorem handles_keysymKey {st : InputState κ} {text : CStr} (h : ShowsText st text)
    (hwidth : lineWidth text < drawBufsize) (key : Key) (sym : ℤ)
    (htab : sym = symTab → key.ctrl = false → key.alt = false → key.shift = false →
      ¬CompletionOverflows w st ∧ ¬CompletionWidens w st)
    (hup : sym = symUp → ∀ line, (st.history w.activeHistory).prev.1 = some line →
      lineWidth line.1 < drawBufsize)
    (hdown : sym = symDown → ∀ line, (st.history w.activeHistory).next.1 = some line →
      lineWidth line.1 < drawBufsize) : Handles st (keysymKey w key sym st) := by
  have hself : ∀ handled, Handles st (some (handled, st)) := handles_self ⟨text, h, hwidth⟩
  have hdraw : Handles st (do return (false, ← tuiUpdateInputLine w st)) := by
    rw [h.tuiUpdateInputLine_eq w hwidth]
    exact hself false
  have hholds : ∀ {line : HistoryLine} {buf : List UInt8}, HoldsText 0 tuiInputlen buf line.1 →
      (buf.takeWhile (· ≠ 0)).length = line.1.length := fun hbuf ↦
    congrArg List.length hbuf.takeWhile_eq
  rw [keysymKey]
  refine handles_ite (fun _ ↦ handles_ite (fun _ ↦ hself _) fun _ ↦ ?_) fun _ ↦ ?_
  · obtain ⟨st', _, henter, -⟩ := handleEnterKey_spec w h hwidth
    rw [henter]
    exact handles_of_isLine (isLine_cleared (showsText_empty st'.history).holds st'.history)
  refine handles_ite (fun hsym ↦ handles_ite (fun _ ↦ hself _) fun _ ↦
    handles_ite (fun hmods ↦ ?_) fun _ ↦ hself _) fun _ ↦ ?_
  · simp only [Bool.not_eq_true', Bool.or_eq_false_iff] at hmods
    obtain ⟨hroom, hnarrow⟩ := htab hsym hmods.1.1 hmods.1.2 hmods.2
    exact handles_tuiDoCompletion w h hwidth hroom hnarrow
  refine handles_ite (fun _ ↦ hdraw) fun _ ↦ ?_
  refine handles_ite (fun _ ↦ handles_of_isLine (h.home.isLine hwidth)) fun _ ↦ ?_
  refine handles_ite (fun _ ↦ handles_of_isLine (h.toEnd.isLine hwidth)) fun _ ↦ ?_
  refine handles_ite (fun _ ↦ handles_ite (fun _ ↦ handles_of_part hwidth h.wordLeft) fun _ ↦
    handles_ite (fun _ ↦ hdraw) fun _ ↦ handles_of_isLine (h.left.isLine hwidth)) fun _ ↦ ?_
  refine handles_ite (fun _ ↦ handles_ite (fun _ ↦ handles_of_part hwidth h.wordRight) fun _ ↦
    handles_ite (fun _ ↦ hdraw) fun _ ↦ handles_of_isLine (h.right.isLine hwidth)) fun _ ↦ ?_
  refine handles_ite (fun hsym ↦ ?_) fun _ ↦ ?_
  · exact handles_recallLine w h hwidth _ (fun _ _ ↦ hholds) (hup hsym)
  refine handles_ite (fun hsym ↦ ?_) fun _ ↦ ?_
  · exact handles_recallLine w h hwidth _ (fun _ _ _ ↦ rfl) (hdown hsym)
  exact hself _

/-- **Line editing keeps a line a line**, unless it stores a NUL or widens the line too much. -/
theorem editLine_spec {st : InputState κ} {text : CStr} (h : ShowsText st text)
    (hwidth : lineWidth text < drawBufsize) {key : Key} {handled : Bool}
    (hbyte : handled = false → ∀ b, insertedByte key = some b → st.inputLen < tuiInputlen - 1 →
      b ≠ 0 ∧ lineWidth text + charWidth b < drawBufsize) :
    ∃ st', editLine w key handled st = some st' ∧ IsLine st' := by
  cases handled with
  | true =>
    have hedit : editLine w key true st = some st := by
      simp [editLine, nextPart, h.tuiUpdateInputLine_eq w hwidth]
    exact ⟨st, hedit, text, h, hwidth⟩
  | false =>
    have hpart : Handles st (if key.ctrl then ctrlKey key.c st else some (false, st)) := by
      split
      · next hctrl =>
        exact handles_ctrlKey h hwidth key.c fun insert hinsert hroom ↦
          (hbyte rfl insert (insertedByte_of_ctrlInsert hctrl hinsert) hroom).2
      · exact handles_self ⟨text, h, hwidth⟩ false
    obtain ⟨handled₁, st₁, hctrl, hline₁, hsame₁⟩ := hpart
    obtain ⟨handled₂, st₂, hplain, hline₂, hsame₂⟩ :=
      handles_nextPart hline₁ hsame₁ _ fun _ ↦ handles_plainKey w h hwidth key
    obtain ⟨handled₃, st₃, hinsert, ⟨text₃, h₃, hwidth₃⟩, -⟩ :=
      handles_nextPart hline₂ hsame₂ _ fun hhandled₂ ↦
        handles_insertKey h hwidth fun codepoint hcode hprint hroom ↦ by
          obtain ⟨hhandled₁, hunhandled⟩ : handled₁ = false ∧
              plainKey w key st = some (false, st₂) := by
            cases handled₁ with
            | false => exact ⟨rfl, by rw [← hhandled₂, ← hplain, hsame₁ rfl]; rfl⟩
            | true =>
              rw [nextPart, if_pos rfl] at hplain
              rw [hhandled₂] at hplain
              cases hplain
          refine hbyte rfl _ (insertedByte_of_unhandled w hcode hprint hroom (fun hkey ↦ ?_)
            hunhandled) hroom
          rw [if_pos hkey, hhandled₁, hsame₁ hhandled₁] at hctrl
          exact hctrl
    refine ⟨st₃, ?_, text₃, h₃, hwidth₃⟩
    have hfirst : nextPart (fun st ↦ if key.ctrl then ctrlKey key.c st else some (false, st))
        (false, st) = some (handled₁, st₁) := hctrl
    rw [editLine, hfirst, Option.bind_eq_bind, Option.bind_some, hplain, Option.bind_some, hinsert,
      Option.bind_some]
    dsimp only
    rw [h₃.tuiUpdateInputLine_eq w hwidth₃]
    exact ite_self _

/-! ## One key -/

/-- Nothing takes the key before the line is edited. -/
def ReachesLine (key : Key) : Prop :=
  w.window ∧ ¬w.viewFullHeight ∧ (w.viewKey → key.alt) ∧ ¬ctrlSpace w key ∧
    ∀ codepoint, key.code = .unicode codepoint → key.alt →
      ¬w.hotkeyDispatch (toInt codepoint) ∧ toChar (toInt codepoint) ∉ windowKeys ++ [0]

/-- The key inserts the byte, and there is room for it. -/
def Inserts (key : Key) (st : InputState κ) (b : UInt8) : Prop :=
  ReachesLine w key ∧ insertedByte key = some b ∧ st.inputLen < tuiInputlen - 1

/-- The key brings back a line of the history. -/
def BringsBack (key : Key) (st : InputState κ) (line : HistoryLine) : Prop :=
  w.window ∧ (w.viewKey → key.alt) ∧
    (key.code = .keysym symUp ∧ (st.history w.activeHistory).prev.1 = some line ∨
      key.code = .keysym symDown ∧ (st.history w.activeHistory).next.1 = some line)

/-- The key asks for a completion. -/
def Completes (key : Key) : Prop :=
  w.window ∧ ¬w.viewKey ∧ key.code = .keysym symTab ∧ ¬key.ctrl ∧ ¬key.alt ∧ ¬key.shift

/-- **The key is a character whose low byte is NUL**, and it is inserted. -/
def InsertsNul (key : Key) (st : InputState κ) : Prop := Inserts w key st 0

/-- **The key is a completion without room** for what stands behind the cursor. -/
def CompletesPast (key : Key) (st : InputState κ) : Prop :=
  Completes w key ∧ CompletionOverflows w st

/-- **The key makes the line too wide** for the buffer that it is drawn in. -/
def TooWide (key : Key) (st : InputState κ) : Prop :=
  (∃ b, Inserts w key st b ∧ drawBufsize ≤ lineWidth st.text + charWidth b) ∨
  (∃ line, BringsBack w key st line ∧ drawBufsize ≤ lineWidth line.1) ∨
  Completes w key ∧ CompletionWidens w st

/-- The special keys, unless one is a completion without room, or puts a line there that is too
wide. -/
theorem specialKey_spec {st : InputState κ} {text : CStr} (h : ShowsText st text)
    (hwidth : lineWidth text < drawBufsize) {key : Key} (hwindow : w.window)
    (hview : w.viewKey → key.alt) (hpast : ¬CompletesPast w key st) (hwide : ¬TooWide w key st) :
    ∃ handled st', specialKey w key st = some (handled, st') ∧ IsLine st' ∧
      (handled = false → st' = st ∧ ¬ctrlSpace w key) := by
  have hline : IsLine st := ⟨text, h, hwidth⟩
  rw [specialKey]
  cases hcode : key.code with
  | keysym sym =>
    obtain ⟨handled, st', hkey, hline', hsame⟩ := handles_keysymKey w h hwidth key sym
      (fun hsym hctrl halt hshift ↦ by
        have hcompletes : Completes w key := ⟨hwindow, fun hkey ↦ by simp [hview hkey] at halt,
          hsym ▸ hcode, by simp [hctrl], by simp [halt], by simp [hshift]⟩
        exact ⟨fun hover ↦ hpast ⟨hcompletes, hover⟩,
          fun hwidens ↦ hwide (.inr (.inr ⟨hcompletes, hwidens⟩))⟩)
      (fun hsym line hrecall ↦ Nat.lt_of_not_le fun hle ↦ hwide (.inr (.inl ⟨line,
        ⟨hwindow, hview, .inl ⟨hsym ▸ hcode, hrecall⟩⟩, hle⟩)))
      (fun hsym line hrecall ↦ Nat.lt_of_not_le fun hle ↦ hwide (.inr (.inl ⟨line,
        ⟨hwindow, hview, .inr ⟨hsym ▸ hcode, hrecall⟩⟩, hle⟩)))
    exact ⟨handled, st', hkey, hline', fun hhandled ↦ ⟨hsame hhandled, by simp [ctrlSpace, hcode]⟩⟩
  | unicode _ => exact ⟨_, st, rfl, hline, fun hspace ↦ ⟨rfl, by simp [hspace]⟩⟩
  | mouse => exact ⟨_, st, rfl, hline, fun hspace ↦ ⟨rfl, by simp [hspace]⟩⟩
  | other => exact ⟨_, st, rfl, hline, fun hspace ↦ ⟨rfl, by simp [hspace]⟩⟩

theorem letterKey_spec {st : InputState κ} {text : CStr} (h : ShowsText st text)
    (hwidth : lineWidth text < drawBufsize) {key : Key} {handled : Bool}
    (hbyte : handled = false → ¬w.viewFullHeight →
      (∀ codepoint, key.code = .unicode codepoint → key.alt →
        ¬w.hotkeyDispatch (toInt codepoint) ∧ toChar (toInt codepoint) ∉ windowKeys ++ [0]) →
      ∀ b, insertedByte key = some b → st.inputLen < tuiInputlen - 1 →
        b ≠ 0 ∧ lineWidth text + charWidth b < drawBufsize) :
    ∃ st', letterKey w key (handled, st) = some st' ∧ IsLine st' := by
  obtain ⟨handled', hletter, hrest⟩ := altLetter_spec w h hwidth key handled
  rw [letterKey]
  by_cases hhotkey : altHotkey w key handled
  · rw [if_pos hhotkey]
    exact ⟨st, rfl, text, h, hwidth⟩
  rw [if_neg hhotkey, hletter, Option.bind_eq_bind, Option.bind_some]
  dsimp only
  split
  · exact ⟨st, rfl, text, h, hwidth⟩
  · next hfull =>
    refine editLine_spec w h hwidth fun hhandled' ↦ ?_
    obtain ⟨hhandled, hwindows⟩ := hrest hhandled'
    refine hbyte hhandled hfull fun codepoint hcode halt ↦ ⟨fun hdispatch ↦ hhotkey ?_,
      hwindows codepoint hcode halt⟩
    simp [altHotkey, hcode, hhandled, halt, hdispatch]

/-- **One key keeps a line a line**, with three exceptions. -/
theorem stdinEvCb_spec {st : InputState κ} {text : CStr} (h : ShowsText st text)
    (hwidth : lineWidth text < drawBufsize) {key : Key} (hnul : ¬InsertsNul w key st)
    (hpast : ¬CompletesPast w key st) (hwide : ¬TooWide w key st) :
    ∃ st', stdinEvCb w key st = some st' ∧ IsLine st' := by
  rw [stdinEvCb]
  split_ifs with hwindow hhotkey hmouse hview
  · exact ⟨st, rfl, text, h, hwidth⟩
  · exact ⟨st, rfl, text, h, hwidth⟩
  · exact ⟨st, rfl, text, h, hwidth⟩
  · exact ⟨st, rfl, text, h, hwidth⟩
  simp only [Bool.not_eq_true', Bool.and_eq_true, Bool.not_eq_false, not_and] at hwindow hview
  obtain ⟨handled, st', hspecial, ⟨text', h', hwidth'⟩, hsame⟩ :=
    specialKey_spec w h hwidth hwindow hview hpast hwide
  rw [hspecial, Option.bind_eq_bind, Option.bind_some]
  refine letterKey_spec w h' hwidth' fun hhandled hfull hletter b hb hroom ↦ ?_
  obtain ⟨rfl, hspace⟩ := hsame hhandled
  have hinserts : Inserts w key st' b := ⟨⟨hwindow, hfull, hview, hspace, hletter⟩, hb, hroom⟩
  refine ⟨?_, Nat.lt_of_not_le fun hle ↦ hwide (.inl ⟨b, hinserts, by rwa [h'.text_eq]⟩)⟩
  rintro rfl
  exact hnul hinserts

/-! ## The exceptions -/

theorem insertedByte_cases {key : Key} {b : UInt8} (h : insertedByte key = some b) :
    key.ctrl ∧ ctrlInsert key.c = some b ∨
    ∃ codepoint, key.code = .unicode codepoint ∧ (key.ctrl → ctrlInsert key.c = none) ∧
      0x20 ≤ key.c ∧ key.c ≠ 0x7f ∧ ¬(key.ctrl ∧ key.c ∈ ctrlEdits) ∧
      ¬(key.alt ∧ 0x30 ≤ key.c ∧ key.c ≤ 0x39) ∧ toChar key.c = b := by
  rw [insertedByte] at h
  split at h
  · next insert _ hinsert =>
    obtain rfl := Option.some.inj h
    split at hinsert
    · next hctrl => exact .inl ⟨hctrl, hinsert⟩
    · cases hinsert
  · next codepoint hinsert hcode =>
    split at h
    · next hchar =>
      obtain ⟨hprint, hdelete, hedits, hdigit⟩ := hchar
      exact .inr ⟨codepoint, hcode, fun hctrl ↦ by rwa [if_pos hctrl] at hinsert, hprint, hdelete,
        hedits, hdigit, Option.some.inj h⟩
    · cases h
  · cases h

theorem le_of_insertedByte {key : Key} {b : UInt8} (h : insertedByte key = some b) :
    0x20 ≤ key.c := by
  rcases insertedByte_cases h with ⟨-, hinsert⟩ | ⟨-, -, -, hprint, -⟩
  · have hle := (ctrlInsert_cases hinsert).2.1
    omega
  · exact hprint

/-- What is inserted is inserted at the cursor, and the line is drawn. -/
theorem editLine_of_insertedByte {key : Key} {b : UInt8} (h : insertedByte key = some b)
    {st : InputState κ} (hroom : st.inputLen < tuiInputlen - 1) :
    editLine w key false st = (st.insertByte b).bind (tuiUpdateInputLine w) := by
  rcases insertedByte_cases h with ⟨hctrl, hinsert⟩ |
      ⟨codepoint, hcode, hinsert, hprint, hdelete, hedits, hdigit, rfl⟩
  · simp only [editLine, nextPart, Bool.false_eq_true, if_false, if_pos hctrl,
      ctrlKey_of_ctrlInsert hinsert hroom]
    cases st.insertByte b <;> rfl
  · have hfirst : (if key.ctrl then ctrlKey key.c st else some (false, st)) = some (false, st) := by
      split
      · next hctrl => exact ctrlKey_of_not_mem (fun hmem ↦ hedits ⟨hctrl, hmem⟩) (hinsert hctrl) st
      · rfl
    have hplain : plainKey w key st = some (false, st) := by
      have hsym : symDelete = 14 := rfl
      rw [plainKey, if_neg (by omega), if_neg (by omega),
        if_neg fun hdig ↦ hdigit ⟨hdig.2.2, hdig.1, hdig.2.1⟩, if_neg (by omega)]
    have hkey : insertKey key st = (st.insertByte (toChar key.c)).map (true, ·) := by
      rw [insertKey, hcode]
      dsimp only
      rw [if_pos hprint, if_pos hroom]
      exact Option.map_eq_bind.symm
    simp only [editLine, nextPart, Bool.false_eq_true, if_false, hfirst, Option.bind_eq_bind,
      Option.bind_some, hplain, hkey]
    cases st.insertByte (toChar key.c) <;> rfl

/-- A key that inserts a byte is no special key. -/
theorem specialKey_of_insertedByte {key : Key} {b : UInt8} (h : insertedByte key = some b)
    (hspace : ¬ctrlSpace w key) (st : InputState κ) :
    specialKey w key st = some (false, st) := by
  rw [specialKey]
  cases hcode : key.code with
  | keysym sym =>
    rcases insertedByte_cases h with ⟨-, hinsert⟩ | ⟨codepoint, hcode', -⟩
    · have hle := (ctrlInsert_cases hinsert).2.1
      rw [Key.c, hcode] at hle
      dsimp only at hle ⊢
      have hne : ∀ n : ℤ, n < 0x42 → sym ≠ n := by
        intro n hn
        split_ifs at hle <;> omega
      rw [keysymKey, if_neg (hne symEnter (by decide)), if_neg (hne symTab (by decide)),
        if_neg (not_or.mpr ⟨hne symPageup (by decide), hne symPagedown (by decide)⟩),
        if_neg (hne symHome (by decide)), if_neg (hne symEnd (by decide)),
        if_neg (hne symLeft (by decide)), if_neg (hne symRight (by decide)),
        if_neg (hne symUp (by decide)), if_neg (hne symDown (by decide))]
    · rw [hcode] at hcode'
      cases hcode'
  | unicode _ => simp [hspace]
  | mouse => simp [hspace]
  | other => simp [hspace]

/-- **A byte that is inserted** gets into the line, and the line is drawn. -/
theorem stdinEvCb_of_inserts {st : InputState κ} {key : Key} {b : UInt8}
    (h : Inserts w key st b) :
    stdinEvCb w key st = (st.insertByte b).bind (tuiUpdateInputLine w) := by
  obtain ⟨⟨hwindow, hfull, hview, hspace, halt⟩, hbyte, hroom⟩ := h
  have hprint := le_of_insertedByte hbyte
  have htab : key.code ≠ .unicode 0x09 := by
    intro hcode
    rw [Key.c, hcode] at hprint
    exact absurd hprint (by decide)
  have hmouse : key.code ≠ .mouse := by
    intro hcode
    rw [Key.c, hcode] at hprint
    exact absurd hprint (by decide)
  have hhotkey : ¬altHotkey w key false := by
    rw [altHotkey]
    split
    · next codepoint hcode =>
      rw [Bool.not_false, Bool.true_and, Bool.and_eq_true]
      exact fun hdispatch ↦ (halt codepoint hcode hdispatch.1).1 hdispatch.2
    · exact Bool.false_ne_true
  have hletter : altLetter w key false st = some (false, st) := by
    rw [altLetter]
    split
    · next codepoint hcode =>
      rw [if_neg]
      simp only [Bool.not_false, Bool.true_and, Bool.and_eq_true, decide_eq_true_eq]
      exact fun hmem ↦ (halt codepoint hcode hmem.1).2 hmem.2
    · rfl
  rw [stdinEvCb, if_neg (by simp [hwindow]), if_neg fun h ↦ htab h.1, if_neg hmouse,
    if_neg (by simpa using hview), specialKey_of_insertedByte w hbyte hspace,
    Option.bind_eq_bind, Option.bind_some, letterKey, if_neg hhotkey, hletter, Option.bind_eq_bind,
    Option.bind_some]
  dsimp only
  rw [if_neg hfull, editLine_of_insertedByte w hbyte hroom]

/-- **A character whose low byte is NUL** cuts the line off at the cursor. -/
theorem not_lineOk_of_insertsNul {st st' : InputState κ} {text : CStr} (h : ShowsText st text)
    {key : Key} (hnul : InsertsNul w key st) (hst' : stdinEvCb w key st = some st') :
    ¬LineOk st' := by
  obtain ⟨st'', hinsert, hload, hlen, hcursor, -⟩ := h.insertByte hnul.2.2 0
  have hroom := hnul.2.2
  have hle := h.cursorPos_le
  have h0 := h.cursorPos_nonneg
  have hclamp : st''.clamp = st'' := clamp_eq_self (by omega) (by omega) (by omega)
  rw [stdinEvCb_of_inserts w hnul, hinsert, Option.bind_some] at hst'
  obtain rfl : st' = st'' := by
    rcases tuiUpdateInputLine_cases hst' with hsame | hsame
    · exact hsame
    · exact hsame.trans hclamp
  exact fun hok ↦ hok.no_nul st.cursorPos h0 (by omega) hload

/-- A completion without room does not return. -/
theorem eq_none_of_completesPast {st : InputState κ} {text : CStr} (h : ShowsText st text)
    {key : Key} (hpast : CompletesPast w key st) : stdinEvCb w key st = none := by
  obtain ⟨⟨hwindow, hview, hcode, hctrl, halt, hshift⟩, hover⟩ := hpast
  have hkeysym : keysymKey w key symTab st = none := by
    rw [keysymKey, if_neg (by decide), if_pos rfl, if_neg hctrl,
      if_pos (by simp [hctrl, halt, hshift]), tuiDoCompletion_eq_none w h hover]
  rw [stdinEvCb, if_neg (by simp [hwindow]), if_neg (by simp [hcode]), if_neg (by simp [hcode]),
    if_neg (by simp [hview]), specialKey, hcode]
  dsimp only
  rw [hkeysym]
  rfl

/-- A special key that puts a line there that is too wide does not return, if the line is drawn. -/
theorem eq_none_of_keysym {st st' : InputState κ} {text : CStr} {key : Key} {sym : ℤ}
    (hcode : key.code = .keysym sym) (hwindow : w.window) (hview : w.viewKey → key.alt)
    (hfull : ¬w.viewFullHeight) (hdrawn : w.drawn)
    (hkey : keysymKey w key sym st = some (true, st')) (h : ShowsText st' text)
    (hwide : drawBufsize ≤ lineWidth text) : stdinEvCb w key st = none := by
  have hhotkey : ¬altHotkey w key true := by simp [altHotkey, hcode]
  have hletter : altLetter w key true st' = some (true, st') := by rw [altLetter, hcode]
  have hedit : editLine w key true st' = none := by
    simp [editLine, nextPart, h.tuiUpdateInputLine_eq_none hdrawn hwide]
  rw [stdinEvCb, if_neg (by simp [hwindow]), if_neg (by simp [hcode]), if_neg (by simp [hcode]),
    if_neg (by simpa using hview), specialKey, hcode]
  dsimp only
  rw [hkey, Option.bind_eq_bind, Option.bind_some, letterKey, if_neg hhotkey, hletter,
    Option.bind_eq_bind, Option.bind_some]
  dsimp only
  rw [if_neg hfull, hedit]

/-- **A line that gets too wide** is not drawn. -/
theorem not_lineOk_of_tooWide {st st' : InputState κ} {text : CStr} (h : ShowsText st text)
    {key : Key} (hdrawn : w.drawn) (hfull : ¬w.viewFullHeight) (hwide : TooWide w key st)
    (hst' : stdinEvCb w key st = some st') : ¬LineOk st' := by
  have hholds : ∀ {line : HistoryLine} {buf : List UInt8}, HoldsText 0 tuiInputlen buf line.1 →
      (buf.takeWhile (· ≠ 0)).length = line.1.length := fun hbuf ↦
    congrArg List.length hbuf.takeWhile_eq
  rcases hwide with ⟨b, hinserts, hwide⟩ | ⟨line, ⟨hwindow, hview, hrecall⟩, hwide⟩ |
      ⟨hcompletes, hwide⟩
  · by_cases hzero : b = 0
    · subst hzero
      exact not_lineOk_of_insertsNul w h hinserts hst'
    · obtain ⟨st'', hinsert, -, -, -, hline⟩ := h.insertByte hinserts.2.2 b
      obtain ⟨text', h', hwidth⟩ := hline hzero
      rw [h.text_eq, ← hwidth] at hwide
      rw [stdinEvCb_of_inserts w hinserts, hinsert, Option.bind_some,
        h'.tuiUpdateInputLine_eq_none hdrawn hwide] at hst'
      cases hst'
  · rcases hrecall with ⟨hcode, hline⟩ | ⟨hcode, hline⟩
    · obtain ⟨st'', hrecall, h'⟩ := recallLine_spec w h (st.history w.activeHistory).prev
        fun _ _ ↦ hholds
      rw [hline] at h'
      have hkey : keysymKey w key symUp st = some (true, st'') := by
        change (do return (true, ← recallLine w st _ _)) = _
        rw [hrecall]
        rfl
      rw [eq_none_of_keysym w hcode hwindow hview hfull hdrawn hkey h' hwide] at hst'
      cases hst'
    · obtain ⟨st'', hrecall, h'⟩ := recallLine_spec w h (st.history w.activeHistory).next
        fun line _ _ ↦ Eq.refl line.1.length
      rw [hline] at h'
      have hkey : keysymKey w key symDown st = some (true, st'') := by
        change (do return (true, ← recallLine w st _ _)) = _
        rw [hrecall]
        rfl
      rw [eq_none_of_keysym w hcode hwindow hview hfull hdrawn hkey h' hwide] at hst'
      cases hst'
  · by_cases hover : CompletionOverflows w st
    · rw [eq_none_of_completesPast w h ⟨hcompletes, hover⟩] at hst'
      cases hst'
    · obtain ⟨hwindow, hview, hcode, hctrl, halt, hshift⟩ := hcompletes
      obtain ⟨st'', text', hcompletion, h', hwide'⟩ := tuiDoCompletion_of_widens w h hover hwide
      have hkey : keysymKey w key symTab st = some (true, st'') := by
        rw [keysymKey, if_neg (by decide), if_pos rfl, if_neg hctrl,
          if_pos (by simp [hctrl, halt, hshift]), hcompletion]
      rw [eq_none_of_keysym w hcode hwindow (fun hkey ↦ (hview hkey).elim) hfull hdrawn hkey h'
        hwide'] at hst'
      cases hst'

end Keys

/-! ## Runs -/

section Runs

variable [DecidableEq κ]

/-- One key, in the state of the rest of the program at that time. -/
def keyStep (st : InputState κ) (event : KeyWorld κ × Key) : Option (InputState κ) :=
  stdinEvCb event.1 event.2 st

/-- The line is drawn after the key, and the view is not in its place. -/
def Drawn (event : KeyWorld κ × Key) : Prop := event.1.drawn ∧ ¬event.1.viewFullHeight

/-- The three exceptions. -/
def BreaksLine (st : InputState κ) (event : KeyWorld κ × Key) : Prop :=
  InsertsNul event.1 event.2 st ∨ CompletesPast event.1 event.2 st ∨ TooWide event.1 event.2 st

omit [DecidableEq κ] in
theorem isLine_empty (history : κ → InputHistory) : IsLine (InputState.empty history) :=
  ⟨[], showsText_empty history, by decide⟩

theorem keyStep_spec {st : InputState κ} {event : KeyWorld κ × Key} (hline : IsLine st)
    (hgood : ¬BreaksLine st event) : ∃ st', keyStep st event = some st' ∧ IsLine st' := by
  obtain ⟨text, h, hwidth⟩ := hline
  rw [BreaksLine, not_or, not_or] at hgood
  exact stdinEvCb_spec event.1 h hwidth hgood.1 hgood.2.1 hgood.2.2

/-- **The input line stays in its buffer**, whatever is typed, as long as no character whose low
byte is NUL is inserted, no completion lacks the room for what stands behind the cursor, and the
line does not get too wide for the buffer that it is drawn in.  Where it is always drawn, no other
run keeps it there. -/
theorem inputLine_safe (history : κ → InputHistory) (events : List (KeyWorld κ × Key)) :
    (NoStep keyStep (InputState.empty history) events BreaksLine →
      Safe keyStep (InputState.empty history) events LineOk) ∧
    ((∀ event ∈ events, Drawn event) →
      Safe keyStep (InputState.empty history) events LineOk →
        NoStep keyStep (InputState.empty history) events BreaksLine) := by
  have hok : ∀ st : InputState κ, IsLine st → LineOk st := fun st ⟨_, h, _⟩ ↦ h.lineOk
  constructor
  · exact safe_of_noStep (isLine_empty history) hok fun st event hline hgood ↦
      keyStep_spec hline hgood
  · intro hdrawn hsafe
    refine noStep_of_safe (isLine_empty history)
      (fun st event hline hgood ↦ keyStep_spec hline hgood) ?_ hsafe
    rintro st event st' hmem ⟨text, h, -⟩ hbad hst'
    obtain ⟨hdraws, hfull⟩ := hdrawn event hmem
    rcases hbad with hnul | hpast | hwide
    · exact not_lineOk_of_insertsNul event.1 h hnul hst'
    · rw [keyStep, eq_none_of_completesPast event.1 h hpast] at hst'
      cases hst'
    · exact not_lineOk_of_tooWide event.1 h hdraws hfull hwide hst'

end Runs

/-- A window, and nothing else. -/
def bareWorld : KeyWorld Unit where
  window := true
  activeHistory := ()
  hotkeyDispatch _ := false
  viewKey := false
  viewFullHeight := false
  drawn := true
  inputBlocked _ := false
  strndup := true
  completionHandler := false
  completionProviders := []
  realloc _ := true

/-- No line has been entered yet. -/
def noHistory : InputHistory where
  lines := List.replicate historyLines none
  count := 0
  index := -1
  length_lines := List.length_replicate
  count_le := Nat.zero_le _
  neg_one_le_index := Int.le_refl _
  index_le := by decide

-- with Ctrl-_ alone, the line is too wide from the 76th on
example : (runSteps keyStep (InputState.empty fun _ ↦ noHistory)
    (List.replicate 75 (bareWorld, ⟨.unicode 0x5f, false, false, true⟩))).isSome ∧
    (runSteps keyStep (InputState.empty fun _ ↦ noHistory)
      (List.replicate 76 (bareWorld, ⟨.unicode 0x5f, false, false, true⟩))).isNone := by
  decide +kernel

/-- The key may be one of the exceptions. -/
def mayBreak (st : InputState κ) (event : KeyWorld κ × Key) : Bool :=
  event.2.code ∈ [.keysym symTab, .keysym symUp, .keysym symDown] ||
    (insertedByte event.2).any fun b ↦ b == 0 || drawBufsize ≤ lineWidth st.text + charWidth b

theorem mayBreak_of_breaksLine {st : InputState κ} {event : KeyWorld κ × Key}
    (h : BreaksLine st event) : mayBreak st event = true := by
  rw [mayBreak, Bool.or_eq_true, decide_eq_true_eq]
  rcases h with ⟨-, hbyte, -⟩ | ⟨⟨-, -, hcode, -⟩, -⟩ | ⟨b, ⟨-, hbyte, -⟩, hwide⟩ |
      ⟨line, ⟨-, -, ⟨hcode, -⟩ | ⟨hcode, -⟩⟩, -⟩ | ⟨⟨-, -, hcode, -⟩, -⟩
  · right
    rw [hbyte]
    rfl
  · left
    simp [hcode]
  · right
    rw [hbyte, Option.any_some, Bool.or_eq_true]
    exact .inr (decide_eq_true hwide)
  · left
    simp [hcode]
  · left
    simp [hcode]
  · left
    simp [hcode]

/-- `h`, Ctrl-_, `i`, Left, Ctrl-W, Backspace, End and Enter. -/
def typing : List (KeyWorld Unit × Key) :=
  [⟨.unicode 0x68, false, false, false⟩, ⟨.unicode 0x5f, false, false, true⟩,
    ⟨.unicode 0x69, false, false, false⟩, ⟨.keysym symLeft, false, false, false⟩,
    ⟨.unicode 0x57, false, false, true⟩, ⟨.keysym symBackspace, false, false, false⟩,
    ⟨.keysym symEnd, false, false, false⟩, ⟨.keysym symEnter, false, false, false⟩].map (bareWorld, ·)

theorem inputLine_safe_typing :
    Safe keyStep (InputState.empty fun _ ↦ noHistory) typing LineOk ∧
      (∀ event ∈ typing, Drawn event) ∧
      NoStep keyStep (InputState.empty fun _ ↦ noHistory) typing BreaksLine := by
  have hcheck : NoStep keyStep (InputState.empty fun _ ↦ noHistory) typing
      fun st event ↦ mayBreak st event = true := noStep_of_checkSteps (by decide +kernel)
  have hgood : NoStep keyStep (InputState.empty fun _ ↦ noHistory) typing BreaksLine :=
    fun cs' c st hpre hst hbad ↦ hcheck cs' c st hpre hst (mayBreak_of_breaksLine hbad)
  have hdrawn : ∀ event ∈ typing, Drawn event := by
    intro event hmem
    obtain ⟨key, -, rfl⟩ := List.mem_map.mp hmem
    exact ⟨rfl, Bool.false_ne_true⟩
  have hsafe := (inputLine_safe (fun _ ↦ noHistory) typing).1 hgood
  exact ⟨hsafe, hdrawn, (inputLine_safe (fun _ ↦ noHistory) typing).2 hdrawn hsafe⟩

/-- U+0100 at the start of the line ends the line where it is. -/
theorem not_inputLine_safe_U0100 :
    ¬Safe keyStep (InputState.empty fun _ ↦ noHistory)
      [(bareWorld, ⟨.unicode 0x100, false, false, false⟩)] LineOk := by
  intro h
  obtain ⟨st, hst, hok⟩ := h _ (List.prefix_refl _)
  have hrun : (runSteps keyStep (InputState.empty fun _ ↦ noHistory)
      [(bareWorld, ⟨.unicode 0x100, false, false, false⟩)]).map
        (fun st ↦ (load st.inputBuf 0, st.inputLen)) = some (some 0, 1) := by
    decide +kernel
  rw [hst, Option.map_some, Option.some.injEq, Prod.mk.injEq] at hrun
  refine hok.no_nul 0 (Int.le_refl 0) ?_ hrun.1
  rw [hrun.2]
  decide

end Rustyaxe
