import Rustyaxe.CString
import Mathlib.Data.List.DropRight

/-!
# The lines of a configuration file

What `cfg_load_depth` of `config.c` does to the text of a line before it looks at what the line
says: it reads the line, joins the continuation lines that follow it, undoes the escape of a
leading comment character and removes comments.

A file is the list of bytes that are still to be read.
-/

set_option autoImplicit false

namespace Rustyaxe

/-- `sizeof(buf)` in `cfg_load_depth`; `contbuf` has the same size. -/
def cfgBufSize : ℕ := 32768

/-- `'\r'` or `'\n'` -/
def isEol (c : UInt8) : Bool := c == 0x0d || c == newline

/-- `' '` or `'\t'` -/
def isBlank (c : UInt8) : Bool := c == space || c == 0x09

/-- `fgets(buf, n, fp)`: the string that is in `buf` then, and the rest of the file. -/
def fgets (n : ℕ) (file : List UInt8) : Option (CStr × List UInt8) :=
  if file.isEmpty then none
  else
    let len := min (n - 1) ((file.takeWhile (· ≠ newline)).length + 1)
    some ((file.take len).takeWhile (· ≠ 0), file.drop len)

/-- `strncat(buf, s, sizeof(buf) - strlen(buf) - 1)` -/
def strncatBuf (buf s : CStr) : CStr := (buf ++ s).take (cfgBufSize - 1)

/-- Trimming of `buf` before the test for a backslash at its end. -/
def trimForContinuation (buf : CStr) : CStr := (buf.rdropWhile isEol).rdropWhile isBlank

/-- The loop of `cfg_load_depth` that joins continuation lines: the logical line, the rest of the
file, and the number of the last line read. -/
def joinContinuations : (fuel : ℕ) → (buf : CStr) → (file : List UInt8) → (line : ℕ) →
    CStr × List UInt8 × ℕ
  | 0, buf, file, line => (buf, file, line)
  | fuel + 1, buf, file, line =>
    let buf := trimForContinuation buf
    if buf.getLast? ≠ some backslash then (buf, file, line)
    else
      let spaceBefore := buf.dropLast.getLast? == some space
      let buf := buf.dropLast.rdropWhile isBlank
      match fgets cfgBufSize file with
      | none => (buf, file, line)
      | some (contbuf, file) =>
        let cont := (contbuf.dropWhile isspace).rdropWhile isspace
        let buf := if spaceBefore && !buf.isEmpty then strncatBuf buf [space] else buf
        joinContinuations fuel (strncatBuf buf cont) file (line + 1)

/-- Does the line start with an escaped comment character? -/
def isEscapedComment : CStr → Bool
  | b :: c :: rest =>
    b == backslash &&
      (c == hashmark || c == semicolon || (c == slash && rest.head? == some slash) ||
        c == backslash)
  | _ => false

/-- The loop that removes the backslashes of further escapes in the line. -/
def unescapeComments : CStr → CStr
  | b :: c :: rest =>
    if b = backslash ∧ (c = hashmark ∨ c = semicolon ∨ c = backslash) then
      c :: unescapeComments rest
    else b :: unescapeComments (c :: rest)
  | s => s

/-- Does the text start with a comment that takes the whole line? -/
def isLineComment (skip : CStr) : Bool :=
  (skip.take 2 == [slash, slash]) || skip.head? == some hashmark || skip.head? == some semicolon

/-- The loop that removes C-style comments.  `inComment` is carried from line to line, the
quotation mark that is open is not. -/
def stripComments (inComment : Bool) (openQuote : Option UInt8) : CStr → CStr × Bool
  | [] => ([], inComment)
  | [c] => (if inComment then [] else [c], inComment)
  | c :: d :: src =>
    if inComment then
      if c = star ∧ d = slash then stripComments false openQuote src
      else stripComments true openQuote (d :: src)
    else
      match openQuote with
      | some q =>
        if c = backslash then
          let r := stripComments false (some q) src
          (c :: d :: r.1, r.2)
        else
          let r := stripComments false (if c = q then none else some q) (d :: src)
          (c :: r.1, r.2)
      | none =>
        if c = quote ∨ c = apostrophe then
          let r := stripComments false (some c) (d :: src)
          (c :: r.1, r.2)
        else if c = slash ∧ d = star then stripComments true none src
        else
          let r := stripComments false none (d :: src)
          (c :: r.1, r.2)

/-- One logical line, as `cfg_load_depth` reads it. -/
structure LogicalLine where
  /-- `buf`, with its continuation lines. -/
  buf : CStr
  /-- The offset of `skip` in `buf`, set before the continuation lines were read. -/
  skip : ℕ
  /-- The number of the last line read. -/
  line : ℕ
  deriving DecidableEq, Repr

/-- `cfg_load_depth` up to the end of the continuation lines: `none` at the end of the file, and
no logical line for a blank one outside a comment. -/
def readLogical (inComment : Bool) (line : ℕ) (file : List UInt8) :
    Option (Option LogicalLine × ℕ × List UInt8) :=
  match fgets (cfgBufSize - 1) file with
  | none => none
  | some (buf, file) =>
    let line := line + 1
    let skip := (buf.takeWhile isspace).length
    if skip = buf.length ∧ !inComment then some (none, line, file)
    else
      let buf := buf.rdropWhile fun c ↦ isEol c || isBlank c
      let r := joinContinuations (file.length + 1) buf file line
      some (some ⟨r.1, skip, r.2.2⟩, r.2.2, r.2.1)

/-- The text of a line when its comments are gone. -/
structure BareLine where
  /-- What stands before `skip` in `buf`. -/
  indent : CStr
  skip : CStr
  escapedComment : Bool
  deriving DecidableEq, Repr

/-- `cfg_load_depth` from the unescaping of comment characters to the removal of comments: the
line, unless all of it is a comment, and whether a comment is still open. -/
def bareLine (inComment : Bool) (l : LogicalLine) : Option BareLine × Bool :=
  let skip := l.buf.drop l.skip
  let escapedComment := isEscapedComment skip
  let buf :=
    if escapedComment then l.buf.take l.skip ++ unescapeComments skip.tail else l.buf
  let skip := buf.dropWhile isspace
  if !inComment && !escapedComment && isLineComment skip then (none, inComment)
  else
    let r := stripComments inComment none skip
    (some ⟨buf.takeWhile isspace, r.1.rdropWhile isspace, escapedComment⟩, r.2)

/-! ## Reading -/

theorem takeWhile_append_cons {p : UInt8 → Bool} {s : CStr} {c : UInt8} (hs : ∀ x ∈ s, p x)
    (hc : p c = false) (rest : CStr) : (s ++ c :: rest).takeWhile p = s := by
  rw [List.takeWhile_append_of_pos hs, List.takeWhile_cons_of_neg (by simp [hc]), List.append_nil]

/-- The bytes of a text without line breaks. -/
def IsLineText (s : CStr) : Prop := ∀ c ∈ s, c ≠ newline ∧ c ≠ 0

theorem IsLineText.takeWhile {s : CStr} (hs : IsLineText s) :
    s.takeWhile (fun c ↦ decide (c ≠ newline)) = s :=
  List.takeWhile_eq_self_iff.mpr fun c hc ↦ by simpa using (hs c hc).1

theorem IsLineText.append {s t : CStr} (hs : IsLineText s) (ht : IsLineText t) :
    IsLineText (s ++ t) := fun c hc ↦ (List.mem_append.mp hc).elim (hs c) (ht c)

/-- A line that fits is read with its line break. -/
theorem fgets_line {n : ℕ} {s : CStr} (hs : IsLineText s) (hn : s.length + 2 ≤ n)
    (rest : List UInt8) : fgets n (s ++ newline :: rest) = some (s ++ [newline], rest) := by
  have hlen : ((s ++ newline :: rest).takeWhile (fun c ↦ decide (c ≠ newline))).length
      = s.length := by
    rw [takeWhile_append_cons (fun c hc ↦ by simpa using (hs c hc).1) (by simp)]
  have hmin : min (n - 1) (s.length + 1) = (s ++ [newline]).length := by
    rw [List.length_append, List.length_singleton]
    omega
  have hcons : s ++ newline :: rest = s ++ [newline] ++ rest := by simp
  rw [fgets, if_neg (by simp), hlen, hmin, hcons]
  dsimp only
  rw [List.take_left, List.drop_left, List.takeWhile_eq_self_iff.mpr]
  intro c hc
  rcases List.mem_append.mp hc with hc | hc
  · simpa using (hs c hc).2
  · rw [List.mem_singleton.mp hc]
    decide

/-- A line with nothing on it. -/
theorem readLogical_newline (line : ℕ) (file : List UInt8) :
    readLogical false line (newline :: file) = some (none, line + 1, file) := by
  have hf : fgets (cfgBufSize - 1) (newline :: file) = some ([newline], file) :=
    fgets_line (s := []) (fun c hc ↦ by simp at hc) (by decide) file
  rw [readLogical, hf]
  rfl

/-- Of a line that does not fit as much is read as the buffer holds. -/
theorem fgets_full {n : ℕ} {s : CStr} (hs : IsLineText s) (hn : n ≤ s.length + 1) (hpos : 1 < n)
    (rest : List UInt8) :
    fgets n (s ++ rest) = some (s.take (n - 1), s.drop (n - 1) ++ rest) := by
  have hne : (s ++ rest).isEmpty = false := by
    cases s with
    | nil => simp at hn; omega
    | cons c s => rfl
  have hlen : s.length ≤ ((s ++ rest).takeWhile (fun c ↦ decide (c ≠ newline))).length := by
    rw [List.takeWhile_append_of_pos fun c hc ↦ by simpa using (hs c hc).1, List.length_append]
    omega
  have hmin : min (n - 1) (((s ++ rest).takeWhile (fun c ↦ decide (c ≠ newline))).length + 1)
      = n - 1 := by
    omega
  rw [fgets, hne, if_neg (by simp), hmin]
  dsimp only
  rw [List.take_append_of_le_length (by omega), List.drop_append_of_le_length (by omega),
    List.takeWhile_eq_self_iff.mpr]
  intro c hc
  simpa using (hs c (List.mem_of_mem_take hc)).2

/-- Every line takes at least one byte. -/
theorem length_fgets {n : ℕ} {file rest : List UInt8} {buf : CStr} (hn : 1 < n)
    (h : fgets n file = some (buf, rest)) : rest.length < file.length := by
  rw [fgets] at h
  split at h
  · cases h
  · next hne =>
    have hpos : 0 < file.length := List.length_pos_iff.mpr (by simpa using hne)
    obtain ⟨-, rfl⟩ := Prod.mk.injEq .. ▸ Option.some.inj h
    rw [List.length_drop]
    omega

theorem length_joinContinuations_le : ∀ (fuel : ℕ) (buf : CStr) (file : List UInt8) (line : ℕ),
    (joinContinuations fuel buf file line).2.1.length ≤ file.length
  | 0, _, _, _ => le_rfl
  | fuel + 1, buf, file, line => by
    rw [joinContinuations]
    dsimp only
    split
    · exact le_rfl
    · split
      · exact le_rfl
      · next hread =>
        exact (length_joinContinuations_le fuel _ _ _).trans (length_fgets (by decide) hread).le

/-- The joining of lines stops by itself: fuel for a line for each byte left is enough. -/
theorem joinContinuations_fuel : ∀ {n fuel : ℕ} {file : List UInt8} (buf : CStr) (line : ℕ),
    file.length < n → file.length < fuel →
      joinContinuations n buf file line = joinContinuations fuel buf file line
  | n + 1, fuel + 1, file, buf, line, hn, hfuel => by
    rw [joinContinuations, joinContinuations]
    dsimp only
    split
    · rfl
    · cases hread : fgets cfgBufSize file with
      | none => rfl
      | some r =>
        have hlen := length_fgets (by decide) hread
        exact joinContinuations_fuel _ _ (by omega) (by omega)

theorem length_readLogical {inComment : Bool} {line line' : ℕ} {file file' : List UInt8}
    {l : Option LogicalLine} (h : readLogical inComment line file = some (l, line', file')) :
    file'.length < file.length := by
  rw [readLogical] at h
  cases hread : fgets (cfgBufSize - 1) file with
  | none => simp [hread] at h
  | some r =>
    have hlt := length_fgets (by decide) hread
    rw [hread] at h
    dsimp only at h
    split at h
    · obtain ⟨-, -, rfl⟩ : _ ∧ _ ∧ r.2 = file' := by simpa using h
      exact hlt
    · obtain ⟨-, -, rfl⟩ : _ ∧ _ ∧ _ = file' := by simpa using h
      exact lt_of_le_of_lt (length_joinContinuations_le _ _ _ _) hlt

/-! ## Comments -/

/-- A character that neither opens a quotation nor a comment is kept. -/
theorem stripComments_cons {c : UInt8} (hq : c ≠ quote) (ha : c ≠ apostrophe) (hs : c ≠ slash)
    (src : CStr) : stripComments false none (c :: src)
      = (c :: (stripComments false none src).1, (stripComments false none src).2) := by
  cases src with
  | nil => rfl
  | cons d src => simp [stripComments, hq, ha, hs]

theorem stripComments_append {s : CStr}
    (hs : ∀ c ∈ s, c ≠ quote ∧ c ≠ apostrophe ∧ c ≠ slash) (src : CStr) :
    stripComments false none (s ++ src)
      = (s ++ (stripComments false none src).1, (stripComments false none src).2) := by
  induction s with
  | nil => rfl
  | cons c s ih =>
    obtain ⟨hq, ha, hc⟩ := hs c (by simp)
    rw [List.cons_append, stripComments_cons hq ha hc, ih fun x hx ↦ hs x (by simp [hx])]
    rfl

theorem stripComments_sublist (inComment : Bool) (q : Option UInt8) (s : CStr) :
    (stripComments inComment q s).1.Sublist s := by
  fun_induction stripComments inComment q s with
  | case1 inComment q => exact .slnil
  | case2 inComment q c => cases inComment <;> simp
  | case3 q c d src h ih => exact (ih.cons _).cons _
  | case4 q c d src h ih => exact ih.cons _
  | case5 inComment d src hin q r ih => exact (ih.cons_cons _).cons_cons _
  | case6 inComment c d src hin q hq r ih => exact ih.cons_cons _
  | case7 inComment c d src hin hq r ih => exact ih.cons_cons _
  | case8 inComment c d src hin hq h ih => exact (ih.cons _).cons _
  | case9 inComment c d src hin hq h r ih => exact ih.cons_cons _

/-- What `stripComments` has made of a text outside comments: the text itself, or one that lacks
the two characters of a `/*` at least. -/
def KeptOrCut (p : UInt8 → Bool) (s : CStr) (r : CStr × Bool) : Prop :=
  r = (s, false) ∨ r.1.countP p + 2 ≤ s.countP p

theorem KeptOrCut.cons {p : UInt8 → Bool} {s : CStr} {r : CStr × Bool} (h : KeptOrCut p s r)
    (c : UInt8) : KeptOrCut p (c :: s) (c :: r.1, r.2) := by
  rcases h with rfl | h
  · exact .inl rfl
  · refine .inr ?_
    rw [List.countP_cons, List.countP_cons]
    omega

theorem KeptOrCut.countP_le {p : UInt8 → Bool} {s : CStr} {r : CStr × Bool}
    (h : KeptOrCut p s r) : r.1.countP p ≤ s.countP p := by
  rcases h with rfl | h
  · rfl
  · omega

/-- **Removing comments removes nothing, or the two characters of a `/*` at least.** -/
theorem stripComments_keptOrCut {p : UInt8 → Bool} (hslash : p slash) (hstar : p star)
    (inComment : Bool) (q : Option UInt8) (s : CStr) :
    (inComment = true → (stripComments inComment q s).1.countP p ≤ s.countP p) ∧
    (inComment = false → KeptOrCut p s (stripComments inComment q s)) := by
  fun_induction stripComments inComment q s with
  | case1 inComment q => exact ⟨fun _ ↦ by simp, fun h ↦ .inl (by rw [h])⟩
  | case2 inComment q c =>
    cases inComment
    · exact ⟨fun h ↦ by simp at h, fun _ ↦ .inl rfl⟩
    · exact ⟨fun _ ↦ by simp, fun h ↦ by simp at h⟩
  | case3 q c d src h ih =>
    refine ⟨fun _ ↦ ?_, fun h ↦ by simp at h⟩
    have hle := (ih.2 rfl).countP_le
    rw [List.countP_cons, List.countP_cons]
    omega
  | case4 q c d src h ih =>
    refine ⟨fun _ ↦ ?_, fun h ↦ by simp at h⟩
    have hle := ih.1 rfl
    rw [List.countP_cons]
    omega
  | case5 inComment d src hin q r ih =>
    exact ⟨fun h ↦ absurd h hin, fun _ ↦ ((ih.2 rfl).cons _).cons _⟩
  | case6 inComment c d src hin q hq r ih => exact ⟨fun h ↦ absurd h hin, fun _ ↦ (ih.2 rfl).cons _⟩
  | case7 inComment c d src hin hq r ih => exact ⟨fun h ↦ absurd h hin, fun _ ↦ (ih.2 rfl).cons _⟩
  | case8 inComment c d src hin hq h ih =>
    obtain ⟨rfl, rfl⟩ := h
    refine ⟨fun h ↦ absurd h hin, fun _ ↦ .inr ?_⟩
    have hle := ih.1 rfl
    rw [List.countP_cons, List.countP_cons, hslash, hstar, if_pos rfl]
    omega
  | case9 inComment c d src hin hq h r ih => exact ⟨fun h ↦ absurd h hin, fun _ ↦ (ih.2 rfl).cons _⟩

/-- A text without `/*` is left as it is. -/
theorem stripComments_eq_self {s : CStr} (hs : ¬ [slash, star] <:+: s) (q : Option UInt8) :
    stripComments false q s = (s, false) := by
  generalize hic : false = inComment
  fun_induction stripComments inComment q s with
  | case1 inComment q => rfl
  | case2 inComment q c => rw [← hic]; rfl
  | case3 q c d src h ih => simp at hic
  | case4 q c d src h ih => simp at hic
  | case5 inComment d src hin q r ih =>
    have hsrc := ih (fun h ↦ hs (h.trans ⟨[backslash, d], [], by simp⟩)) rfl
    simp only [r]
    rw [hsrc, hic]
  | case6 inComment c d src hin q hq r ih =>
    have hsrc := ih (fun h ↦ hs (h.trans ⟨[c], [], by simp⟩)) rfl
    simp only [r]
    rw [hsrc, hic]
  | case7 inComment c d src hin hq r ih =>
    have hsrc := ih (fun h ↦ hs (h.trans ⟨[c], [], by simp⟩)) rfl
    simp only [r]
    rw [hsrc, hic]
  | case8 inComment c d src hin hq h ih =>
    obtain ⟨rfl, rfl⟩ := h
    exact absurd ⟨[], src, rfl⟩ hs
  | case9 inComment c d src hin hq h r ih =>
    have hsrc := ih (fun h ↦ hs (h.trans ⟨[c], [], by simp⟩)) rfl
    simp only [r]
    rw [hsrc, hic]

/-! ## Continuation lines -/

/-- The end of the text at which the joining of lines stops. -/
def EndsLine (buf : CStr) : Prop :=
  ∀ c, buf.getLast? = some c → c ≠ backslash ∧ isEol c = false ∧ isBlank c = false

theorem rdropWhile_eq_self {p : UInt8 → Bool} {s : CStr}
    (h : ∀ c, s.getLast? = some c → p c = false) : s.rdropWhile p = s :=
  List.rdropWhile_eq_self_iff.mpr fun hne ↦ by
    rw [h _ (List.getLast?_eq_getLast_of_ne_nil hne)]
    simp

theorem rdropWhile_congr {p q : UInt8 → Bool} {s : CStr} (h : ∀ c ∈ s, p c = q c) :
    s.rdropWhile p = s.rdropWhile q := by
  induction s using List.reverseRecOn with
  | nil => rfl
  | append_singleton s x ih =>
    rw [List.rdropWhile_concat, List.rdropWhile_concat, h x (by simp),
      ih fun c hc ↦ h c (by simp [hc])]

/-- Dropping what is not counted does not change the count. -/
theorem countP_dropWhile {p q : UInt8 → Bool} (h : ∀ c, q c → p c = false) (s : CStr) :
    (s.dropWhile q).countP p = s.countP p := by
  have htake : (s.takeWhile q).countP p = 0 :=
    List.countP_eq_zero.mpr fun x hx ↦ by simp [h x (List.mem_takeWhile_imp hx)]
  conv_rhs => rw [← List.takeWhile_append_dropWhile (p := q) (l := s)]
  rw [List.countP_append, htake, Nat.zero_add]

theorem countP_rdropWhile {p q : UInt8 → Bool} (h : ∀ c, q c → p c = false) (s : CStr) :
    (s.rdropWhile q).countP p = s.countP p := by
  rw [List.rdropWhile, List.countP_reverse, countP_dropWhile h, List.countP_reverse]

/-- Nothing before a character that stays is dropped from the end. -/
theorem rdropWhile_append_cons {p : UInt8 → Bool} {c : UInt8} (hc : p c = false) (s u : CStr) :
    (s ++ c :: u).rdropWhile p = s ++ c :: u.rdropWhile p := by
  induction u using List.reverseRecOn with
  | nil => rw [List.rdropWhile_concat_neg _ _ _ (by simp [hc]), List.rdropWhile_nil]
  | append_singleton u x ih =>
    rw [← List.cons_append, ← List.append_assoc, List.rdropWhile_concat, List.rdropWhile_concat]
    split
    · exact ih
    · simp

theorem dropWhile_append_cons {p : UInt8 → Bool} {c : UInt8} (hc : p c = false) (s u : CStr) :
    (s ++ c :: u).dropWhile p = s.dropWhile p ++ c :: u := by
  induction s with
  | nil => rw [List.nil_append, List.dropWhile_cons_of_neg (by simp [hc])]; rfl
  | cons x s ih =>
    rw [List.cons_append, List.dropWhile_cons, List.dropWhile_cons]
    split
    · exact ih
    · rfl

theorem trimForContinuation_eq_self {buf : CStr}
    (h : ∀ c, buf.getLast? = some c → isEol c = false ∧ isBlank c = false) :
    trimForContinuation buf = buf := by
  rw [trimForContinuation, rdropWhile_eq_self fun c hc ↦ (h c hc).1,
    rdropWhile_eq_self fun c hc ↦ (h c hc).2]

theorem joinContinuations_done {buf : CStr} (h : EndsLine buf) (fuel : ℕ) (file : List UInt8)
    (line : ℕ) : joinContinuations (fuel + 1) buf file line = (buf, file, line) := by
  rw [joinContinuations, trimForContinuation_eq_self fun c hc ↦ (h c hc).2]
  dsimp only
  rw [if_pos fun hc ↦ (h _ hc).1 rfl]

/-- The text that a continued line and the line after it make. -/
def glue (acc cont : CStr) : CStr :=
  acc.rdropWhile isBlank ++ (if acc.getLast? = some space then [space] else []) ++ cont

theorem strncatBuf_eq {buf s : CStr} (h : (buf ++ s).length < cfgBufSize) :
    strncatBuf buf s = buf ++ s := List.take_of_length_le (by omega)

theorem joinContinuations_step {acc contbuf : CStr} {file file' : List UInt8}
    (hacc : acc.rdropWhile isBlank ≠ []) (hf : fgets cfgBufSize file = some (contbuf, file'))
    (hlen : (glue acc ((contbuf.dropWhile isspace).rdropWhile isspace)).length < cfgBufSize)
    (fuel line : ℕ) :
    joinContinuations (fuel + 1) (acc ++ [backslash]) file line
      = joinContinuations fuel (glue acc ((contbuf.dropWhile isspace).rdropWhile isspace)) file'
          (line + 1) := by
  have htrim : trimForContinuation (acc ++ [backslash]) = acc ++ [backslash] := by
    refine trimForContinuation_eq_self fun c hc ↦ ?_
    obtain rfl : backslash = c := by simpa using hc
    decide
  rw [joinContinuations, htrim]
  dsimp only
  rw [if_neg (by simp), hf]
  simp only [List.dropLast_concat]
  congr 1
  have hne : (acc.rdropWhile isBlank).isEmpty = false := by simpa using hacc
  rw [glue] at hlen ⊢
  by_cases hs : acc.getLast? = some space
  · rw [if_pos hs] at hlen ⊢
    have hq : (acc.rdropWhile isBlank ++ [space]).length < cfgBufSize :=
      lt_of_le_of_lt ((List.sublist_append_left _ _).length_le) hlen
    rw [if_pos (by simp [hs, hne]), strncatBuf_eq hq, strncatBuf_eq hlen]
  · rw [if_neg hs, List.append_nil] at hlen ⊢
    rw [if_neg (by simp [hs]), strncatBuf_eq hlen]

/-- A continuation of a line that is blank up to its backslash starts the line anew. -/
theorem joinContinuations_blank {acc contbuf : CStr} {file file' : List UInt8}
    (hacc : acc.rdropWhile isBlank = []) (hf : fgets cfgBufSize file = some (contbuf, file'))
    (hlen : ((contbuf.dropWhile isspace).rdropWhile isspace).length < cfgBufSize)
    (fuel line : ℕ) :
    joinContinuations (fuel + 1) (acc ++ [backslash]) file line
      = joinContinuations fuel ((contbuf.dropWhile isspace).rdropWhile isspace) file'
          (line + 1) := by
  have htrim : trimForContinuation (acc ++ [backslash]) = acc ++ [backslash] := by
    refine trimForContinuation_eq_self fun c hc ↦ ?_
    obtain rfl : backslash = c := by simpa using hc
    decide
  rw [joinContinuations, htrim]
  dsimp only
  rw [if_neg (by simp), hf]
  simp only [List.dropLast_concat, hacc, List.isEmpty_nil, Bool.not_true, Bool.and_false,
    Bool.false_eq_true, if_false]
  rw [strncatBuf_eq (by rwa [List.nil_append]), List.nil_append]

/-- How a line that is not blank is read. -/
theorem readLogical_eq {file file' : List UInt8} (lead : CStr) {c : UInt8} {s : CStr}
    (hf : fgets (cfgBufSize - 1) file = some (lead ++ c :: s, file'))
    (hlead : ∀ x ∈ lead, isspace x) (hc : isspace c = false) (inComment : Bool) (line : ℕ) :
    readLogical inComment line file =
      let r := joinContinuations (file'.length + 1)
        ((lead ++ c :: s).rdropWhile fun c ↦ isEol c || isBlank c) file' (line + 1)
      some (some ⟨r.1, lead.length, r.2.2⟩, r.2.2, r.2.1) := by
  rw [readLogical, hf]
  dsimp only
  rw [takeWhile_append_cons hlead hc, if_neg (by simp)]

end Rustyaxe
