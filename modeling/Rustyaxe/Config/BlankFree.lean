import Rustyaxe.Config.Rejoin

/-!
# Lines of texts without blanks

What `cfg_load` reads of a setting whose text has neither blanks nor backslashes, on a line of its
own or wrapped by `cfg_write_wrapped`.  If the setting is too long for the buffer, the loader cuts
it and takes what is left of the text for a line of its own (`readLogical_wrapped_solid`).
-/

set_option autoImplicit false

namespace Rustyaxe

/-! ## Texts -/

/-- No blanks and no backslashes. -/
def IsSolid (s : CStr) : Prop := ∀ c ∈ s, isspace c = false ∧ c ≠ backslash ∧ c ≠ 0

/-- What is no space is no end of a line and no blank. -/
theorem not_isspace_spec {c : UInt8} (h : isspace c = false) :
    isEol c = false ∧ isBlank c = false ∧ c ≠ newline := by
  revert h
  refine forall_byte ?_ c
  decide +kernel

namespace IsSolid

variable {s : CStr} (hs : IsSolid s)
include hs

theorem of_subset {t : CStr} (h : t ⊆ s) : IsSolid t := fun c hc ↦ hs c (h hc)

theorem take (n : ℕ) : IsSolid (s.take n) := hs.of_subset (List.take_subset n s)

theorem drop (n : ℕ) : IsSolid (s.drop n) := hs.of_subset (List.drop_subset n s)

theorem isLineText : IsLineText s := fun c hc ↦
  ⟨(not_isspace_spec (hs c hc).1).2.2, (hs c hc).2.2⟩

theorem rdropWhile_isspace : s.rdropWhile isspace = s :=
  rdropWhile_eq_self fun c hc ↦ (hs c (List.mem_of_getLast? hc)).1

theorem dropWhile_isspace : s.dropWhile isspace = s := by
  cases s with
  | nil => rfl
  | cons c s => exact List.dropWhile_cons_of_neg (by simp [(hs c List.mem_cons_self).1])

end IsSolid

theorem isSolid_of_isKeyChar {s : CStr} (h : ∀ c ∈ s, isKeyChar c) : IsSolid s := fun c hc ↦
  ⟨isKeyChar.isspace (h c hc), isKeyChar.ne (h c hc) (by decide), isKeyChar.ne (h c hc) (by decide)⟩

/-- A solid text ends a line, and an empty one does not change whether a line ends. -/
theorem endsLine_append {acc s : CStr} (hs : IsSolid s) (hacc : s = [] → EndsLine acc) :
    EndsLine (acc ++ s) := by
  intro c hc
  rcases List.eq_nil_or_concat s with rfl | ⟨pre, x, rfl⟩
  · exact hacc rfl c (by simpa using hc)
  · rw [List.concat_eq_append, ← List.append_assoc, List.getLast?_concat] at hc
    obtain rfl : x = c := by simpa using hc
    obtain ⟨hspace, hback, -⟩ := hs x (by simp)
    exact ⟨hback, (not_isspace_spec hspace).1, (not_isspace_spec hspace).2.1⟩

theorem endsLine_equals (key : CStr) : EndsLine (key ++ [equals]) := by
  intro c hc
  rw [List.getLast?_concat] at hc
  obtain rfl : equals = c := by simpa using hc
  decide

/-- A line ends in what is no blank, so nothing is trimmed. -/
theorem EndsLine.trim {buf : CStr} (h : EndsLine buf) :
    (buf ++ [newline]).rdropWhile (fun c ↦ isEol c || isBlank c) = buf := by
  rw [List.rdropWhile_concat_pos _ _ _ (by decide)]
  exact rdropWhile_eq_self fun c hc ↦ by simp [(h c hc).2.1, (h c hc).2.2]

/-- The blanks before a text that is not all blank. -/
theorem takeWhile_append_of_exists {s : CStr} (h : ∃ c ∈ s, isspace c = false) (t : CStr) :
    (s ++ t).takeWhile isspace = s.takeWhile isspace := by
  rw [List.takeWhile_append, if_neg]
  intro hall
  obtain ⟨c, hc, hspace⟩ := h
  have heq : s.takeWhile isspace = s := (List.takeWhile_prefix isspace).eq_of_length hall
  rw [← heq] at hc
  simp [List.mem_takeWhile_imp hc] at hspace

/-- How a line that is not blank is read. -/
theorem readLogical_line {l : CStr} (hl : IsLineText l) (hlen : l.length + 2 < cfgBufSize)
    (htext : ∃ c ∈ l, isspace c = false)
    (htrim : (l ++ [newline]).rdropWhile (fun c ↦ isEol c || isBlank c) = l) (file : List UInt8)
    (line : ℕ) : readLogical false line (l ++ newline :: file) =
      let r := joinContinuations (file.length + 1) l file (line + 1)
      some (some ⟨r.1, (l.takeWhile isspace).length, r.2.2⟩, r.2.2, r.2.1) := by
  have hf := fgets_line (n := cfgBufSize - 1) hl (by omega) file
  have hlt : (l.takeWhile isspace).length < (l ++ [newline]).length := by
    have hle := (List.takeWhile_prefix (l := l) isspace).length_le
    rw [List.length_append, List.length_singleton]
    omega
  rw [readLogical, hf]
  dsimp only
  rw [takeWhile_append_of_exists htext, if_neg fun h ↦ hlt.ne h.1, htrim]

/-- **A line `key=text`** is read as it stands. -/
theorem readLogical_solid {key t : CStr} (hk : IsLineKey key) (ht : IsSolid t)
    (hlen : key.length + 1 + t.length + 2 < cfgBufSize) (file : List UInt8) (line : ℕ) :
    readLogical false line (key ++ equals :: t ++ newline :: file)
      = some (some ⟨key ++ equals :: t, 0, line + 1⟩, line + 1, file) := by
  have hline : IsLineText (key ++ equals :: t) := fun c hc ↦ by
    rw [List.mem_append, List.mem_cons] at hc
    rcases hc with hc | rfl | hc
    · exact ⟨isKeyChar.ne (hk.chars c hc) (by decide), isKeyChar.ne (hk.chars c hc) (by decide)⟩
    · decide
    · exact ht.isLineText c hc
  have hends : EndsLine (key ++ equals :: t) := by
    rw [← List.singleton_append, ← List.append_assoc]
    exact endsLine_append ht fun _ ↦ endsLine_equals key
  obtain ⟨c, rest, hcons, hc⟩ := hk.exists_cons t
  have htake : (key ++ equals :: t).takeWhile isspace = [] := by
    rw [hcons, List.takeWhile_cons_of_neg (by simp [startsLine.isspace hc])]
  rw [readLogical_line hline (by rw [List.length_append, List.length_cons]; omega)
    ⟨equals, by simp, by decide⟩ hends.trim, joinContinuations_done hends, htake]
  rfl

/-! ## Wrapped lines -/

/-- A continuation line is put behind the text so far, as far as there is room. -/
theorem joinContinuations_solid_step {acc contbuf : CStr} {file file' : List UInt8}
    (hacc : EndsLine acc) (hf : fgets cfgBufSize file = some (contbuf, file')) (n line : ℕ) :
    joinContinuations (n + 1) (acc ++ [backslash]) file line
      = joinContinuations n (strncatBuf acc ((contbuf.dropWhile isspace).rdropWhile isspace)) file'
          (line + 1) := by
  have htrim : trimForContinuation (acc ++ [backslash]) = acc ++ [backslash] := by
    refine trimForContinuation_eq_self fun c hc ↦ ?_
    obtain rfl : backslash = c := by simpa using hc
    decide
  have hspace : (acc.getLast? == some space) = false := by
    rw [beq_eq_false_iff_ne]
    intro h
    exact absurd (hacc space h).2.2 (by decide)
  have hblank : acc.rdropWhile isBlank = acc := rdropWhile_eq_self fun c hc ↦ (hacc c hc).2.2
  rw [joinContinuations, htrim]
  dsimp only
  rw [if_neg (by simp), hf]
  simp only [List.dropLast_concat, hspace, hblank, Bool.false_and, Bool.false_eq_true, if_false]

/-- What is left of a wrapped text when the loader has cut it before `w`. -/
def LeftOver (key w : CStr) (bytes : List UInt8) : Prop :=
  w = [] ∧ bytes = [] ∨ w ≠ [] ∧ ∃ m, w.length < m ∧ bytes = wrapLoop key m false w

/-- The blanks before a continuation line and the end after it are trimmed. -/
theorem trim_continuation {s : CStr} (n : ℕ) {x : UInt8} (hx : isspace x = false)
    (hs : ∀ c ∈ s, isspace c = false) :
    ((List.replicate n space ++ (s ++ [x]) ++ [newline]).dropWhile isspace).rdropWhile isspace
      = s ++ [x] := by
  have hspaces : ∀ c ∈ List.replicate n space, isspace c = true := fun c hc ↦ by
    rw [(List.mem_replicate.mp hc).2]
    decide
  have hdrop : (s ++ [x] ++ [newline]).dropWhile isspace = s ++ [x] ++ [newline] := by
    cases s with
    | nil => exact List.dropWhile_cons_of_neg (by simp [hx])
    | cons c s => exact List.dropWhile_cons_of_neg (by simp [hs c List.mem_cons_self])
  rw [List.append_assoc, List.dropWhile_append_of_pos hspaces, hdrop,
    List.rdropWhile_concat_pos _ _ _ (by decide), List.rdropWhile_concat_neg _ _ _ (by simp [hx])]

theorem strncatBuf_take {acc s : CStr} (hacc : acc.length < cfgBufSize) :
    strncatBuf acc s = acc ++ s.take (cfgBufSize - 1 - acc.length) := by
  rw [strncatBuf, List.take_append, List.take_of_length_le (by omega)]

/-- **The loader joins the lines of the writer**, up to the end of its buffer. -/
theorem joinContinuations_solid {key : CStr} (hkey : wrapIndent key + 4 ≤ cfgBufSize) :
    ∀ (fuel n : ℕ) (acc text : CStr) (file : List UInt8) (line : ℕ), text.length < fuel →
      text.length < n → text ≠ [] → IsSolid text → EndsLine acc → acc.length < cfgBufSize →
      ∃ (s w : CStr) (bytes : List UInt8) (line' : ℕ),
        joinContinuations n (acc ++ [backslash]) (wrapLoop key fuel false text ++ file) line
          = (acc ++ s, bytes ++ file, line') ∧
        s <+: text ∧ w <:+ text ∧ LeftOver key w bytes ∧
        (w ≠ [] → cfgBufSize - 1 + w.length ≤ acc.length + text.length)
  | 0, _, _, _, _, _, h, _, _, _, _, _ => by omega
  | fuel + 1, n, acc, text, file, line, hfuel, hn, hne, htext, hacc, hlen => by
    obtain ⟨n, rfl⟩ : ∃ m, n = m + 1 := ⟨n - 1, by omega⟩
    have hpos := wrapChunk_pos key
    have hchunk := wrapChunk_le key
    have htlen := List.length_pos_iff.mpr hne
    obtain ⟨n, rfl⟩ : ∃ m, n = m + 1 := ⟨n - 1, by omega⟩
    -- the end of the buffer ends the line
    have hcut : ∀ (s : CStr), IsSolid s → ∀ (bytes : List UInt8) (line : ℕ),
        joinContinuations (n + 1) (acc ++ s) bytes line = (acc ++ s, bytes, line) :=
      fun s hs bytes line ↦ joinContinuations_done (endsLine_append hs fun _ ↦ hacc) n bytes line
    by_cases hmore : wrapCapacity key < text.length
    · have hf := fgets_wrapLoop_more hkey htext.isLineText hmore fuel file
      have hcont := trim_continuation (s := text.take (wrapChunk key)) (wrapIndent key)
        (x := backslash) (by decide) fun c hc ↦ (htext.take _ c hc).1
      have hdrop : text.drop (wrapChunk key) ≠ [] := by
        rw [← List.length_pos_iff, List.length_drop]
        omega
      rw [joinContinuations_solid_step hacc hf, hcont]
      by_cases hroom : acc.length + wrapChunk key + 1 < cfgBufSize
      · have hbuf : strncatBuf acc (text.take (wrapChunk key) ++ [backslash])
            = acc ++ text.take (wrapChunk key) ++ [backslash] := by
          rw [strncatBuf_eq (by simp only [List.length_append, List.length_take]; simp; omega),
            List.append_assoc]
        obtain ⟨s, w, bytes, line', hjoin, hs, hw, hleft, hbound⟩ := joinContinuations_solid hkey fuel
          (n + 1) (acc ++ text.take (wrapChunk key)) (text.drop (wrapChunk key)) file (line + 1)
          (by rw [List.length_drop]; omega) (by rw [List.length_drop]; omega) hdrop (htext.drop _)
          (endsLine_append (htext.take _) fun _ ↦ hacc)
          (by rw [List.length_append, List.length_take]; omega)
        refine ⟨text.take (wrapChunk key) ++ s, w, bytes, line', ?_, ?_,
          hw.trans (List.drop_suffix _ _), hleft, fun h ↦ ?_⟩
        · rw [hbuf, hjoin, List.append_assoc]
        · conv_rhs => rw [← List.take_append_drop (wrapChunk key) text]
          exact (List.prefix_append_right_inj _).mpr hs
        · have hbound := hbound h
          rw [List.length_append, List.length_take, List.length_drop] at hbound
          omega
      · have hbuf : strncatBuf acc (text.take (wrapChunk key) ++ [backslash])
            = acc ++ (text.take (wrapChunk key)).take (cfgBufSize - 1 - acc.length) := by
          rw [strncatBuf_take hlen, List.take_append_of_le_length (by rw [List.length_take]; omega)]
        refine ⟨(text.take (wrapChunk key)).take (cfgBufSize - 1 - acc.length),
          text.drop (wrapChunk key), wrapLoop key fuel false (text.drop (wrapChunk key)), line + 1, ?_,
          (List.take_prefix _ _).trans (List.take_prefix _ _), List.drop_suffix _ _,
          .inr ⟨hdrop, fuel, by rw [List.length_drop]; omega, rfl⟩, fun _ ↦ ?_⟩
        · rw [hbuf, hcut _ ((htext.take _).take _)]
        · rw [List.length_drop]
          omega
    · obtain ⟨pre, x, rfl⟩ := (List.eq_nil_or_concat text).resolve_left hne
      rw [List.concat_eq_append] at *
      have hf := fgets_wrapLoop_last hkey htext.isLineText (Nat.le_of_not_lt hmore) fuel file
      have hcont := trim_continuation (s := pre) (wrapIndent key) (htext x (by simp)).1
        fun c hc ↦ (htext c (by simp [hc])).1
      rw [joinContinuations_solid_step hacc hf, hcont, strncatBuf_take hlen, hcut _ (htext.take _)]
      exact ⟨_, [], [], line + 1, rfl, List.take_prefix _ _, List.nil_suffix, .inl ⟨rfl, rfl⟩,
        fun h ↦ absurd rfl h⟩

/-- **The lines of the writer are read** as the setting, or as the start of it if it does not fit
into the buffer.  Then the rest is left over. -/
theorem readLogical_wrapLoop {key v : CStr} (hk : IsLineKey key)
    (hkey : wrapIndent key + 4 < cfgBufSize) (hv : IsSolid v) (firstLine : Bool)
    (hfirst : firstLine = true ∨ v ≠ []) {m : ℕ} (hm : v.length < m) (file : List UInt8)
    (line : ℕ) : ∃ (s w : CStr) (bytes : List UInt8) (line' : ℕ),
      readLogical false line (wrapLoop key m firstLine v ++ file)
        = some (some ⟨wrapLead key firstLine ++ s,
          ((wrapLead key firstLine ++ s).takeWhile isspace).length, line'⟩, line', bytes ++ file) ∧
      s <+: v ∧ w <:+ v ∧ LeftOver key w bytes ∧
      (w ≠ [] → cfgBufSize - 1 + w.length ≤ wrapIndent key + v.length) := by
  obtain ⟨m, rfl⟩ : ∃ n, m = n + 1 := ⟨m - 1, by omega⟩
  have hpos := wrapChunk_pos key
  have hchunk := wrapChunk_le key
  have hfit : wrapIndent key + wrapCapacity key < cfgBufSize - 3 :=
    wrapIndent_add_wrapCapacity_lt (by omega) (by decide)
  have hleadlen : (wrapLead key firstLine).length = wrapIndent key := by
    cases firstLine <;> simp [wrapLead, wrapIndent]
  have hlead : IsLineText (wrapLead key firstLine) := by
    cases firstLine with
    | false => exact isLineText_replicate _
    | true =>
      intro c hc
      rcases List.mem_append.mp hc with hc | hc
      · exact ⟨isKeyChar.ne (hk.chars c hc) (by decide), isKeyChar.ne (hk.chars c hc) (by decide)⟩
      · rw [List.mem_singleton.mp hc]
        decide
  -- a piece of the text that is empty only if all of it is
  have hends : ∀ u, IsSolid u → (u = [] → v = []) → EndsLine (wrapLead key firstLine ++ u) ∧
      ∃ c ∈ wrapLead key firstLine ++ u, isspace c = false := by
    intro u hu hnil
    rcases hfirst with rfl | hne
    · exact ⟨endsLine_append hu fun _ ↦ endsLine_equals key, equals, by simp [wrapLead], by decide⟩
    · have hne' : u ≠ [] := fun h ↦ hne (hnil h)
      obtain ⟨c, t, rfl⟩ := List.exists_cons_of_ne_nil hne'
      exact ⟨endsLine_append hu fun h ↦ absurd h hne', c, by simp, (hu c (by simp)).1⟩
  by_cases hmore : wrapCapacity key < v.length
  · have hdrop : v.drop (wrapChunk key) ≠ [] := by
      rw [← List.length_pos_iff, List.length_drop]
      omega
    have htake : v.take (wrapChunk key) = [] → v = [] := fun h ↦ by
      have hzero := congrArg List.length h
      rw [List.length_take, List.length_nil] at hzero
      omega
    obtain ⟨hend, htext⟩ := hends _ (hv.take (wrapChunk key)) htake
    have htrim :
        (wrapLead key firstLine ++ v.take (wrapChunk key) ++ [backslash] ++ [newline]).rdropWhile
          (fun c ↦ isEol c || isBlank c)
        = wrapLead key firstLine ++ v.take (wrapChunk key) ++ [backslash] := by
      rw [List.rdropWhile_concat_pos _ _ _ (by decide), List.rdropWhile_concat_neg _ _ _ (by decide)]
    have hread := readLogical_line
      ((hlead.append (hv.take (wrapChunk key)).isLineText).append isLineText_backslash)
      (by simp only [List.length_append, List.length_take, List.length_singleton]; omega)
      (htext.imp fun c hc ↦ ⟨List.mem_append_left _ hc.1, hc.2⟩) htrim
      (wrapLoop key m false (v.drop (wrapChunk key)) ++ file) line
    have hrest := length_le_wrapLoop key m (v.drop (wrapChunk key)) false
      (by rw [List.length_drop]; omega)
    obtain ⟨s, w, bytes, line', hjoin, hs, hw, hleft, hbound⟩ := joinContinuations_solid hkey.le m
      ((wrapLoop key m false (v.drop (wrapChunk key)) ++ file).length + 1)
      (wrapLead key firstLine ++ v.take (wrapChunk key)) (v.drop (wrapChunk key)) file (line + 1)
      (by rw [List.length_drop]; omega) (by rw [List.length_append]; omega) hdrop (hv.drop _) hend
      (by rw [List.length_append, List.length_take]; omega)
    refine ⟨v.take (wrapChunk key) ++ s, w, bytes, line', ?_, ?_, hw.trans (List.drop_suffix _ _),
      hleft, fun h ↦ ?_⟩
    · rw [wrapLoop_more hmore, List.append_assoc (_ ++ [backslash]), List.cons_append, hread, hjoin]
      rw [← List.append_assoc, takeWhile_append_of_exists htext, takeWhile_append_of_exists htext]
    · conv_rhs => rw [← List.take_append_drop (wrapChunk key) v]
      exact (List.prefix_append_right_inj _).mpr hs
    · have hbound := hbound h
      rw [List.length_append, List.length_take, List.length_drop] at hbound
      omega
  · obtain ⟨hend, htext⟩ := hends v hv id
    have hread := readLogical_line (hlead.append hv.isLineText)
      (by rw [List.length_append]; omega) htext hend.trim file line
    refine ⟨v, [], [], line + 1, ?_, List.prefix_refl v, List.nil_suffix, .inl ⟨rfl, rfl⟩,
      fun h ↦ absurd rfl h⟩
    rw [wrapLoop_last (by omega), List.append_assoc (_ ++ v), List.singleton_append, hread,
      joinContinuations_done hend]
    rfl

end Rustyaxe
