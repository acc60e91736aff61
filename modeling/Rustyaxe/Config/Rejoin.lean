import Rustyaxe.Config.General
import Rustyaxe.Config.Write

/-!
# Joining wrapped lines

`cfg_write_wrapped` cuts a value at fixed columns, whatever stands there, and `cfg_load` trims the
blanks on both sides of a cut and puts back at most one.  `rejoin` is what the loader makes of the
lines of the writer (`joinContinuations_wrapLoop`): it keeps every character that is not a blank
(`countP_rejoin`), and it is the value, or shorter than it if some cut falls before a blank or after
two of them (`rejoin_cases`).
-/

set_option autoImplicit false

namespace Rustyaxe

/-! ## Joining what has been cut -/

/-- What `joinContinuations` makes of a text so far and the lines for the rest of the value. -/
def rejoin (key : CStr) : (fuel : ℕ) → (acc text : CStr) → CStr
  | 0, acc, _ => acc
  | fuel + 1, acc, text =>
    if wrapCapacity key < text.length then
      rejoin key fuel (glue acc ((text.take (wrapChunk key)).dropWhile isspace))
        (text.drop (wrapChunk key))
    else glue acc (text.dropWhile isspace)

/-- Some character is not a blank. -/
def HasText (s : CStr) : Prop := ∃ x ∈ s, isBlank x = false

theorem HasText.rdropWhile {s : CStr} (h : HasText s) : HasText (s.rdropWhile isBlank) := by
  obtain ⟨x, hx, hblank⟩ := h
  rw [← List.rdropWhile_append_rtakeWhile (p := isBlank) (l := s), List.mem_append] at hx
  rcases hx with hx | hx
  · exact ⟨x, hx, hblank⟩
  · simp [List.mem_rtakeWhile_imp hx] at hblank

theorem HasText.rdropWhile_ne_nil {s : CStr} (h : HasText s) : s.rdropWhile isBlank ≠ [] := by
  obtain ⟨x, hx, -⟩ := h.rdropWhile
  exact List.ne_nil_of_mem hx

theorem HasText.glue {acc : CStr} (h : HasText acc) (cont : CStr) : HasText (glue acc cont) := by
  obtain ⟨x, hx, hblank⟩ := h.rdropWhile
  exact ⟨x, by simp [Rustyaxe.glue, hx], hblank⟩

theorem length_glue_le (acc cont : CStr) :
    (glue acc cont).length ≤ acc.length + cont.length := by
  have hle : (acc.rdropWhile isBlank ++ (if acc.getLast? = some space then [space] else [])).length
      ≤ acc.length := by
    by_cases h : acc.getLast? = some space
    · obtain ⟨pre, rfl⟩ : ∃ pre, acc = pre ++ [space] := by
        rw [List.getLast?_eq_some_iff] at h
        exact h
      rw [if_pos h, List.rdropWhile_concat_pos _ _ _ (by decide), List.length_append,
        List.length_append, List.length_singleton]
      have := (List.rdropWhile_prefix isBlank pre).length_le
      omega
    · rw [if_neg h, List.append_nil]
      exact (List.rdropWhile_prefix isBlank acc).length_le
  rw [glue, List.length_append]
  omega

/-- The trimming of a continuation line. -/
theorem trim_contbuf (text : CStr) (n : ℕ)
    (h : ∃ c, text.getLast? = some c ∧ isspace c = false) :
    ((List.replicate n space ++ text ++ [newline]).dropWhile isspace).rdropWhile isspace
      = text.dropWhile isspace := by
  obtain ⟨c, hlast, hc⟩ := h
  obtain ⟨pre, rfl⟩ := List.getLast?_eq_some_iff.mp hlast
  have hspaces : ∀ x ∈ List.replicate n space, isspace x = true := fun x hx ↦ by
    rw [(List.mem_replicate.mp hx).2]
    decide
  have hnewline : [newline].rdropWhile isspace = [] := by decide
  rw [List.append_assoc, List.dropWhile_append_of_pos hspaces, List.append_assoc,
    List.singleton_append, dropWhile_append_cons hc, rdropWhile_append_cons hc, hnewline,
    dropWhile_append_cons hc]

/-- A value of printable characters without a backslash or the beginning of a comment, and with no
blank at its ends. -/
structure IsPlainValue (v : CStr) : Prop where
  printable : ∀ c ∈ v, isprint c
  no_backslash : backslash ∉ v
  no_comment : ¬ [slash, star] <:+: v
  head : v.head? ≠ some space
  last : v.getLast? ≠ some space

/-- The characters of a value that is being written. -/
def IsValueText (s : CStr) : Prop := ∀ c ∈ s, isprint c ∧ c ≠ backslash

theorem IsValueText.isLineText {s : CStr} (h : IsValueText s) : IsLineText s := fun c hc ↦
  ⟨(printable_spec (h c hc).1).2.2.2.2, (printable_spec (h c hc).1).2.2.2.1⟩

theorem IsValueText.take {s : CStr} (h : IsValueText s) (n : ℕ) : IsValueText (s.take n) :=
  fun c hc ↦ h c (List.mem_of_mem_take hc)

theorem IsValueText.drop {s : CStr} (h : IsValueText s) (n : ℕ) : IsValueText (s.drop n) :=
  fun c hc ↦ h c (List.mem_of_mem_drop hc)

theorem isLineText_replicate (n : ℕ) : IsLineText (List.replicate n space) := fun c hc ↦ by
  rw [(List.mem_replicate.mp hc).2]
  decide

theorem isLineText_backslash : IsLineText [backslash] := fun c hc ↦ by
  rw [List.mem_singleton.mp hc]
  decide

/-- The end of a value ends a line. -/
theorem endsLine_glue {acc text : CStr} (htext : IsValueText text) (hne : text ≠ [])
    (hlast : text.getLast? ≠ some space) : EndsLine (glue acc (text.dropWhile isspace)) := by
  obtain ⟨pre, c, rfl⟩ := List.eq_nil_or_concat text |>.resolve_left hne
  rw [List.concat_eq_append] at *
  obtain ⟨hprint, hback⟩ := htext c (by simp)
  have hc : c ≠ space := by simpa using hlast
  obtain ⟨hspace, hblank, heol, -⟩ := printable_spec hprint
  have hspace' : isspace c = false := by simpa [hspace] using hc
  intro x hx
  rw [dropWhile_append_cons hspace', glue, ← List.append_assoc, List.getLast?_concat] at hx
  obtain rfl : c = x := by simpa using hx
  exact ⟨hback, heol, by simpa [hblank] using hc⟩

/-- The loader reads a line of the writer that is continued. -/
theorem fgets_wrapLoop_more {key text : CStr} (hkey : wrapIndent key + 4 ≤ cfgBufSize)
    (htext : IsLineText text) (hmore : wrapCapacity key < text.length) (fuel : ℕ)
    (file : List UInt8) : fgets cfgBufSize (wrapLoop key (fuel + 1) false text ++ file)
      = some (List.replicate (wrapIndent key) space ++ (text.take (wrapChunk key) ++ [backslash]) ++
          [newline], wrapLoop key fuel false (text.drop (wrapChunk key)) ++ file) := by
  have hchunk := wrapChunk_le key
  have hfit : wrapIndent key + wrapCapacity key < cfgBufSize - 2 :=
    wrapIndent_add_wrapCapacity_lt (by omega) (by decide)
  have htake : IsLineText (text.take (wrapChunk key)) :=
    fun c hc ↦ htext c (List.mem_of_mem_take hc)
  rw [wrapLoop_more hmore, List.append_assoc (_ ++ [backslash]), List.cons_append, wrapLead,
    if_neg Bool.false_ne_true, List.append_assoc _ _ [backslash]]
  refine fgets_line ((isLineText_replicate _).append (htake.append isLineText_backslash)) ?_ _
  simp only [List.length_append, List.length_take, List.length_singleton, List.length_replicate]
  omega

/-- The loader reads the last line of the writer. -/
theorem fgets_wrapLoop_last {key text : CStr} (hkey : wrapIndent key + 4 ≤ cfgBufSize)
    (htext : IsLineText text) (hlast : text.length ≤ wrapCapacity key) (fuel : ℕ)
    (file : List UInt8) : fgets cfgBufSize (wrapLoop key (fuel + 1) false text ++ file)
      = some (List.replicate (wrapIndent key) space ++ text ++ [newline], file) := by
  have hfit : wrapIndent key + wrapCapacity key < cfgBufSize - 2 :=
    wrapIndent_add_wrapCapacity_lt (by omega) (by decide)
  rw [wrapLoop_last hlast, List.append_assoc, List.singleton_append, wrapLead,
    if_neg Bool.false_ne_true]
  refine fgets_line ((isLineText_replicate _).append htext) ?_ _
  rw [List.length_append, List.length_replicate]
  omega

/-- **The loader joins the lines of the writer into `rejoin`**, and stops after them. -/
theorem joinContinuations_wrapLoop {key : CStr} (hkey : wrapIndent key + 4 ≤ cfgBufSize) :
    ∀ (fuel n : ℕ) (acc text : CStr) (file : List UInt8) (line : ℕ),
      text.length < fuel → text.length < n → text ≠ [] → IsValueText text →
      text.getLast? ≠ some space → HasText acc → acc.length + text.length < cfgBufSize →
      ∃ line', joinContinuations n (acc ++ [backslash]) (wrapLoop key fuel false text ++ file) line
        = (rejoin key fuel acc text, file, line')
  | 0, _, _, _, _, _, h, _, _, _, _, _, _ => by omega
  | fuel + 1, n, acc, text, file, line, hfuel, hn, hne, htext, hlast, hacc, hlen => by
    obtain ⟨n, rfl⟩ : ∃ m, n = m + 1 := ⟨n - 1, by omega⟩
    have hpos := wrapChunk_pos key
    have hchunk := wrapChunk_le key
    have htlen := List.length_pos_iff.mpr hne
    by_cases hmore : wrapCapacity key < text.length
    · have hf := fgets_wrapLoop_more hkey htext.isLineText hmore fuel file
      have htrim := trim_contbuf (text.take (wrapChunk key) ++ [backslash])
        (wrapIndent key) ⟨backslash, by simp, by decide⟩
      have hdropb : (text.take (wrapChunk key) ++ [backslash]).dropWhile isspace
          = (text.take (wrapChunk key)).dropWhile isspace ++ [backslash] :=
        dropWhile_append_cons (by decide) _ _
      rw [hdropb] at htrim
      have hglue := length_glue_le acc ((text.take (wrapChunk key)).dropWhile isspace)
      have hdrop := (List.dropWhile_sublist isspace (l := text.take (wrapChunk key))).length_le
      have htake : (text.take (wrapChunk key)).length = wrapChunk key := by
        rw [List.length_take]
        omega
      have hassoc (c : CStr) : glue acc (c ++ [backslash]) = glue acc c ++ [backslash] := by
        rw [glue, glue, List.append_assoc _ c]
      obtain ⟨line', hjoin⟩ := joinContinuations_wrapLoop hkey fuel n
        (glue acc ((text.take (wrapChunk key)).dropWhile isspace))
        (text.drop (wrapChunk key)) file (line + 1)
        (by rw [List.length_drop]; omega) (by rw [List.length_drop]; omega)
        (by rw [← List.length_pos_iff, List.length_drop]; omega) (htext.drop _)
        (by rwa [List.getLast?_drop, if_neg (by omega)]) (hacc.glue _)
        (by rw [List.length_drop]; omega)
      refine ⟨line', ?_⟩
      rw [joinContinuations_step hacc.rdropWhile_ne_nil hf]
      · rw [htrim, hassoc, hjoin, rejoin, if_pos hmore]
      · rw [htrim, hassoc, List.length_append, List.length_singleton]
        omega
    · have hf := fgets_wrapLoop_last hkey htext.isLineText (Nat.le_of_not_lt hmore) fuel file
      have htrim := trim_contbuf text (wrapIndent key) (by
        obtain ⟨pre, c, rfl⟩ := List.eq_nil_or_concat text |>.resolve_left hne
        refine ⟨c, by simp, ?_⟩
        rw [(printable_spec (htext c (by simp)).1).1]
        simpa using hlast)
      have hglue := length_glue_le acc (text.dropWhile isspace)
      have hdrop := (List.dropWhile_sublist isspace (l := text)).length_le
      obtain ⟨n, rfl⟩ : ∃ m, n = m + 1 := ⟨n - 1, by omega⟩
      refine ⟨line + 1, ?_⟩
      rw [joinContinuations_step hacc.rdropWhile_ne_nil hf]
      · rw [htrim, joinContinuations_done (endsLine_glue htext hne hlast), rejoin, if_neg hmore]
      · rw [htrim]
        omega

/-! ## Where joining is exact -/

/-- No blank is lost between the two texts. -/
def GlueOk (acc text : CStr) : Prop := text.head? ≠ some space ∧ ¬ [space, space] <:+ acc

/-- No blank is lost if the value is cut after `i` bytes. -/
def CutOk (v : CStr) (i : ℕ) : Prop := GlueOk (v.take i) (v.drop i)

/-- The writer cuts the value after `i` bytes. -/
def IsCut (key v : CStr) (i : ℕ) : Prop :=
  0 < i ∧ wrapChunk key ∣ i ∧ i + wrapCapacity key < v.length + wrapChunk key

/-- No cut falls before a blank or after two of them. -/
def CutsOk (key v : CStr) : Prop := ∀ i, IsCut key v i → CutOk v i

theorem glue_eq {acc text : CStr} (hacc : IsValueText acc) (htext : IsValueText text)
    (h : GlueOk acc text) : glue acc (text.dropWhile isspace) = acc ++ text := by
  obtain ⟨hhead, hlast⟩ := h
  have hdrop : text.dropWhile isspace = text := by
    cases text with
    | nil => rfl
    | cons c text =>
      refine List.dropWhile_cons_of_neg ?_
      rw [(printable_spec (htext c (by simp)).1).1]
      simpa using hhead
  have hcollapse : acc.rdropWhile isBlank ++ (if acc.getLast? = some space then [space] else [])
      = acc := by
    by_cases hs : acc.getLast? = some space
    · obtain ⟨pre, rfl⟩ := List.getLast?_eq_some_iff.mp hs
      rw [if_pos hs, List.rdropWhile_concat_pos _ _ _ (by decide), rdropWhile_eq_self]
      intro c hc
      obtain ⟨pre', rfl⟩ := List.getLast?_eq_some_iff.mp hc
      rw [(printable_spec (hacc c (by simp)).1).2.1, beq_eq_false_iff_ne]
      rintro rfl
      exact hlast ⟨pre', by simp⟩
    · rw [if_neg hs, List.append_nil, rdropWhile_eq_self]
      intro c hc
      rw [(printable_spec (hacc c (List.mem_of_getLast? hc)).1).2.1, beq_eq_false_iff_ne]
      rintro rfl
      exact hs hc
  rw [glue, hdrop, hcollapse]

theorem length_glue_lt {acc text : CStr} (h : ¬ GlueOk acc text) :
    (glue acc (text.dropWhile isspace)).length < acc.length + text.length := by
  have hdrop := (List.dropWhile_sublist isspace (l := text)).length_le
  rw [GlueOk, not_and_or, not_not, not_not] at h
  rcases h with h | ⟨pre, rfl⟩
  · obtain ⟨text, rfl⟩ : ∃ t, text = space :: t := by
      cases text with
      | nil => simp at h
      | cons c t => exact ⟨t, by rw [List.head?_cons] at h; rw [Option.some.inj h]⟩
    have hle := length_glue_le acc ((space :: text).dropWhile isspace)
    have hdrop' := (List.dropWhile_sublist isspace (l := text)).length_le
    rw [List.dropWhile_cons_of_pos (by decide)] at hle ⊢
    rw [List.length_cons]
    omega
  · have hpre : pre ++ [space, space] = pre ++ [space] ++ [space] := by simp
    have hle := (List.rdropWhile_prefix isBlank pre).length_le
    rw [glue, hpre, List.rdropWhile_concat_pos _ _ _ (by decide),
      List.rdropWhile_concat_pos _ _ _ (by decide), if_pos (by simp)]
    simp only [List.length_append, List.length_singleton]
    omega

theorem length_rejoin_le (key : CStr) : ∀ (fuel : ℕ) (acc text : CStr),
    (rejoin key fuel acc text).length ≤ acc.length + text.length
  | 0, acc, text => by
    rw [rejoin]
    omega
  | fuel + 1, acc, text => by
    rw [rejoin]
    split
    · have ih := length_rejoin_le key fuel
        (glue acc ((text.take (wrapChunk key)).dropWhile isspace)) (text.drop (wrapChunk key))
      have hglue := length_glue_le acc ((text.take (wrapChunk key)).dropWhile isspace)
      have hdrop := (List.dropWhile_sublist isspace (l := text.take (wrapChunk key))).length_le
      rw [List.length_drop] at ih
      rw [List.length_take] at hdrop
      omega
    · have hglue := length_glue_le acc (text.dropWhile isspace)
      have hdrop := (List.dropWhile_sublist isspace (l := text)).length_le
      omega

/-- **From a cut on, joining is exact if the cuts are fine, and loses something if not.** -/
theorem rejoin_cases {key v : CStr} (hv : IsValueText v) : ∀ (fuel n : ℕ), v.length < n + fuel →
    IsCut key v n →
    ((∀ i, n ≤ i → IsCut key v i → CutOk v i) ∧ rejoin key fuel (v.take n) (v.drop n) = v) ∨
      ((∃ i, IsCut key v i ∧ ¬ CutOk v i) ∧
        (rejoin key fuel (v.take n) (v.drop n)).length < v.length)
  | 0, n, hfuel, hcut => by
    have := hcut.2.2
    have := wrapChunk_le key
    omega
  | fuel + 1, n, hfuel, hcut => by
    have hpos := wrapChunk_pos key
    have hchunk := wrapChunk_le key
    have hn := hcut.2.2
    have hsum : (v.take n).length + (v.drop n).length = v.length := by
      rw [← List.length_append, List.take_append_drop]
    rw [rejoin]
    by_cases hmore : wrapCapacity key < (v.drop n).length
    · rw [if_pos hmore]
      have hnext : IsCut key v (n + wrapChunk key) := by
        rw [List.length_drop] at hmore
        exact ⟨by omega, (Nat.dvd_add_right hcut.2.1).mpr dvd_rfl, by omega⟩
      by_cases hok : CutOk v n
      · have hglue : glue (v.take n) (((v.drop n).take (wrapChunk key)).dropWhile isspace)
            = v.take (n + wrapChunk key) := by
          rw [glue_eq (hv.take _) ((hv.drop _).take _), List.take_add]
          refine ⟨?_, hok.2⟩
          rw [List.head?_take, if_neg (by omega)]
          exact hok.1
        rw [hglue, List.drop_drop]
        rcases rejoin_cases hv fuel (n + wrapChunk key) (by omega) hnext with ⟨hall, heq⟩ | hbad
        · refine .inl ⟨fun i hi hci ↦ ?_, heq⟩
          rcases hi.eq_or_lt with rfl | hlt
          · exact hok
          · refine hall i ?_ hci
            have hdvd := (Nat.dvd_sub hci.2.1 hcut.2.1)
            have := Nat.le_of_dvd (by omega) hdvd
            omega
        · exact .inr hbad
      · refine .inr ⟨⟨n, hcut, hok⟩, ?_⟩
        have hlt : (glue (v.take n) (((v.drop n).take (wrapChunk key)).dropWhile isspace)).length
            < (v.take n).length + ((v.drop n).take (wrapChunk key)).length := by
          refine length_glue_lt fun h ↦ hok ⟨?_, h.2⟩
          have := h.1
          rwa [List.head?_take, if_neg (by omega)] at this
        have hle := length_rejoin_le key fuel
          (glue (v.take n) (((v.drop n).take (wrapChunk key)).dropWhile isspace))
          ((v.drop n).drop (wrapChunk key))
        have htake : ((v.drop n).take (wrapChunk key)).length = wrapChunk key := by
          rw [List.length_take]
          omega
        rw [List.length_drop] at hle
        omega
    · rw [if_neg hmore]
      by_cases hok : CutOk v n
      · refine .inl ⟨fun i hi hci ↦ ?_, ?_⟩
        · obtain rfl : i = n := by
            by_contra hne
            have hdvd := (Nat.dvd_sub hci.2.1 hcut.2.1)
            have := Nat.le_of_dvd (by omega) hdvd
            have := hci.2.2
            rw [List.length_drop] at hmore
            omega
          exact hok
        · rw [glue_eq (hv.take _) (hv.drop _) hok, List.take_append_drop]
      · exact .inr ⟨⟨n, hcut, hok⟩, hsum ▸ length_glue_lt hok⟩

theorem mem_rejoin {key : CStr} {x : UInt8} : ∀ {fuel : ℕ} {acc text : CStr},
    x ∈ rejoin key fuel acc text → x ∈ acc ∨ x ∈ text ∨ x = space := by
  have hglue {acc text : CStr} (h : x ∈ glue acc (text.dropWhile isspace)) :
      x ∈ acc ∨ x ∈ text ∨ x = space := by
    rw [glue, List.mem_append, List.mem_append] at h
    rcases h with (h | h) | h
    · exact .inl ((List.rdropWhile_prefix _ _).mem h)
    · split at h
      · exact .inr (.inr (List.mem_singleton.mp h))
      · simp at h
    · exact .inr (.inl ((List.dropWhile_sublist _).mem h))
  intro fuel
  induction fuel with
  | zero => exact fun h ↦ .inl h
  | succ fuel ih =>
    intro acc text h
    rw [rejoin] at h
    split at h
    · rcases ih h with h | h | h
      · rcases hglue h with h | h | h
        · exact .inl h
        · exact .inr (.inl (List.mem_of_mem_take h))
        · exact .inr (.inr h)
      · exact .inr (.inl (List.mem_of_mem_drop h))
      · exact .inr (.inr h)
    · exact hglue h

theorem rejoin_append_left (key pre : CStr) : ∀ (fuel : ℕ) {acc : CStr} (text : CStr),
    HasText acc → rejoin key fuel (pre ++ acc) text = pre ++ rejoin key fuel acc text := by
  have hglue {acc cont : CStr} (h : HasText acc) :
      glue (pre ++ acc) cont = pre ++ glue acc cont := by
    obtain ⟨x, hx, hblank⟩ := h
    obtain ⟨a, u, rfl⟩ := List.append_of_mem hx
    have hlast : (pre ++ (a ++ x :: u)).getLast? = (a ++ x :: u).getLast? := by
      rw [List.getLast?_append, List.getLast?_eq_some_getLast (by simp : a ++ x :: u ≠ [])]
      rfl
    rw [glue, glue, hlast, ← List.append_assoc pre a, rdropWhile_append_cons hblank,
      rdropWhile_append_cons hblank]
    simp only [List.append_assoc]
  intro fuel
  induction fuel with
  | zero => exact fun _ _ ↦ rfl
  | succ fuel ih =>
    intro acc text hacc
    rw [rejoin, rejoin]
    split
    · rw [hglue hacc, ih _ (hacc.glue _)]
    · exact hglue hacc

theorem nonblank_of_isBlank (c : UInt8) : isBlank c → (!isspace c) = false := by
  refine forall_byte ?_ c
  decide +kernel

/-- **Joining keeps every character that is not a blank.** -/
theorem countP_rejoin (key : CStr) : ∀ {fuel : ℕ} {acc text : CStr}, text.length < fuel →
    (rejoin key fuel acc text).countP (fun c ↦ !isspace c)
      = acc.countP (fun c ↦ !isspace c) + text.countP (fun c ↦ !isspace c) := by
  have hglue (acc text : CStr) : (glue acc (text.dropWhile isspace)).countP (fun c ↦ !isspace c)
      = acc.countP (fun c ↦ !isspace c) + text.countP (fun c ↦ !isspace c) := by
    have hsep : (if acc.getLast? = some space then [space] else []).countP (fun c ↦ !isspace c)
        = 0 := by split <;> rfl
    rw [glue, List.countP_append, List.countP_append, countP_rdropWhile nonblank_of_isBlank, hsep,
      countP_dropWhile (by simp), Nat.add_zero]
  intro fuel
  induction fuel with
  | zero => exact fun h ↦ absurd h (Nat.not_lt_zero _)
  | succ fuel ih =>
    intro acc text hlen
    have hpos := wrapChunk_pos key
    have hcap := wrapCapacity_pos key
    rw [rejoin]
    split
    · rw [ih (by rw [List.length_drop]; omega), hglue, Nat.add_assoc, ← List.countP_append,
        List.take_append_drop]
    · exact hglue acc text

end Rustyaxe
