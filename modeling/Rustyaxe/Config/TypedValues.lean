import Rustyaxe.Config.BlankFree
import Rustyaxe.Config.SaveLoad
import Rustyaxe.Dict.Accessors

/-!
# Typed values in a saved configuration

`cfg_save_overrides` enumerates with `dict_enumerate`, which yields strings only, so that a typed
value is written as an empty text.  The key comes back with that text, or not at all, and no
accessor returns the value (`typedSurvive_iff`).

The entries of the sections are strings, and are saved as they are in `Rustyaxe.Config.SaveLoad`.
-/

set_option autoImplicit false

namespace Rustyaxe

open Assignments ProbeSearch

/-! ## The entries of the sections -/

/-- The slot, if its key has a section. -/
def keepSection : Slot → Slot
  | .full kp => if colon ∈ kp.key then .full kp else .deleted
  | s => s

/-- The entries that are in a section, on their own. -/
def sectionsOf (d : Dict) : Dict :=
  let table := d.table.map keepSection
  ⟨d.fill, table.countP isLive, table⟩

theorem liveEntries_keepSection : ∀ table : List Slot,
    liveEntries (table.map keepSection) = (liveEntries table).filter fun kp ↦ colon ∈ kp.key
  | [] => rfl
  | .full kp :: table => by
    rw [List.map_cons, keepSection, liveEntries]
    by_cases hcolon : colon ∈ kp.key
    · rw [if_pos hcolon, liveEntries, List.filter_cons_of_pos (by simpa using hcolon),
        liveEntries_keepSection table]
    · rw [if_neg hcolon, liveEntries, List.filter_cons_of_neg (by simpa using hcolon),
        liveEntries_keepSection table]
  | .empty :: table => liveEntries_keepSection table
  | .deleted :: table => liveEntries_keepSection table

theorem entries_sectionsOf (d : Dict) :
    (sectionsOf d).entries = d.entries.filter fun kp ↦ colon ∈ kp.key :=
  liveEntries_keepSection d.table

theorem toMap_sectionsOf (d : Dict) (key : CStr) :
    (sectionsOf d).toMap key = if colon ∈ key then d.toMap key else none := by
  rw [Dict.toMap, Dict.toMap, Dict.entryOf, Dict.entryOf, entries_sectionsOf, List.find?_filter]
  split
  · next hcolon =>
    congr 2
    funext kp
    by_cases hkey : kp.key = key
    · simp [hkey, hcolon]
    · simp [hkey]
  · next hcolon =>
    rw [Option.map_eq_none_iff, List.find?_eq_none]
    rintro kp - h
    obtain ⟨hmem, rfl⟩ : colon ∈ kp.key ∧ kp.key = key := by simpa using h
    exact hcolon hmem

theorem slot_sectionsOf (d : Dict) (i : ℕ) : (sectionsOf d).slot i = keepSection (d.slot i) := by
  rw [Dict.slot, Dict.slot, List.getD_eq_getElem?_getD, List.getD_eq_getElem?_getD, sectionsOf,
    List.getElem?_map]
  cases d.table[i]? <;> rfl

theorem size_sectionsOf (d : Dict) : (sectionsOf d).size = d.size := by
  rw [Dict.size, Dict.size, sectionsOf, List.length_map]

theorem slot_of_sectionsOf {d : Dict} {i : ℕ} {kp : Keypair}
    (h : (sectionsOf d).slot i = .full kp) : d.slot i = .full kp := by
  rw [slot_sectionsOf] at h
  cases hs : d.slot i with
  | empty => rw [hs] at h; cases h
  | deleted => rw [hs] at h; cases h
  | full kp' =>
    rw [hs, keepSection] at h
    split at h
    · exact h
    · cases h

theorem keepSection_ne_empty {s : Slot} (h : s ≠ .empty) : keepSection s ≠ .empty := by
  cases s with
  | empty => exact (h rfl).elim
  | deleted => exact h
  | full kp =>
    rw [keepSection]
    split <;> simp

theorem coherent_sectionsOf {dictHash : CStr → UInt32} {d : Dict} (hd : Coherent dictHash d) :
    Coherent dictHash (sectionsOf d) where
  pow := size_sectionsOf d ▸ hd.pow
  hash i kp h := hd.hash i kp (slot_of_sectionsOf h)
  inj i j a b hi hj := hd.inj i j a b (slot_of_sectionsOf hi) (slot_of_sectionsOf hj)
  path i kp h := by
    obtain ⟨n, hn, hpath⟩ := hd.path i kp (slot_of_sectionsOf h)
    rw [size_sectionsOf]
    refine ⟨n, hn, fun m hm ↦ ?_⟩
    rw [slot_sectionsOf]
    exact keepSection_ne_empty (hpath m hm)
  used := rfl
  fill := by
    refine le_trans ?_ hd.fill
    rw [Dict.nonNullCount, Dict.nonNullCount, sectionsOf, List.countP_map]
    refine List.countP_mono_left fun s _ hs ↦ ?_
    cases s with
    | empty => cases hs
    | deleted => rfl
    | full kp => rfl

/-- The servers are written from the sections alone. -/
theorem printServer_sectionsOf (d : Dict) (name : CStr) :
    printServer (sectionsOf d) name = printServer d name := by
  rw [printServer, printServer, dictEnumerateAll_eq, dictEnumerateAll_eq, entries_sectionsOf,
    List.filter_filter]
  congr 4
  funext kp
  rw [Bool.and_eq_left_iff_imp]
  intro hstart
  obtain ⟨l, hl⟩ := startsWith_iff.mp hstart
  rw [hl]
  simp [lit, colon]

/-! ## The line of a typed value -/

/-- Nothing has been stored but empty texts. -/
def Emptied (d d' : Dict) : Prop :=
  ∀ key, d'.toMap key = d.toMap key ∨ d'.toMap key = some (.str (some []))

theorem Emptied.refl (d : Dict) : Emptied d d := fun _ ↦ .inl rfl

theorem Emptied.trans {d₁ d₂ d₃ : Dict} (h : Emptied d₁ d₂) (h' : Emptied d₂ d₃) : Emptied d₁ d₃ :=
  fun key ↦ (h' key).elim (fun heq ↦ heq ▸ h key) .inr

/-- A key, or what the buffer holds of it, with the `=` or without. -/
def IsKeyText (l : CStr) : Prop := l ≠ [] ∧ ∀ c ∈ l, startsLine c

theorem startsLine_spec {c : UInt8} (h : startsLine c) :
    c ≠ backslash ∧ isEol c = false ∧ isBlank c = false ∧ c ≠ newline ∧ c ≠ 0 ∧
      c ≠ quote ∧ c ≠ apostrophe ∧ c ≠ slash := by
  revert h
  refine forall_byte ?_ c
  decide +kernel

theorem IsKeyText.endsLine {l : CStr} (hl : IsKeyText l) : EndsLine l := fun c hc ↦
  have h := startsLine_spec (hl.2 c (List.mem_of_getLast? hc))
  ⟨h.1, h.2.1, h.2.2.1⟩

/-- Such a text is a logical line. -/
theorem IsKeyText.readLogical_eq {l tail : CStr} (hl : IsKeyText l)
    (htail : tail = [] ∨ tail = [newline]) {file rest : List UInt8}
    (hf : fgets (cfgBufSize - 1) file = some (l ++ tail, rest)) (line : ℕ) :
    readLogical false line file = some (some ⟨l, 0, line + 1⟩, line + 1, rest) := by
  have htrim : (l ++ tail).rdropWhile (fun c ↦ isEol c || isBlank c) = l := by
    rcases htail with rfl | rfl
    · rw [List.append_nil]
      exact rdropWhile_eq_self fun c hc ↦ by
        simp [(hl.endsLine c hc).2.1, (hl.endsLine c hc).2.2]
    · exact hl.endsLine.trim
  obtain ⟨c, l', rfl⟩ := List.exists_cons_of_ne_nil hl.1
  have hread := Rustyaxe.readLogical_eq (s := l' ++ tail) [] hf (by simp)
    (startsLine.isspace (hl.2 c List.mem_cons_self)) false line
  rw [hread]
  dsimp only
  rw [List.nil_append, ← List.cons_append, htrim, joinContinuations_done hl.endsLine]
  rfl

/-- Nothing of it is a comment. -/
theorem IsKeyText.bareLine_eq {l : CStr} (hl : IsKeyText l) (line : ℕ) :
    bareLine false ⟨l, 0, line⟩ = (some ⟨[], l, false⟩, false) := by
  have hstrip := stripComments_append (s := l)
    (fun c hc ↦ (startsLine_spec (hl.2 c hc)).2.2.2.2.2) []
  have htrim : l.rdropWhile isspace = l := rdropWhile_eq_self fun c hc ↦
    startsLine.isspace (hl.2 c (List.mem_of_getLast? hc))
  obtain ⟨c, l, rfl⟩ := List.exists_cons_of_ne_nil hl.1
  have hc := hl.2 c List.mem_cons_self
  have hesc : isEscapedComment (c :: l) = false := by
    cases l with
    | nil => rfl
    | cons d l => simp [isEscapedComment, startsLine.ne hc (x := backslash) (by decide)]
  have hcomment : isLineComment (c :: l) = false := by
    cases l <;>
      simp [isLineComment, startsLine.ne hc (x := slash) (by decide),
        startsLine.ne hc (x := hashmark) (by decide), startsLine.ne hc (x := semicolon) (by decide)]
  rw [bareLine]
  simp only [List.drop_zero, hesc, Bool.false_eq_true, if_false]
  rw [List.dropWhile_cons_of_neg (by simp [startsLine.isspace hc]),
    List.takeWhile_cons_of_neg (by simp [startsLine.isspace hc]), hcomment]
  rw [List.append_nil] at hstrip
  have hnil : stripComments false none [] = ([], false) := rfl
  rw [hstrip, hnil, List.append_nil, htrim, if_neg (by simp)]

section Load

variable {dictHash : CStr → UInt32} {env : LoadEnv} (henv : env.AllocOk) (loader : Option Loader)
  (path : CStr)

/-- A piece of a key is no setting. -/
theorem loadLine_keyPiece {l : CStr} (hl : ∀ c ∈ l, isKeyChar c) (hlen : 8 < l.length)
    {s : LoadState} (hs : InGeneral dictHash s) :
    loadLine dictHash env loader path ⟨[], l, false⟩ s = some s := by
  have hsec : s.thisSection ≠ [] := by
    rw [hs.thisSection]
    decide
  have hsplit : splitSetting l = none :=
    if_neg fun h ↦ isKeyChar.ne (hl _ h) (x := equals) (by decide) rfl
  have hinclude : includeKind l = none := by
    obtain ⟨d, rest, hdrop⟩ : ∃ d rest, l.drop 8 = d :: rest :=
      List.exists_cons_of_ne_nil (by simpa using hlen)
    have hd : isKeyChar d := hl d (List.mem_of_mem_drop (hdrop ▸ List.mem_cons_self))
    have heq : d ≠ equals := isKeyChar.ne hd (by decide)
    rw [includeKind, hdrop, if_neg]
    simp [isKeyChar.isBlank hd, heq]
  obtain ⟨c, l, rfl⟩ := List.exists_cons_of_length_pos (Nat.zero_lt_of_lt hlen)
  have hc := hl c List.mem_cons_self
  have hcomment : isLineComment (c :: l) = false := by
    cases l <;>
      simp [isLineComment, isKeyChar.ne hc (x := slash) (by decide),
        isKeyChar.ne hc (x := hashmark) (by decide), isKeyChar.ne hc (x := semicolon) (by decide)]
  rw [loadLine_section hsec (by simp) (by simp [hcomment]) hinclude
    (by simp [isKeyChar.ne hc (x := lbracket) (by decide)]), sectionLine_general hs.thisSection,
    generalLine, hsplit]

/-- A directive without a path. -/
theorem includeKind_directive {name : CStr} (hname : name.map tolower = lit "include") :
    includeKind (dot :: name ++ [equals]) = some false ∧
      includePath (dot :: name ++ [equals]) = [] := by
  have hseven : (lit "include").length = 7 := rfl
  have hlen : name.length = 7 := by rw [← List.length_map (f := tolower), hname, hseven]
  have hdrop : (dot :: name ++ [equals]).drop 8 = [equals] :=
    List.drop_left' (by rw [List.length_cons, hlen])
  have htake : (name ++ [equals]).take 7 = name := List.take_left' hlen
  constructor
  · rw [includeKind, hdrop, List.cons_append, List.tail_cons, startsWithCase, strcaseeq, hseven, htake,
      hname]
    rfl
  · rw [includePath, hdrop]
    rfl

include henv in
/-- A line without a value stores an empty text, unless it is taken for a directive. -/
theorem loadLine_emptyText {t : CStr} (ht : ∀ c ∈ t, isKeyChar c) {s : LoadState}
    (hs : InGeneral dictHash s) :
    loadLine dictHash env loader path ⟨[], t ++ [equals], false⟩ s = none ∨
      ∃ s', loadLine dictHash env loader path ⟨[], t ++ [equals], false⟩ s = some s' ∧
        InGeneral dictHash s' ∧ s'.inComment = s.inComment ∧ Emptied s.newcfg s'.newcfg := by
  have hsec : s.thisSection ≠ [] := by
    rw [hs.thisSection]
    decide
  by_cases hinclude : t.map tolower = lit ".include"
  · left
    obtain ⟨c, name, rfl, hc, hname⟩ := List.map_eq_cons_iff.mp hinclude
    obtain rfl : c = dot := by
      revert hc
      exact forall_byte (p := fun c ↦ tolower c = dot → c = dot) (by decide +kernel) c
    obtain ⟨hkind, hnopath⟩ := includeKind_directive hname
    have hcomment : isLineComment (dot :: name ++ [equals]) = false := by
      cases name <;> rfl
    rw [loadLine, if_neg (by simp), if_neg fun h ↦ hsec h.1]
    dsimp only
    rw [hcomment, if_neg (by simp), hkind]
    dsimp only
    simp only [includeLine, hnopath, if_true]
    rfl
  · right
    have hk : IsLineKey t := ⟨ht, hinclude⟩
    have hval : (if cfgFormattingKey t then cfgExpandFormatEscapes [] else []) = [] := by
      split <;> rfl
    obtain ⟨d, hadd, hd, hmap⟩ := s.dictAdd_spec henv hs.built t []
    refine ⟨{ s with newcfg := d, calls := s.calls + 1 }, ?_, ⟨hd, hs.thisSection⟩, rfl, fun key ↦ ?_⟩
    · rw [hk.loadLine_eq [] loader path hsec, sectionLine_general hs.thisSection, generalLine,
        hk.splitSetting_eq]
      simp only [hk.rdropWhile_eq, List.dropWhile_nil, hval, hadd]
      rfl
    · rw [hmap, Function.update_apply]
      split
      · exact .inr rfl
      · exact .inl rfl

include henv in
/-- **The line of a typed value** stores empty texts only, if the loader survives it: a key that
does not fit into the buffer is read piece by piece. -/
theorem loadLines_emptyText {t : CStr} (ht : ∀ c ∈ t, isKeyChar c) {file : List UInt8} {fuel : ℕ}
    {s : LoadState} (hs : InGeneral dictHash s) (hcom : s.inComment = false)
    (hfuel : (t ++ equals :: newline :: file).length < fuel) :
    loadLines dictHash env loader path fuel (t ++ equals :: newline :: file) s = none ∨
      ∃ fuel' s', file.length < fuel' ∧ InGeneral dictHash s' ∧ s'.inComment = false ∧
        Emptied s.newcfg s'.newcfg ∧
        loadLines dictHash env loader path fuel (t ++ equals :: newline :: file) s
          = loadLines dictHash env loader path fuel' file s' := by
  obtain ⟨fuel, rfl⟩ : ∃ m, fuel = m + 1 := ⟨fuel - 1, by omega⟩
  have hkeyText : IsKeyText (t ++ [equals]) := ⟨by simp, fun c hc ↦ by
    rcases List.mem_append.mp hc with hc | hc
    · simp [startsLine, ht c hc]
    · simp [startsLine, List.mem_singleton.mp hc]⟩
  have hbytes : t ++ equals :: newline :: file = t ++ [equals] ++ newline :: file := by simp
  have hlineText : IsLineText (t ++ [equals]) := fun c hc ↦
    have h := startsLine_spec (hkeyText.2 c hc)
    ⟨h.2.2.2.1, h.2.2.2.2.1⟩
  rw [hbytes] at hfuel ⊢
  rcases Nat.lt_or_ge (t.length + 2) (cfgBufSize - 1) with hshort | hlong
  · -- the line fits
    have hf := fgets_line (n := cfgBufSize - 1) hlineText
      (by rw [List.length_append, List.length_singleton]; omega) file
    rw [loadLines, hcom, hkeyText.readLogical_eq (.inr rfl) hf]
    simp only [hkeyText.bareLine_eq]
    obtain hnone | ⟨s', hload, hs', hcom', hmap⟩ := loadLine_emptyText henv loader path ht
      (s := { s with inComment := false, line := s.line + 1 }) ⟨hs.built, hs.thisSection⟩
    · left
      rw [hnone]
      rfl
    · refine .inr ⟨fuel, s', ?_, hs', hcom', hmap, ?_⟩
      · simp at hfuel
        omega
      · rw [hload]
        rfl
  · have hf := fgets_full (n := cfgBufSize - 1) hlineText
      (by rw [List.length_append, List.length_singleton]; omega) (by decide) (newline :: file)
    have hroom : cfgBufSize - 1 - 1 = 32766 := rfl
    rw [cfgBufSize] at hlong
    rw [hroom] at hf
    rcases Nat.lt_or_ge t.length 32766 with hjust | hpiece
    · -- all but the line break
      rw [List.take_of_length_le (by simp; omega), List.drop_eq_nil_of_le (by simp; omega),
        List.nil_append] at hf
      rw [loadLines, hcom, hkeyText.readLogical_eq (.inl rfl) (by rw [List.append_nil]; exact hf)]
      simp only [hkeyText.bareLine_eq]
      obtain hnone | ⟨s', hload, hs', hcom', hmap⟩ := loadLine_emptyText henv loader path ht
        (s := { s with inComment := false, line := s.line + 1 }) ⟨hs.built, hs.thisSection⟩
      · left
        rw [hnone]
        rfl
      · obtain ⟨fuel, rfl⟩ : ∃ m, fuel = m + 1 := ⟨fuel - 1, by simp at hfuel; omega⟩
        refine .inr ⟨fuel, { s' with inComment := false, line := s'.line + 1 }, ?_,
          ⟨hs'.built, hs'.thisSection⟩, rfl, hmap, ?_⟩
        · simp at hfuel
          omega
        · rw [hload, Option.bind_eq_bind, Option.bind_some, loadLines, hcom',
            readLogical_newline]
    · -- a piece, and the rest of the key
      have hchars : ∀ c ∈ t.take 32766, isKeyChar c := fun c hc ↦ ht c (List.mem_of_mem_take hc)
      have hlen : (t.take 32766).length = 32766 := by
        rw [List.length_take]
        omega
      have hkeyPiece : IsKeyText (t.take 32766) :=
        ⟨List.ne_nil_of_length_pos (by omega), fun c hc ↦ by simp [startsLine, hchars c hc]⟩
      have htake : (t ++ [equals]).take 32766 = t.take 32766 := List.take_append_of_le_length hpiece
      have hdrop : (t ++ [equals]).drop 32766 ++ newline :: file
          = t.drop 32766 ++ equals :: newline :: file := by
        rw [List.drop_append_of_le_length hpiece, List.append_assoc, List.singleton_append]
      rw [htake, hdrop] at hf
      rw [loadLines, hcom, hkeyPiece.readLogical_eq (.inl rfl) (by rw [List.append_nil]; exact hf)]
      simp only [hkeyPiece.bareLine_eq]
      rw [loadLine_keyPiece loader path hchars (by omega)
        (s := { s with inComment := false, line := s.line + 1 }) ⟨hs.built, hs.thisSection⟩,
        Option.bind_eq_bind, Option.bind_some]
      have hfuel' : (t.drop 32766 ++ equals :: newline :: file).length < fuel := by
        simp at hfuel ⊢
        omega
      exact loadLines_emptyText (fun c hc ↦ ht c (List.mem_of_mem_drop hc))
        (s := { s with inComment := false, line := s.line + 1 }) ⟨hs.built, hs.thisSection⟩ rfl hfuel'
termination_by t.length
decreasing_by
  rw [List.length_drop]
  omega

/-- The line of a key without a value. -/
def emptyLine (key : CStr) : List UInt8 := key ++ [equals, newline]

include henv in
/-- The lines of typed values. -/
theorem loadLines_emptyLines (file : List UInt8) : ∀ {keys : List CStr},
    (∀ key ∈ keys, ∀ c ∈ key, isKeyChar c) → ∀ {fuel : ℕ} {s : LoadState}, InGeneral dictHash s →
    s.inComment = false → (keys.flatMap emptyLine ++ file).length < fuel →
    (keys ≠ [] ∧ loadLines dictHash env loader path fuel (keys.flatMap emptyLine ++ file) s = none) ∨
      ∃ fuel' s', file.length < fuel' ∧ InGeneral dictHash s' ∧ s'.inComment = false ∧
        Emptied s.newcfg s'.newcfg ∧
        loadLines dictHash env loader path fuel (keys.flatMap emptyLine ++ file) s
          = loadLines dictHash env loader path fuel' file s'
  | [], _, fuel, s, hs, hcom, hfuel => .inr ⟨fuel, s, hfuel, hs, hcom, .refl _, rfl⟩
  | key :: keys, hkeys, fuel, s, hs, hcom, hfuel => by
    have hbytes : (key :: keys).flatMap emptyLine ++ file
        = key ++ equals :: newline :: (keys.flatMap emptyLine ++ file) := by
      simp [emptyLine]
    rw [hbytes] at hfuel ⊢
    obtain hnone | ⟨fuel₁, s₁, hfuel₁, hs₁, hcom₁, hmap₁, hload₁⟩ :=
      loadLines_emptyText henv loader path (hkeys key List.mem_cons_self) hs hcom hfuel
    · exact .inl ⟨by simp, hnone⟩
    · rw [hload₁]
      obtain ⟨-, hnone⟩ | ⟨fuel₂, s₂, hfuel₂, hs₂, hcom₂, hmap₂, hload₂⟩ :=
        loadLines_emptyLines file (fun k hk ↦ hkeys k (List.mem_cons_of_mem _ hk)) hs₁ hcom₁ hfuel₁
      · exact .inl ⟨by simp, hnone⟩
      · exact .inr ⟨fuel₂, s₂, hfuel₂, hs₂, hcom₂, hmap₁.trans hmap₂, hload₂⟩

end Load

/-! ## The file -/

section File

variable (dictHash : CStr → UInt32) {lenv : LoadEnv}

/-- **A file of typed values and sections** has no value for a key without a section. -/
theorem cfgLoad_emptyLines (hlenv : lenv.AllocOk) (path : CStr) {keys : List CStr}
    (hkeys : ∀ key ∈ keys, ∀ c ∈ key, isKeyChar c) {rest : List SavePiece}
    (hrest : Faithful (lit "general") rest)
    (hcolon : ∀ a ∈ rest.filterMap SavePiece.assigned, colon ∈ a.1) {bytes : List UInt8}
    (hbytes : bytes = generalHeader ++ (keys.flatMap emptyLine ++ fileBytes rest)) :
    (keys ≠ [] ∧ cfgLoad dictHash (lenv.withFile path bytes) path = none) ∨
      ∃ d', cfgLoad dictHash (lenv.withFile path bytes) path = some (some d') ∧ Built dictHash d' ∧
        ∀ key, colon ∉ key → d'.toMap key = none ∨ d'.toMap key = some (.str (some [])) := by
  have hlenv' : (lenv.withFile path bytes).AllocOk := ⟨hlenv.calloc, hlenv.mem⟩
  generalize henv'' : lenv.withFile path bytes = env' at hlenv'
  have hexists : env'.fileExists path = true := by simp [← henv'', LoadEnv.withFile]
  have hopen : env'.fopen path = some bytes := by simp [← henv'', LoadEnv.withFile]
  have hload : cfgLoad dictHash env' path
      = (loadLines dictHash env' (some (cfgLoadDepth dictHash env' 3)) path bytes.length
        (keys.flatMap emptyLine ++ fileBytes rest)
        ⟨dictNew, lit "general", false, 1, 0, 1⟩).map fun s ↦ some s.newcfg := by
    rw [cfgLoad, cfgLoadDepth, loadFile, hexists, hlenv'.calloc, dictNewCall, hopen, hbytes]
    simp only [Bool.not_true, Bool.false_eq_true, if_false, if_true]
    rw [loadLines_generalHeader]
    cases loadLines dictHash env' (some (cfgLoadDepth dictHash env' 3)) path
      (generalHeader ++ (keys.flatMap emptyLine ++ fileBytes rest)).length
      (keys.flatMap emptyLine ++ fileBytes rest) ⟨dictNew, lit "general", false, 1, 0, 1⟩ <;> rfl
  have hlen : (keys.flatMap emptyLine ++ fileBytes rest).length < bytes.length := by
    have hheader : generalHeader.length = 10 := rfl
    have hbytesLen := congrArg List.length hbytes
    rw [List.length_append, hheader] at hbytesLen
    omega
  rw [hload]
  obtain ⟨hne, hnone⟩ | ⟨fuel', s', hfuel', hs', hcom', hmap', hlines⟩ :=
    loadLines_emptyLines hlenv' (some (cfgLoadDepth dictHash env' 3)) path (fileBytes rest) hkeys
      (s := ⟨dictNew, lit "general", false, 1, 0, 1⟩) ⟨built_dictNew, rfl⟩ rfl hlen
  · exact .inl ⟨hne, by rw [hnone]; rfl⟩
  · obtain ⟨s'', hlines', hs'', hmap''⟩ := loadLines_faithful hlenv'
      (some (cfgLoadDepth dictHash env' 3)) path hrest fuel' s' hfuel' hs'.built hs'.thisSection hcom'
    refine .inr ⟨s''.newcfg, by rw [hlines, hlines']; rfl, hs'', fun key hkey ↦ ?_⟩
    have hlast : lastValue ((rest.filterMap SavePiece.assigned).map storedAs) key = none := by
      rw [Option.eq_none_iff_forall_not_mem]
      intro v hv
      obtain ⟨a, ha, heq⟩ := List.mem_map.mp (mem_of_lastValue hv)
      obtain ⟨rfl, -⟩ := Prod.mk.injEq .. ▸ heq
      exact hkey (hcolon a ha)
    rw [hmap'', overlay, hlast, Option.none_or]
    exact hmap' key

end File

/-! ## The values -/

/-- A number or a truth value, in a type of its own. -/
inductive NativeValue where
  | int (i : Int32)
  | uint (ui : UInt32)
  | long (l : Int64)
  | ulong (ul : UInt64)
  | llong (ll : Int64)
  | ullong (ull : UInt64)
  | bool (b : Bool)
  deriving DecidableEq, Repr

/-- What `dict_add_int` and its siblings store. -/
def NativeValue.value : NativeValue → DictValue
  | .int i => .int i
  | .uint ui => .uint ui
  | .long l => .long l
  | .ulong ul => .ulong ul
  | .llong ll => .llong ll
  | .ullong ull => .ullong ull
  | .bool b => .bool b

/-- The accessor of the type of the value returns it, for every default. -/
def GivesBack (dictHash : CStr → UInt32) (d : Dict) (key : CStr) : NativeValue → Prop
  | .int i => ∀ dflt, dictGetInt dictHash d key dflt = some i
  | .uint ui => ∀ dflt, dictGetUint dictHash d key dflt = some ui
  | .long l => ∀ dflt, dictGetLong dictHash d key dflt = some l
  | .ulong ul => ∀ dflt, dictGetUlong dictHash d key dflt = some ul
  | .llong ll => ∀ dflt, dictGetLlong dictHash d key dflt = some ll
  | .ullong ull => ∀ dflt, dictGetUllong dictHash d key dflt = some ull
  | .bool b => ∀ dflt, dictGetBool dictHash d key dflt = some b

section Lost

variable {dictHash : CStr → UInt32} {d : Dict} (hd : Built dictHash d) {key : CStr}
  (hlost : d.toMap key = none ∨ d.toMap key = some (.str (some [])))
include hd hlost

/-- The entry has no text, or an empty one. -/
theorem dictGetKp_lost : dictGetKp dictHash d key = some none ∨
    ∃ kp, dictGetKp dictHash d key = some (some kp) ∧ kp.value = .str (some []) := by
  rw [hd.dictGetKp_of_isSome (.inl hd.null)]
  rw [Dict.toMap, Option.map_eq_none_iff, Option.map_eq_some_iff] at hlost
  obtain h | ⟨kp, hkp, hvalue⟩ := hlost
  · exact .inl (by rw [h])
  · exact .inr ⟨kp, by rw [hkp], hvalue⟩

theorem getInteger_lost {α : Type} {a : IntAccess} (ha : a.parse [] = none) (ofInt : ℤ → α)
    (dflt : α) : getInteger dictHash a ofInt d key dflt = some dflt := by
  rw [getInteger]
  obtain h | ⟨kp, h, hvalue⟩ := dictGetKp_lost hd hlost
  · rw [h]
    rfl
  · have hread : a.read kp.value = none := by rw [hvalue, IntAccess.read, ha]
    rw [h, Option.bind_eq_bind, Option.bind_some]
    dsimp only
    rw [hread]
    rfl

theorem dictGetBool_lost (dflt : Bool) : dictGetBool dictHash d key dflt = some dflt := by
  rw [dictGetBool]
  obtain h | ⟨kp, h, hvalue⟩ := dictGetKp_lost hd hlost
  · rw [h]
    rfl
  · have hread : boolRead kp.value = none := by
      rw [hvalue]
      decide +kernel
    rw [h, Option.bind_eq_bind, Option.bind_some]
    dsimp only
    rw [hread]
    rfl

/-- **No accessor returns a value that has been lost**: what it returns is the default. -/
theorem not_givesBack_lost (v : NativeValue) : ¬GivesBack dictHash d key v := by
  have hne {α : Type} {f : α → Option α} {v x y : α} (hdflt : ∀ dflt, f dflt = some dflt)
      (hxy : x ≠ y) (h : ∀ dflt, f dflt = some v) : False :=
    hxy (Option.some.inj ((hdflt x).symm.trans ((h x).trans ((h y).symm.trans (hdflt y)))))
  intro h
  cases v with
  | int i =>
    exact hne (x := 0) (y := 1)
      (getInteger_lost hd hlost (a := intAccess) (by decide +kernel) Int32.ofInt) (by decide) h
  | uint ui =>
    exact hne (x := 0) (y := 1)
      (getInteger_lost hd hlost (a := uintAccess) (by decide +kernel) UInt32.ofInt) (by decide) h
  | long l =>
    exact hne (x := 0) (y := 1)
      (getInteger_lost hd hlost (a := longAccess) (by decide +kernel) Int64.ofInt) (by decide) h
  | ulong ul =>
    exact hne (x := 0) (y := 1)
      (getInteger_lost hd hlost (a := ulongAccess) (by decide +kernel) UInt64.ofInt) (by decide) h
  | llong ll =>
    exact hne (x := 0) (y := 1)
      (getInteger_lost hd hlost (a := llongAccess) (by decide +kernel) Int64.ofInt) (by decide) h
  | ullong ull =>
    exact hne (x := 0) (y := 1)
      (getInteger_lost hd hlost (a := ullongAccess) (by decide +kernel) UInt64.ofInt) (by decide) h
  | bool b => exact hne (dictGetBool_lost hd hlost) Bool.false_ne_true h

end Lost

/-! ## Saving and loading -/

/-- Numbers and truth values under tokens, and the strings of sections. -/
structure IsTypedCfg (env : SaveEnv) (d : Dict) : Prop where
  general : ∀ key v, d.toMap key = some v → colon ∉ key → IsToken key ∧ ∃ w : NativeValue, w.value = v
  sections : IsSectionedCfg env (sectionsOf d)
  fit : LinesFit (sectionsOf d)

/-- What `cfg_save_overrides` writes for `d` is loaded again, with every typed value. -/
def TypedSurvive (dictHash : CStr → UInt32) (env : SaveEnv) (lenv : LoadEnv) (fs : FileSystem)
    (d : Dict) (path : CStr) : Prop :=
  ∃ fs' file d', cfgSaveOverrides dictHash env fs d path = some (true, fs') ∧
    fs' path = some file ∧
    cfgLoad dictHash (lenv.withFile path (fileBytes file)) path = some (some d') ∧
    ∀ key (v : NativeValue), colon ∉ key → d.toMap key = some v.value → GivesBack dictHash d' key v

section Main

variable {dictHash : CStr → UInt32} {env : SaveEnv} {lenv : LoadEnv} {fs : FileSystem} {d : Dict}
  {path : CStr} (htyped : IsTypedCfg env d)
include htyped

/-- The entries with a section are the strings of the sections. -/
theorem entryOf_sectionsOf {x : SaveEntry} (hskip : cfgSaveEntryIsSkipped env x.key = false)
    (hx : ∃ v, d.toMap x.key = some v ∧ enumerateValue v = x.value) (hcolon : colon ∈ x.key) :
    EntryOf (sectionsOf d) x := by
  obtain ⟨v, hv, htext⟩ := hx
  have hsection : (sectionsOf d).toMap x.key = some v := by rw [toMap_sectionsOf, if_pos hcolon, hv]
  obtain ⟨text, rfl, -⟩ := htyped.sections.value _ _ hsection
  refine ⟨by rw [hsection, ← htext]; rfl, ?_⟩
  rw [Bool.eq_false_iff]
  intro hserver
  simp [cfgSaveEntryIsSkipped, hserver] at hskip

/-- The line of an entry without a section. -/
theorem text_of_general {x : SaveEntry}
    (hx : ∃ v, d.toMap x.key = some v ∧ enumerateValue v = x.value) (hcolon : colon ∉ x.key) :
    (SavePiece.setting [] x.key x.key x.value).text = emptyLine x.key := by
  obtain ⟨v, hv, htext⟩ := hx
  obtain ⟨-, w, rfl⟩ := htyped.general _ _ hv hcolon
  have hnone : x.value = none := by
    rw [← htext]
    cases w <;> rfl
  rw [SavePiece.text, hnone, emptyLine, cfgWriteWrapped]
  simp [wrapLoop]

variable (hd : Coherent dictHash d)
include hd

/-- **What is written**: lines without values in `[general]`, and the sections, which are faithful. -/
theorem exists_typedFile (henv : env.Succeeds fs path) :
    ∃ (fs' : FileSystem) (file rest : List SavePiece) (keys : List CStr),
      cfgSaveOverrides dictHash env fs d path = some (true, fs') ∧ fs' path = some file ∧
      fileBytes file = generalHeader ++ (keys.flatMap emptyLine ++ fileBytes rest) ∧
      (∀ key ∈ keys, IsToken key ∧ (d.toMap key).isSome ∧ colon ∉ key) ∧
      Faithful (lit "general") rest ∧ ∀ a ∈ rest.filterMap SavePiece.assigned, colon ∈ a.1 := by
  obtain ⟨fs', entries, names, hsave, hfile, -, hmem, hguessed, -⟩ := cfgSaveOverrides_file hd henv
  have hentries : ∀ x ∈ sortEntries entries, cfgSaveEntryIsSkipped env x.key = false ∧
      ∃ v, d.toMap x.key = some v ∧ enumerateValue v = x.value := fun x hx ↦
    (hmem x.key x.value).mp ((List.mem_insertionSort _).mp hx)
  have hnoColon : ∀ x : SaveEntry, (strchr colon x.key).isNone = true ↔ colon ∉ x.key := fun x ↦ by
    simp [strchr]
  generalize hgeneral : (sortEntries entries).takeWhile (fun e ↦ (strchr colon e.key).isNone) = general
  have hgeneralMem : ∀ x ∈ general, x ∈ sortEntries entries ∧ colon ∉ x.key := by
    intro x hx
    rw [← hgeneral] at hx
    exact ⟨(List.takeWhile_sublist _).mem hx, (hnoColon x).mp
      (List.mem_takeWhile_imp (p := fun e : SaveEntry ↦ (strchr colon e.key).isNone) hx)⟩
  have hsections : ∀ x ∈ (sortEntries entries).dropWhile fun e ↦ (strchr colon e.key).isNone,
      EntryOf (sectionsOf d) x ∧ colon ∈ x.key := by
    intro x hx
    have hcolon : colon ∈ x.key := by
      by_contra hcolon
      simpa [strchr, hcolon] using colon_of_mem_dropWhile (sortedEntries entries) hx
    obtain ⟨hskip, hvalue⟩ := hentries x ((List.dropWhile_sublist _).mem hx)
    exact ⟨entryOf_sectionsOf htyped hskip hvalue hcolon, hcolon⟩
  have hsaved := savedAs_printSections htyped.sections htyped.fit (sortEntries entries).length _
    (List.length_dropWhile_le _ _) hsections
  have hservers : ∀ sectionName, Faithful sectionName (names.flatMap (printServer d)) := by
    have hprint : printServer d = printServer (sectionsOf d) :=
      funext fun name ↦ (printServer_sectionsOf d name).symm
    rw [hprint]
    refine faithful_servers (coherent_sectionsOf hd) htyped.sections htyped.fit fun name hname ↦ ?_
    obtain ⟨k, hk, hguess⟩ := hguessed name hname
    obtain ⟨l, rfl⟩ := hguess.eq_append
    exact ⟨_, by rw [toMap_sectionsOf, if_pos (by simp [lit, colon])]; exact hk, hguess⟩
  refine ⟨fs', _, printSections (sortEntries entries).length
      ((sortEntries entries).dropWhile fun e ↦ (strchr colon e.key).isNone) ++
        names.flatMap (printServer d), general.map SaveEntry.key, hsave, hfile, ?_, fun key hkey ↦ ?_,
    (hsaved.faithful _).append hservers, fun a ha ↦ ?_⟩
  · have hlines : fileBytes (general.map fun x ↦ .setting [] x.key x.key x.value)
        = (general.map SaveEntry.key).flatMap emptyLine := by
      rw [fileBytes, List.flatMap_map, List.flatMap_map]
      refine List.flatMap_congr fun x hx ↦ ?_
      obtain ⟨hx, hcolon⟩ := hgeneralMem x hx
      exact text_of_general htyped (hentries x hx).2 hcolon
    have hheader : (SavePiece.header [] (lit "general")).text = generalHeader := rfl
    rw [printEntries, printGeneral, hgeneral, List.cons_append, List.cons_append, fileBytes_cons,
      hheader, ← hlines, List.append_assoc]
    simp only [fileBytes, List.flatMap_append]
  · obtain ⟨x, hx, rfl⟩ := List.mem_map.mp hkey
    obtain ⟨hx, hcolon⟩ := hgeneralMem x hx
    obtain ⟨-, v, hv, -⟩ := hentries x hx
    exact ⟨(htyped.general _ _ hv hcolon).1, Option.isSome_iff_exists.mpr ⟨v, hv⟩, hcolon⟩
  · rw [List.filterMap_append, List.mem_append, hsaved.assigned] at ha
    obtain ha | ha := ha
    · obtain ⟨x, hx, hassigned⟩ := List.mem_filterMap.mp ha
      rw [SaveEntry.assigned, Option.map_eq_some_iff] at hassigned
      obtain ⟨w, -, rfl⟩ := hassigned
      exact (hsections x hx).2
    · rw [List.filterMap_flatMap, List.mem_flatMap] at ha
      obtain ⟨name, -, ha⟩ := ha
      obtain ⟨l, hl⟩ := startsWith_iff.mp ((mem_assigned_printServer hd name a).mp ha).2
      rw [hl]
      simp [lit, colon]

/-- **Typed values survive** exactly if there are none: each comes back as an empty text, or not at
all. -/
theorem typedSurvive_iff (henv : env.Succeeds fs path) (hlenv : lenv.AllocOk) :
    TypedSurvive dictHash env lenv fs d path ↔ ∀ key, colon ∉ key → d.toMap key = none := by
  obtain ⟨fs', file, rest, keys, hsave, hfile, hbytes, hkeys, hrest, hcolon⟩ :=
    exists_typedFile htyped hd henv
  have hload := cfgLoad_emptyLines dictHash hlenv path
    (fun key hkey ↦ (hkeys key hkey).1.chars) hrest hcolon hbytes
  constructor
  · rintro ⟨fs'', file', d', hsave', hfile', hload', hreturns⟩ key hkey
    cases hsave.symm.trans hsave'
    cases hfile.symm.trans hfile'
    obtain ⟨-, hnone⟩ | ⟨d'', hload'', hd', hlost⟩ := hload
    · cases hnone.symm.trans hload'
    · cases hload''.symm.trans hload'
      by_contra hne
      obtain ⟨v, hv⟩ := Option.ne_none_iff_exists'.mp hne
      obtain ⟨-, w, rfl⟩ := htyped.general key v hv hkey
      exact not_givesBack_lost hd' (hlost key hkey) w (hreturns key w hkey hv)
  · intro hnone
    obtain ⟨hne, -⟩ | ⟨d', hload, -, -⟩ := hload
    · obtain ⟨key, hkey⟩ := List.exists_mem_of_ne_nil _ hne
      obtain ⟨-, hsome, hkeyColon⟩ := hkeys key hkey
      rw [hnone key hkeyColon] at hsome
      cases hsome
    · refine ⟨fs', file, d', hsave, hfile, hload, fun key v hkey hv ↦ ?_⟩
      rw [hnone key hkey] at hv
      cases hv

end Main

/-- A configuration of one number. -/
theorem exists_oneNumber (dictHash : CStr → UInt32) (key : CStr) (i : Int32) :
    ∃ d, dictAddInt dictHash .ok dictNew key i = some (true, d) ∧ Coherent dictHash d ∧
      ∀ k, d.toMap k = if k = key then some (.int i) else none := by
  have hnew : Built dictHash dictNew := built_dictNew
  obtain ⟨rc, d, hadd, hd, hmap, hrc⟩ := hnew.dictStore_spec .ok key (.int i)
  obtain rfl := hrc rfl
  refine ⟨d, hadd, hd.toCoherent, fun k ↦ ?_⟩
  rw [hmap, if_pos rfl, Function.update_apply]
  rfl

theorem isTypedCfg_oneNumber {env : SaveEnv} {key : CStr} {i : Int32} {d : Dict}
    (hmap : ∀ k, d.toMap k = if k = key then some (.int i) else none) (hkey : IsToken key) :
    IsTypedCfg env d := by
  have hnone : ∀ k, (sectionsOf d).toMap k = none := by
    intro k
    rw [toMap_sectionsOf, hmap]
    split
    · next hcolon =>
      refine if_neg ?_
      rintro rfl
      exact hkey.not_mem (c := colon) (by decide) hcolon
    · rfl
  refine ⟨fun k v hk hcolon ↦ ?_, ⟨fun k hk ↦ ?_, fun k hk ↦ ?_, fun k v hk ↦ ?_⟩,
    fun k localKey text hwritten hk ↦ ?_⟩
  · rw [hmap] at hk
    split at hk
    · next heq =>
      cases hk
      exact ⟨heq ▸ hkey, .int i, rfl⟩
    · cases hk
  · rw [hnone] at hk
    cases hk
  · rw [hnone] at hk
    cases hk
  · rw [hnone] at hk
    cases hk
  · rw [hnone] at hk
    cases hk

theorem typedSurvive_iff_port :
    ∃ d, dictAddInt dictHashMurmur .ok dictNew (lit "port") 5 = some (true, d) ∧
      (TypedSurvive dictHashMurmur writableEnv bareEnv (fun _ ↦ none) d (lit "rig.cfg") ↔
        ∀ key, colon ∉ key → d.toMap key = none) := by
  obtain ⟨d, hadd, hd, hmap⟩ := exists_oneNumber dictHashMurmur (lit "port") 5
  exact ⟨d, hadd, typedSurvive_iff (isTypedCfg_oneNumber hmap ⟨by decide, by decide +kernel⟩) hd
    (writableEnv_succeeds _) allocOk_bareEnv⟩

/-- A configuration with the number 5. -/
def portCfg : Dict :=
  ((dictAddInt dictHashMurmur .ok dictNew (lit "port") 5).map Prod.snd).getD dictNew

/-- The number is written as an empty text. -/
theorem not_typedSurvive_port :
    ¬TypedSurvive dictHashMurmur writableEnv bareEnv (fun _ ↦ none) portCfg (lit "rig.cfg") := by
  rintro ⟨fs', file, d', hsave, hfile, hload, hreturns⟩
  have hbytes : ((cfgSaveOverrides dictHashMurmur writableEnv (fun _ ↦ none) portCfg
      (lit "rig.cfg")).bind fun r ↦ (r.2 (lit "rig.cfg")).map fileBytes)
      = some (lit "[general]\nport=\n") := by
    decide +kernel
  have hzero : ((cfgLoad dictHashMurmur (bareEnv.withFile (lit "rig.cfg") (lit "[general]\nport=\n"))
      (lit "rig.cfg")).bind fun r ↦ r.bind fun d ↦ dictGetInt dictHashMurmur d (lit "port") 0)
      = some 0 := by
    decide +kernel
  rw [hsave, Option.bind_some] at hbytes
  dsimp only at hbytes
  rw [hfile, Option.map_some, Option.some.injEq] at hbytes
  rw [hbytes] at hload
  have hfive : portCfg.toMap (lit "port") = some (NativeValue.value (.int 5)) := by decide +kernel
  have hreturned := hreturns (lit "port") (.int 5) (by decide +kernel) hfive 0
  rw [hload, Option.bind_some, Option.bind_some, hreturned] at hzero
  cases hzero

end Rustyaxe
