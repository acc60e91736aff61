import Rustyaxe.Config.Modules

/-!
# Saving the modules section

`cfg_save` names a section after what stands before the colon of its keys.  The keys of modules
start with `module:`, so they are saved in a section `[module]`, which nobody has registered: of the
modules that a section has been loaded as, none is there when the saved file is loaded again
(`modulesSurvive_iff`).

The loop of the loader keeps modules out of the dictionary as long as no line starts with `module:`
and no header names `[modules]` (`loadLine_outside`).  This includes the lines that come about when
the loader cuts a long setting at the end of its buffer.
-/

set_option autoImplicit false

namespace Rustyaxe

open Assignments

variable {dictHash : CStr → UInt32} {env : LoadEnv}

/-! ## Lines outside the section -/

/-- No module has been loaded, and the loader is not in `[modules]`. -/
structure Outside (dictHash : CStr → UInt32) (s : LoadState) : Prop where
  built : Built dictHash s.newcfg
  noModule : ∀ key, isModuleKey key = true → s.newcfg.toMap key = none
  inComment : s.inComment = false
  thisSection : s.thisSection ≠ lit "modules"

/-- What does not start with `module:` has no start that does. -/
theorem not_isModuleKey_of_isPrefix {s t : CStr} (h : s <+: t) (ht : isModuleKey t = false) :
    isModuleKey s = false := by
  rw [Bool.eq_false_iff]
  intro hs
  rw [isModuleKey, startsWith, List.isPrefixOf_iff_prefix] at hs
  rw [isModuleKey, startsWith, List.isPrefixOf_iff_prefix.mpr (hs.trans h)] at ht
  cases ht

section Lines

variable (halloc : env.AllocOk)
include halloc

theorem Outside.dictAdd {s : LoadState} (hs : Outside dictHash s) {key : CStr}
    (hkey : isModuleKey key = false) (val : CStr) :
    ∃ s', s.dictAdd dictHash env key val = some (true, s') ∧ Outside dictHash s' := by
  obtain ⟨d, hadd, hd, hmap⟩ := s.dictAdd_spec halloc hs.built key val
  refine ⟨_, hadd, hd, fun k hk ↦ ?_, hs.inComment, hs.thisSection⟩
  have hne : k ≠ key := by
    rintro rfl
    rw [hkey] at hk
    cases hk
  rw [hmap, Function.update_of_ne hne]
  exact hs.noModule k hk

theorem Outside.generalLine {s : LoadState} (hs : Outside dictHash s) {skip : CStr}
    (hskip : isModuleKey skip = false) :
    ∃ s', generalLine dictHash env skip s = some s' ∧ Outside dictHash s' := by
  have hkey : isModuleKey ((skip.takeWhile (· ≠ equals)).rdropWhile isBlank) = false :=
    not_isModuleKey_of_isPrefix ((List.rdropWhile_prefix _ _).trans (List.takeWhile_prefix _)) hskip
  rw [Rustyaxe.generalLine, splitSetting]
  by_cases heq : equals ∈ skip
  · rw [if_pos heq]
    dsimp only
    obtain ⟨s', hadd, hs'⟩ := hs.dictAdd halloc hkey _
    exact ⟨s', by rw [hadd]; rfl, hs'⟩
  · rw [if_neg heq]
    exact ⟨s, rfl, hs⟩

/-- A line of a section whose keys do not start like those of modules. -/
theorem Outside.namedLine {s : LoadState} (hs : Outside dictHash s) (skip : CStr) {kind : CStr}
    (hkind : ∀ rest, isModuleKey ((kind ++ rest).take fullkeyMax) = false) :
    ∃ s', namedLine dictHash env kind skip s = some s' ∧ Outside dictHash s' := by
  rw [Rustyaxe.namedLine, splitSetting]
  by_cases heq : equals ∈ skip
  · rw [if_pos heq]
    dsimp only
    rw [List.append_assoc]
    obtain ⟨s', hadd, hs'⟩ := hs.dictAdd halloc (hkind _) _
    exact ⟨s', by rw [hadd]; rfl, hs'⟩
  · rw [if_neg heq]
    exact ⟨s, rfl, hs⟩

theorem Outside.plainLine {s : LoadState} (hs : Outside dictHash s) (skip : CStr) {kind : CStr}
    (hkind : ∀ rest, isModuleKey ((kind ++ rest).take fullkeyMax) = false) :
    ∃ s', plainLine dictHash env kind skip s = some s' ∧ Outside dictHash s' := by
  rw [Rustyaxe.plainLine, splitSetting]
  by_cases heq : equals ∈ skip
  · rw [if_pos heq]
    dsimp only
    split
    · exact ⟨s, rfl, hs⟩
    · obtain ⟨s', hadd, hs'⟩ := hs.dictAdd halloc (hkind _) _
      exact ⟨s', by rw [hadd]; rfl, hs'⟩
  · rw [if_neg heq]
    exact ⟨s, rfl, hs⟩

variable (henv : env.HasModules dictHash)
include henv

theorem Outside.sectionLine {s : LoadState} (hs : Outside dictHash s) (path : CStr) {b : BareLine}
    (hskip : isModuleKey b.skip = false) :
    ∃ s', sectionLine dictHash env path b s = some s' ∧ Outside dictHash s' := by
  rw [Rustyaxe.sectionLine]
  split_ifs
  · exact hs.generalLine halloc hskip
  · exact hs.namedLine halloc b.skip fun _ ↦ rfl
  · exact hs.namedLine halloc b.skip fun _ ↦ rfl
  · exact hs.plainLine halloc b.skip fun _ ↦ rfl
  · exact hs.plainLine halloc b.skip fun _ ↦ rfl
  · -- nobody has registered the section
    have hnone : (env.cfgCallbacks.any fun cb ↦ cb.handles env path s.thisSection) = false := by
      have hne : (s.thisSection == lit "modules") = false := beq_eq_false_iff_ne.mpr hs.thisSection
      rw [henv.callbacks, List.any_cons, List.any_nil, Bool.or_false, CfgCallback.handles,
        cfgModulesInit, henv.fnmatch, hne, Bool.false_and]
    rw [callbackLine, hnone, if_neg (by simp)]
    exact ⟨_, rfl, hs.built, hs.noModule, hs.inComment, hs.thisSection⟩

/-- **A line loads no module** unless it starts with `module:`, is a header for the section or an
include. -/
theorem Outside.loadLine {s : LoadState} (hs : Outside dictHash s) (loader : Option Loader)
    (path : CStr) {b : BareLine} (hskip : isModuleKey b.skip = false)
    (hinclude : includeKind b.skip = none)
    (hheader : b.skip.head? = some lbracket → sectionHeader b.skip ≠ lit "modules") :
    ∃ s', loadLine dictHash env loader path b s = some s' ∧ Outside dictHash s' := by
  rw [Rustyaxe.loadLine, hinclude]
  dsimp only
  split_ifs with _ _ _ hbrackets
  · exact ⟨s, rfl, hs⟩
  · exact ⟨s, rfl, hs⟩
  · exact ⟨s, rfl, hs⟩
  · exact ⟨_, rfl, hs.built, hs.noModule, hs.inComment, hheader hbrackets.1⟩
  · exact ⟨_, rfl, hs.built, hs.noModule, hs.inComment, hs.thisSection⟩
  · exact hs.sectionLine halloc henv path hskip

end Lines

/-! ## Passing over a file -/

/-- A run that reads these bytes outside the section goes on outside the section behind them. -/
def Passes (dictHash : CStr → UInt32) (env : LoadEnv) (bytes : List UInt8) : Prop :=
  ∀ (loader : Option Loader) (path : CStr) (file : List UInt8) (fuel : ℕ) (s : LoadState),
    Outside dictHash s → (bytes ++ file).length < fuel →
    ∃ fuel' t, file.length < fuel' ∧ Outside dictHash t ∧
      loadLines dictHash env loader path fuel (bytes ++ file) s
        = loadLines dictHash env loader path fuel' file t

theorem passes_nil : Passes dictHash env [] := fun _ _ _ fuel s hs hfuel ↦ ⟨fuel, s, hfuel, hs, rfl⟩

theorem Passes.append {bytes bytes' : List UInt8} (h : Passes dictHash env bytes)
    (h' : Passes dictHash env bytes') : Passes dictHash env (bytes ++ bytes') := by
  intro loader path file fuel s hs hfuel
  rw [List.append_assoc] at hfuel ⊢
  obtain ⟨fuel₁, t₁, hfuel₁, ht₁, hrun₁⟩ := h loader path (bytes' ++ file) fuel s hs hfuel
  obtain ⟨fuel₂, t₂, hfuel₂, ht₂, hrun₂⟩ := h' loader path file fuel₁ t₁ ht₁ hfuel₁
  exact ⟨fuel₂, t₂, hfuel₂, ht₂, hrun₁.trans hrun₂⟩

theorem Passes.flatMap {α : Type} {f : α → List UInt8} : ∀ {L : List α},
    (∀ x ∈ L, Passes dictHash env (f x)) → Passes dictHash env (L.flatMap f)
  | [], _ => passes_nil
  | x :: L, h => by
    rw [List.flatMap_cons]
    exact (h x List.mem_cons_self).append
      (Passes.flatMap fun y hy ↦ h y (List.mem_cons_of_mem _ hy))

/-- A run over a file that it passes ends outside the section. -/
theorem Passes.run {bytes : List UInt8} (h : Passes dictHash env bytes) (loader : Option Loader)
    (path : CStr) {fuel : ℕ} {s : LoadState} (hs : Outside dictHash s)
    (hfuel : bytes.length < fuel) :
    ∃ s', loadLines dictHash env loader path fuel bytes s = some s' ∧ Outside dictHash s' := by
  obtain ⟨fuel', t, -, ht, hrun⟩ := h loader path [] fuel s hs (by rwa [List.append_nil])
  rw [List.append_nil, loadLines_nil] at hrun
  exact ⟨t, hrun, ht⟩

/-- The bytes of a blank line. -/
theorem passes_newline : Passes dictHash env [newline] := by
  intro loader path file fuel s hs hfuel
  obtain ⟨fuel, rfl⟩ : ∃ m, fuel = m + 1 := ⟨fuel - 1, by omega⟩
  refine ⟨fuel, { s with inComment := false, line := s.line + 1 }, ?_,
    ⟨hs.built, hs.noModule, rfl, hs.thisSection⟩, ?_⟩
  · rw [List.singleton_append, List.length_cons] at hfuel
    omega
  · rw [List.singleton_append, loadLines, hs.inComment, readLogical_newline]

/-- The bytes of a header. -/
theorem passes_header {name : CStr} (hname : IsSectionName name) (hne : name ≠ lit "modules") :
    Passes dictHash env (lbracket :: name ++ [rbracket, newline]) := by
  intro loader path file fuel s hs hfuel
  obtain ⟨fuel, rfl⟩ : ∃ m, fuel = m + 1 := ⟨fuel - 1, by omega⟩
  have hbytes : lbracket :: name ++ [rbracket, newline] ++ file
      = lbracket :: name ++ [rbracket] ++ newline :: file := by simp
  refine ⟨fuel, { s with inComment := false, line := s.line + 1, thisSection := name }, ?_,
    ⟨hs.built, hs.noModule, rfl, hne⟩, ?_⟩
  · rw [List.length_append, List.cons_append, List.length_cons] at hfuel
    omega
  · rw [hbytes, loadLines, hs.inComment, readLogical_header hname]
    simp only [bareLine_header hname, loadLine_header hname]
    rfl

/-- A line that loads no module. -/
def IsQuietLine (r : Option BareLine × Bool) : Prop :=
  r.2 = false ∧ ∀ b, r.1 = some b → isModuleKey b.skip = false ∧ includeKind b.skip = none ∧
    (b.skip.head? = some lbracket → sectionHeader b.skip ≠ lit "modules")

/-- A line that loads no module, and what is behind it. -/
theorem passes_of_readLogical {bytes : List UInt8} (halloc : env.AllocOk)
    (henv : env.HasModules dictHash)
    (hread : ∀ file line, ∃ l line' rest, readLogical false line (bytes ++ file)
      = some (some l, line', rest ++ file) ∧ IsQuietLine (bareLine false l) ∧
        Passes dictHash env rest) : Passes dictHash env bytes := by
  intro loader path file fuel s hs hfuel
  obtain ⟨fuel, rfl⟩ : ∃ m, fuel = m + 1 := ⟨fuel - 1, by omega⟩
  obtain ⟨l, line', rest, hl, ⟨hcom, hquiet⟩, hrest⟩ := hread file s.line
  have hfuel' : (rest ++ file).length < fuel := by
    have hlt := length_readLogical hl
    omega
  have hs₁ : Outside dictHash { s with inComment := false, line := line' } :=
    ⟨hs.built, hs.noModule, rfl, hs.thisSection⟩
  rw [loadLines, hs.inComment, hl]
  dsimp only
  rw [hcom]
  cases hbare : (bareLine false l).1 with
  | none => exact hrest loader path file fuel _ hs₁ hfuel'
  | some b =>
    obtain ⟨hskip, hinclude, hheader⟩ := hquiet b hbare
    obtain ⟨s₂, hload, hs₂⟩ := hs₁.loadLine halloc henv loader path hskip hinclude hheader
    dsimp only
    rw [hload]
    exact hrest loader path file fuel s₂ hs₂ hfuel'

/-! ## Settings -/

/-- A text without blanks is left as it is. -/
theorem bareLine_solid {blanks s : CStr} (hblanks : ∀ c ∈ blanks, isspace c) (hs : IsOptionText s)
    (line : ℕ) : bareLine false ⟨blanks ++ s, ((blanks ++ s).takeWhile isspace).length, line⟩
      = (if isLineComment s then none else some ⟨blanks, s, false⟩, false) := by
  have htake : (blanks ++ s).takeWhile isspace = blanks := by
    rw [List.takeWhile_append_of_pos hblanks]
    cases s with
    | nil => simp
    | cons c s =>
      rw [List.takeWhile_cons_of_neg (by simp [(hs.solid c List.mem_cons_self).1]), List.append_nil]
  have hdrop : (blanks ++ s).dropWhile isspace = s := by
    rw [List.dropWhile_append_of_pos hblanks, hs.solid.dropWhile_isspace]
  have hesc : isEscapedComment s = false := by
    match s, hs.solid with
    | [], _ => rfl
    | [_], _ => rfl
    | b :: c :: rest, h => simp [isEscapedComment, (h b List.mem_cons_self).2.1]
  rw [bareLine, htake]
  dsimp only
  rw [List.drop_left, hesc]
  simp only [Bool.false_eq_true, if_false, hdrop, htake, stripComments_eq_self hs.no_comment,
    hs.solid.rdropWhile_isspace]
  cases isLineComment s <;> rfl

theorem IsOptionText.of_isInfix {s t : CStr} (hs : IsOptionText s) (h : t <:+: s) :
    IsOptionText t where
  solid := hs.solid.of_subset h.subset
  no_comment hwithin := hs.no_comment (hwithin.trans h)

/-- A line `key=text` is none of a module. -/
theorem IsLineKey.not_isModuleKey {key : CStr} (hk : IsLineKey key) (text : CStr) :
    isModuleKey (key ++ equals :: text) = false := by
  rw [Bool.eq_false_iff]
  intro h
  rw [isModuleKey, startsWith, List.isPrefixOf_iff_prefix] at h
  have hkey : key ++ [equals] <+: key ++ equals :: text := ⟨text, by simp⟩
  rcases List.prefix_or_prefix_of_prefix h hkey with h | h
  · have hcolon : colon ∈ key ++ [equals] := h.subset (by decide)
    rw [List.mem_append, List.mem_singleton] at hcolon
    rcases hcolon with hcolon | hcolon
    · exact isKeyChar.ne (hk.chars _ hcolon) (x := colon) (by decide) rfl
    · exact absurd hcolon (by decide)
  · exact absurd (h.subset (a := equals) (by simp)) (by decide)

/-- What is left of a text in a line of its own is too short to matter. -/
theorem isQuietLine_short {blanks s : CStr} (hblanks : ∀ c ∈ blanks, isspace c)
    (hs : IsOptionText s) (hlen : s.length < 7) (line : ℕ) :
    IsQuietLine (bareLine false ⟨blanks ++ s, ((blanks ++ s).takeWhile isspace).length, line⟩) := by
  rw [bareLine_solid hblanks hs]
  refine ⟨rfl, fun b hb ↦ ?_⟩
  dsimp only at hb
  split_ifs at hb
  obtain rfl := Option.some.inj hb
  dsimp only
  refine ⟨?_, ?_, fun _ h ↦ ?_⟩
  · rw [Bool.eq_false_iff]
    intro h
    rw [isModuleKey, startsWith, List.isPrefixOf_iff_prefix] at h
    have hle := h.length_le
    have hseven : (lit "module:").length = 7 := rfl
    omega
  · rw [includeKind, if_neg]
    rw [Bool.and_eq_true, startsWithCase, strcaseeq, beq_iff_eq]
    rintro ⟨h, -⟩
    have hle := congrArg List.length h
    have hseven : (lit "include").length = 7 := rfl
    rw [List.length_map, List.length_map, List.length_take, List.length_tail, hseven] at hle
    omega
  · have hle := congrArg List.length h
    have hseven : (lit "modules").length = 7 := rfl
    rw [sectionHeader, List.length_take, List.length_take, List.length_tail, hseven] at hle
    omega

section Settings

variable (halloc : env.AllocOk) (henv : env.HasModules dictHash)
include halloc henv

theorem passes_leftOver {key w : CStr} (hk : IsLineKey key) (hkey : wrapIndent key + 14 < cfgBufSize)
    (hw : IsOptionText w) (hlen : w.length < 7) {bytes : List UInt8} (hleft : LeftOver key w bytes) :
    Passes dictHash env bytes := by
  rcases hleft with ⟨-, rfl⟩ | ⟨hne, m, hm, rfl⟩
  · exact passes_nil
  · refine passes_of_readLogical halloc henv fun file line ↦ ?_
    obtain ⟨s, w', bytes', line', hread, hs, -, hleft, hbound⟩ :=
      readLogical_wrapLoop hk (by omega) hw.solid false (.inr hne) hm file line
    refine ⟨_, line', bytes', hread, ?_, ?_⟩
    · exact isQuietLine_short (fun c hc ↦ by rw [(List.mem_replicate.mp hc).2]; decide)
        (hw.of_isInfix hs.isInfix) (hs.length_le.trans_lt hlen) line'
    · rcases hleft with ⟨-, rfl⟩ | ⟨hne', -⟩
      · exact passes_nil
      · have hbound := hbound hne'
        omega

/-- **The lines of a setting**, even one that is cut. -/
theorem passes_cfgWriteWrapped {key v : CStr} (hk : IsLineKey key)
    (hkey : wrapIndent key + 14 < cfgBufSize) (hv : IsOptionText v)
    (hlen : wrapIndent key + v.length < cfgBufSize + 6) :
    Passes dictHash env (cfgWriteWrapped key (some v)) := by
  refine passes_of_readLogical halloc henv fun file line ↦ ?_
  obtain ⟨s, w, bytes, line', hread, hs, hw, hleft, hbound⟩ :=
    readLogical_wrapLoop hk (by omega) hv.solid true (.inl rfl)
      (Nat.lt_succ_self v.length) file line
  have hlead : wrapLead key true ++ s = key ++ equals :: s := by
    rw [wrapLead, if_pos rfl, List.append_assoc, List.singleton_append]
  obtain ⟨c, rest, hcons, hc⟩ := hk.exists_cons s
  have htake : (key ++ equals :: s).takeWhile isspace = [] := by
    rw [hcons, List.takeWhile_cons_of_neg (by simp [startsLine.isspace hc])]
  rw [hlead, htake] at hread
  refine ⟨_, line', bytes, hread, ?_, ?_⟩
  · rw [List.length_nil, hk.bareLine_eq, stripComments_eq_self (hv.of_isInfix hs.isInfix).no_comment,
      (hv.solid.of_subset hs.subset).rdropWhile_isspace]
    refine ⟨rfl, fun b hb ↦ ?_⟩
    obtain rfl := Option.some.inj hb
    refine ⟨hk.not_isModuleKey s, hk.includeKind_eq s, fun h ↦ ?_⟩
    rw [hcons, List.head?_cons, Option.some.injEq] at h
    exact absurd h (startsLine.ne hc (by decide))
  · by_cases hnil : w = []
    · rcases hleft with ⟨-, rfl⟩ | ⟨hne, -⟩
      · exact passes_nil
      · exact absurd hnil hne
    · have hbound := hbound hnil
      exact passes_leftOver halloc henv hk hkey (hv.of_isInfix hw.isInfix) (by omega) hleft

/-! ## The saved file -/

/-- The entry has a value that a line `localKey=…` has room for. -/
structure FitsLine (localKey : CStr) (x : SaveEntry) : Prop where
  lineKey : IsLineKey localKey
  indent_lt : wrapIndent localKey + 14 < cfgBufSize
  value : ∃ v, x.value = some v ∧ IsOptionText v ∧ wrapIndent localKey + v.length < cfgBufSize + 6

theorem passes_settings (keyPrefix : CStr) (localOf : SaveEntry → CStr) {L : List SaveEntry}
    (h : ∀ x ∈ L, FitsLine (localOf x) x) : Passes dictHash env
      (fileBytes (L.map fun x ↦ .setting keyPrefix x.key (localOf x) x.value)) := by
  rw [fileBytes, List.flatMap_map]
  refine Passes.flatMap fun x hx ↦ ?_
  obtain ⟨hk, hindent, v, hv, htext, hlen⟩ := h x hx
  rw [SavePiece.text, hv]
  exact passes_cfgWriteWrapped halloc henv hk hindent htext hlen

/-- The options of a module. -/
def IsModuleEntry (x : SaveEntry) : Prop := ∃ l, x.key = lit "module:" ++ l ∧ FitsLine l x

/-- The modules are written below the header `[module]`. -/
theorem passes_printSections : ∀ (fuel : ℕ) {L : List SaveEntry}, (∀ x ∈ L, IsModuleEntry x) →
    Passes dictHash env (fileBytes (printSections fuel L))
  | 0, _, _ => passes_nil
  | _ + 1, [], _ => passes_nil
  | fuel + 1, e :: rest, h => by
    have hmodule : colon ∉ lit "module" := by decide
    have hcolon : ∀ x ∈ e :: rest, strchr colon x.key = some 6 := fun x hx ↦ by
      obtain ⟨l, hkey, -⟩ := h x hx
      rw [hkey]
      exact strchr_append hmodule l
    obtain ⟨l, hkey, -⟩ := h e List.mem_cons_self
    have hgroup : ∀ x ∈ e :: rest, cfgSaveEntrySameSection x x.key 6 = true := fun x hx ↦
      (cfgSaveEntrySameSection_self x 6).mpr (hcolon x hx)
    have htake : (e :: rest).takeWhile (fun x ↦ cfgSaveEntrySameSection x x.key 6) = e :: rest :=
      List.takeWhile_eq_self_iff.mpr hgroup
    have hdrop : (e :: rest).dropWhile (fun x ↦ cfgSaveEntrySameSection x x.key 6) = [] :=
      List.dropWhile_eq_nil_iff.mpr hgroup
    have hnil : printSections fuel [] = [] := by cases fuel <;> rfl
    rw [printSections_section fuel rest hmodule (by decide) hkey, if_neg (by decide),
      show (lit "module").length = 6 from rfl, htake, hdrop, hnil, List.append_nil]
    have hheader : IsSectionName (lit "module") := ⟨by decide, by decide +kernel, by decide⟩
    have hlines := passes_settings halloc henv (lit "module:") (fun x ↦ x.key.drop 7)
      (L := e :: rest) fun x hx ↦ by
        obtain ⟨l, hkey, hfits⟩ := h x hx
        rw [hkey]
        exact hfits
    have hbytes := (passes_newline.append (passes_header hheader (by decide))).append hlines
    rw [List.append_assoc] at hbytes
    exact hbytes

/-- **The saved entries load no module.** -/
theorem passes_printEntries {entries : List SaveEntry}
    (hsorted : entries.Pairwise fun a b ↦ a.sortKey ≤ b.sortKey)
    (hentries : ∀ x ∈ entries, FitsLine x.key x ∨ IsModuleEntry x) :
    Passes dictHash env (fileBytes (printEntries entries)) := by
  have hgeneral : ∀ x ∈ entries.takeWhile fun e ↦ (strchr colon e.key).isNone, FitsLine x.key x := by
    intro x hx
    have hnone := List.mem_takeWhile_imp
      (p := fun e : SaveEntry ↦ (strchr colon e.key).isNone) hx
    refine (hentries x ((List.takeWhile_sublist _).mem hx)).resolve_right ?_
    rintro ⟨l, hkey, -⟩
    simp [hkey, strchr, lit, colon] at hnone
  have hmodules : ∀ x ∈ entries.dropWhile fun e ↦ (strchr colon e.key).isNone, IsModuleEntry x := by
    intro x hx
    refine (hentries x ((List.dropWhile_sublist _).mem hx)).resolve_left fun hfits ↦ ?_
    have hcolon := colon_of_mem_dropWhile hsorted hx
    rw [strchr] at hcolon
    split_ifs at hcolon with hmem
    · exact isKeyChar.ne (hfits.lineKey.chars _ hmem) (x := colon) (by decide) rfl
    · cases hcolon
  have hheader : IsSectionName (lit "general") := ⟨by decide, by decide +kernel, by decide⟩
  have hbytes := ((passes_header hheader (by decide)).append
    (passes_settings halloc henv [] SaveEntry.key hgeneral)).append
      (passes_printSections halloc henv entries.length hmodules)
  rw [printEntries, printGeneral, fileBytes, List.flatMap_append, List.flatMap_cons]
  have htext : (SavePiece.header [] (lit "general")).text
      = lbracket :: lit "general" ++ [rbracket, newline] := rfl
  rw [htext]
  exact hbytes

end Settings

/-! ## Saving and loading again -/

/-- The defaults are settings of `[general]`, each of which fits on a line. -/
structure IsPlainDefaults (dictHash : CStr → UInt32) (defaults : Dict) : Prop where
  coherent : Coherent dictHash defaults
  setting : ∀ key v, defaults.toMap key = some v → ∃ text, v = .str (some text) ∧ IsLineKey key ∧
    IsOptionText text ∧ wrapIndent key + text.length + 14 < cfgBufSize

/-- The section is loaded, saved by `cfg_save` and loaded again, and `cfg_modules_get` enumerates
the same modules with the same options. -/
def ModulesSurvive (dictHash : CStr → UInt32) (senv : SaveEnv) (lenv : LoadEnv) (fs : FileSystem)
    (source path : CStr) (items : List (CStr × CStr)) : Prop :=
  ∃ d fs' file d', cfgLoad dictHash (lenv.withFile source (modulesText items)) source = some (some d) ∧
    cfgSave dictHash senv fs d path = some (true, fs') ∧ fs' path = some file ∧
    cfgLoad dictHash (lenv.withFile path (fileBytes file)) path = some (some d') ∧
    modulesOf d' = modulesOf d

/-- The entries of a configuration that consists of modules. -/
structure IsModulesCfg (d : Dict) : Prop where
  entry : ∀ key v, d.toMap key = some v → ∃ l text, key = lit "module:" ++ l ∧
    v = .str (some text) ∧ FitsLine l ⟨key, some text⟩

/-- What a section is loaded as consists of modules. -/
theorem isModulesCfg_of_items {d : Dict} {items : List (CStr × CStr)}
    (hitems : IsModulesSection items)
    (hmap : d.toMap = lastValue ((items.filterMap storedModule).map storedAs)) :
    IsModulesCfg d := by
  refine ⟨fun key v hv ↦ ?_⟩
  rw [hmap] at hv
  obtain ⟨⟨k, text⟩, hmem, heq⟩ := List.mem_map.mp (mem_of_lastValue hv)
  obtain ⟨rfl, rfl⟩ := Prod.mk.injEq .. ▸ heq
  obtain ⟨⟨name, options⟩, hitem, hstored⟩ := List.mem_filterMap.mp hmem
  rw [storedModule] at hstored
  split_ifs at hstored with hshort
  obtain ⟨rfl, rfl⟩ := Prod.mk.injEq .. ▸ Option.some.inj hstored
  obtain ⟨hsimple, hle⟩ := (hitems.name _ hitem).dropSo_spec
  have hlen := hitems.length_lt _ hitem
  dsimp only at hshort hlen hle
  have height : (lit ".options").length = 8 := rfl
  have hbuf : cfgBufSize = 32768 := rfl
  rw [moduleNameSize] at hshort
  refine ⟨dropSo name ++ lit ".options", options, by rw [moduleKey, List.append_assoc], rfl,
    hsimple.isLineKey (by decide +kernel), ?_, options, rfl, hitems.options _ hitem, ?_⟩
  · rw [wrapIndent, List.length_append, height]
    omega
  · rw [wrapIndent, List.length_append, height]
    omega

section Main

variable {senv : SaveEnv} {fs : FileSystem} {path : CStr} {defaults : Dict}
  (hsenv : senv.Succeeds fs path) (hdefault : senv.defaultCfg = some defaults)
  (hplain : IsPlainDefaults dictHash defaults) (hcallbacks : senv.cfgSaveCallbacks = [])
include hsenv hdefault hplain hcallbacks

/-- What `cfg_save` writes for modules. -/
theorem cfgSave_modules {d : Dict} (hd : Coherent dictHash d) (hmodules : IsModulesCfg d) :
    ∃ (fs' : FileSystem) (entries : List SaveEntry),
      cfgSave dictHash senv fs d path = some (true, fs') ∧
      fs' path = some (printEntries (sortEntries entries)) ∧
      ∀ x ∈ entries, FitsLine x.key x ∨ IsModuleEntry x := by
  obtain ⟨fs₁, hfs₁⟩ := Option.isSome_iff_exists.mp hsenv.backUp
  obtain ⟨merged, hmerged, hmap, hsome⟩ :=
    dictMergeNew_spec hplain.coherent hd senv.mergeCalloc senv.mergeMemA senv.mergeMemB
  obtain ⟨m, rfl⟩ := Option.isSome_iff_exists.mp
    (hsome hsenv.mergeCalloc hsenv.mergeMemA hsenv.mergeMemB)
  obtain ⟨hbuilt, hmap⟩ := hmap m rfl
  obtain ⟨entries, hentries⟩ := Option.isSome_iff_exists.mp
    (collectEntries_isSome hsenv.realloc (dictEnumerateAll m) 0 0 0)
  have hsave : saveEntries senv (some m) = some entries := hentries
  have hmem := (saveEntries_spec hbuilt.toCoherent hsave).2
  -- no key is one of a server
  have hservers : cfgPrintServers dictHash senv d = some [] := by
    obtain ⟨names, hnames, hsound, -⟩ := cfgPrintServers_spec dictHash senv d
    have hnil : names = [] := List.eq_nil_iff_forall_not_mem.mpr fun name hname ↦ by
      obtain ⟨kp, hkp, hguess⟩ := hsound name hname
      rw [dictEnumerateAll_eq] at hkp
      obtain ⟨l, text, hkey, -⟩ := hmodules.entry _ _ (hd.toMap_of_mem hkp)
      have hstart := hguess.1
      rw [hkey] at hstart
      cases hstart
    rw [hnames, hnil]
    rfl
  refine ⟨Function.update fs₁ path _, entries, ?_, Function.update_self .., fun x hx ↦ ?_⟩
  · have hcfg : mergedCfg dictHash senv d true = some (some m) := by
      rw [mergedCfg, if_pos rfl, hdefault]
      exact hmerged
    rw [cfgSave, cfgSaveValues, hfs₁]
    simp only [hsenv.fopen, if_true, hcfg, Option.bind_eq_bind, Option.bind_some, hsave, hservers]
    rw [landed_eq_self hsenv.lost, savePieces, if_pos rfl, cfgRunSaveCallbacks, hcallbacks,
      List.map_nil, List.append_nil, List.append_nil]
    rfl
  · obtain ⟨-, v, hv, htext⟩ := (hmem x.key x.value).mp hx
    rw [hmap, Option.or_eq_some_iff] at hv
    rcases hv with hv | ⟨-, hv⟩
    · obtain ⟨l, text, hkey, rfl, hfits⟩ := hmodules.entry _ _ hv
      exact .inr ⟨l, hkey, hfits.lineKey, hfits.indent_lt, text, htext.symm, by
        obtain ⟨v, hv, h⟩ := hfits.value
        exact Option.some.inj hv ▸ h⟩
    · obtain ⟨text, rfl, hk, ht, hlen⟩ := hplain.setting _ _ hv
      exact .inl ⟨hk, by omega, text, htext.symm, ht, by omega⟩

/-- **Modules survive only if none has been loaded**, because each of their names is too long. -/
theorem modulesSurvive_iff {lenv : LoadEnv} (hlenv : lenv.AllocOk)
    (hmodules : lenv.HasModules dictHash) (source : CStr) {items : List (CStr × CStr)}
    (hitems : IsModulesSection items) :
    ModulesSurvive dictHash senv lenv fs source path items ↔
      ∀ item ∈ items, moduleNameSize ≤ item.1.length := by
  obtain ⟨d, hload, hd, hmap⟩ := cfgLoad_modulesText hlenv hmodules source hitems
  obtain ⟨fs', entries, hsave, hfile, hentries⟩ := cfgSave_modules hsenv hdefault hplain hcallbacks hd
    (isModulesCfg_of_items hitems hmap)
  -- whatever has been saved, no module is loaded again
  have hquiet : ∃ d', cfgLoad dictHash (lenv.withFile path
      (fileBytes (printEntries (sortEntries entries)))) path = some (some d') ∧
      modulesOf d' = ∅ := by
    have halloc : (lenv.withFile path (fileBytes (printEntries (sortEntries entries)))).AllocOk :=
      ⟨hlenv.calloc, hlenv.mem⟩
    have hpasses := passes_printEntries halloc ⟨hmodules.callbacks, hmodules.fnmatch⟩
      (sortedEntries entries) fun x hx ↦ hentries x ((List.mem_insertionSort _).mp hx)
    have hstart : Outside dictHash ⟨dictNew, [], false, 0, 0, 1⟩ :=
      ⟨built_dictNew, fun _ _ ↦ rfl, rfl, by decide⟩
    obtain ⟨s', hrun, hs'⟩ := hpasses.run _ path hstart (Nat.lt_succ_self _)
    refine ⟨s'.newcfg, ?_, (modulesOf_eq_empty_iff hs'.built.toCoherent).mpr hs'.noModule⟩
    rw [cfgLoad_withFile hlenv, hrun]
    rfl
  obtain ⟨d', hreload, hnone⟩ := hquiet
  constructor
  · rintro ⟨d₁, fs₁, file, d₂, hload₁, hsave₁, hfile₁, hreload₁, hsame⟩ item hitem
    obtain rfl : d = d₁ := by simpa [hload] using hload₁
    obtain rfl : fs' = fs₁ := by simpa [hsave] using hsave₁
    obtain rfl := Option.some.inj (hfile.symm.trans hfile₁)
    obtain rfl : d' = d₂ := by simpa [hreload] using hreload₁
    by_contra hshort
    rw [hnone, eq_comm, modulesOf_eq_empty_iff hd] at hsame
    have hkey := hsame _ (isModuleKey_moduleKey (dropSo item.1))
    have hstored : storedModule item = some (moduleKey (dropSo item.1), item.2) :=
      if_pos (Nat.not_le.mp hshort)
    have hsome := lastValue_isSome_of_mem (List.mem_map_of_mem (f := storedAs)
      (List.mem_filterMap.mpr ⟨item, hitem, hstored⟩))
    rw [← hmap] at hsome
    rw [hkey] at hsome
    cases hsome
  · intro hlong
    refine ⟨d, fs', _, d', hload, hsave, hfile, hreload, ?_⟩
    rw [hnone, eq_comm, modulesOf_eq_empty_iff hd]
    intro key _
    have hnil : items.filterMap storedModule = [] := List.filterMap_eq_nil_iff.mpr fun item hitem ↦
      if_neg (Nat.not_lt.mpr (hlong item hitem))
    rw [hmap, hnil]
    rfl

end Main

/-! ## One module -/

/-- A disk on which everything succeeds, and no defaults. -/
def modulesSaveEnv : SaveEnv := { writableEnv with defaultCfg := some dictNew }

/-- A world in which `cfg_modules_init` is the only registration. -/
def modulesLoadEnv : LoadEnv :=
  { bareEnv with
    fnmatch := fun pattern string ↦ string == pattern
    cfgCallbacks := [cfgModulesInit dictHashMurmur] }

/-- The section `[modules]` with one module. -/
def gtkModule : List (CStr × CStr) := [(lit "gtk.so", lit "a=b")]

theorem isModulesSection_gtkModule : IsModulesSection gtkModule where
  nodup := by decide
  name item hitem := by
    obtain rfl := List.mem_singleton.mp hitem
    exact ⟨lit "gtk", ⟨by decide, by decide +kernel⟩, .inr rfl⟩
  options item hitem := by
    obtain rfl := List.mem_singleton.mp hitem
    exact ⟨by rw [IsSolid]; decide +kernel, by decide +kernel⟩
  length_lt item hitem := by
    obtain rfl := List.mem_singleton.mp hitem
    decide +kernel

theorem modulesSurvive_iff_gtkModule :
    ModulesSurvive dictHashMurmur modulesSaveEnv modulesLoadEnv (fun _ ↦ none) (lit "a.cfg")
        (lit "b.cfg") gtkModule ↔ ∀ item ∈ gtkModule, moduleNameSize ≤ item.1.length :=
  modulesSurvive_iff ⟨rfl, rfl, rfl, fun _ ↦ rfl, fun _ ↦ rfl, fun _ ↦ rfl, fun _ ↦ rfl⟩
    (show modulesSaveEnv.defaultCfg = some dictNew from rfl)
    ⟨built_dictNew.toCoherent, fun key v h ↦ by cases h⟩ rfl ⟨fun _ ↦ rfl, fun _ ↦ rfl⟩ ⟨rfl, fun _ ↦ rfl⟩ (lit "a.cfg") isModulesSection_gtkModule

/-- `gtk.so=a=b` is saved as `gtk.options=a=b` below `[module]`. -/
theorem not_modulesSurvive_gtkModule :
    ¬ ModulesSurvive dictHashMurmur modulesSaveEnv modulesLoadEnv (fun _ ↦ none) (lit "a.cfg")
      (lit "b.cfg") gtkModule := by
  rintro ⟨d, fs', file, d', hload, hsave, hfile, hreload, hsame⟩
  have hbytes : ((cfgLoad dictHashMurmur (modulesLoadEnv.withFile (lit "a.cfg")
      (modulesText gtkModule)) (lit "a.cfg")).bind fun r ↦ r.bind fun d ↦
        (cfgSave dictHashMurmur modulesSaveEnv (fun _ ↦ none) d (lit "b.cfg")).bind fun r ↦
          (r.2 (lit "b.cfg")).map fileBytes)
      = some (lit "[general]\n\n[module]\ngtk.options=a=b\n") := by
    decide +kernel
  have hbefore : (cfgLoad dictHashMurmur (modulesLoadEnv.withFile (lit "a.cfg")
      (modulesText gtkModule)) (lit "a.cfg")).map (fun r ↦ r.map fun d ↦ cfgModulesGet d 0)
      = some (some (some (lit "gtk", lit "a=b"))) := by
    decide +kernel
  have hafter : (cfgLoad dictHashMurmur (modulesLoadEnv.withFile (lit "b.cfg")
      (lit "[general]\n\n[module]\ngtk.options=a=b\n")) (lit "b.cfg")).map
        (fun r ↦ r.map fun d ↦ d.entries) = some (some []) := by
    decide +kernel
  rw [hload, Option.bind_some, Option.bind_some, hsave, Option.bind_some] at hbytes
  dsimp only at hbytes
  rw [hfile, Option.map_some, Option.some.injEq] at hbytes
  rw [hbytes] at hreload
  rw [hload] at hbefore
  rw [hreload] at hafter
  have hmem : (lit "gtk", lit "a=b") ∈ modulesOf d := ⟨0, by simpa using hbefore⟩
  rw [← hsame, mem_modulesOf] at hmem
  obtain ⟨kp, hkp, -⟩ := hmem
  have hnil : d'.entries = [] := by simpa using hafter
  simp [hnil] at hkp

end Rustyaxe
