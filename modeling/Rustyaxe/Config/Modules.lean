import Rustyaxe.Config.BlankFree
import Rustyaxe.Config.SaveLoad

/-!
# The modules section

`cfg.modules.c`.  The callback that `cfg_modules_init` registers stores a line `name=options` of
`[modules]` under `module:NAME.options`, and `cfg_modules_get` enumerates these keys
(`cfgModulesGet_eq`).  What a section of simple names is loaded as is `cfgLoad_modulesText`: a name
that does not fit into `name` is left out.
-/

set_option autoImplicit false

namespace Rustyaxe

open Assignments

/-! ## The callback -/

/-- `sizeof(name)` and `sizeof(namebuf)` -/
def moduleNameSize : ℕ := 128

/-- `sizeof(fullkey)` -/
def moduleKeySize : ℕ := 160

/-- `snprintf(fullkey, …, "module:%s.options", name)` -/
def moduleKey (name : CStr) : CStr := lit "module:" ++ name ++ lit ".options"

/-- The name without `.so` at its end, if something is left. -/
def dropSo (name : CStr) : CStr :=
  if 3 < name.length ∧ name.drop (name.length - 3) = lit ".so" then name.take (name.length - 3)
  else name

section Callback

variable (dictHash : CStr → UInt32)

/-- `cfg_modules_section_cb`, where `strdup` and `mem` are the outcomes of its allocations. -/
def cfgModulesSectionCb (strdup : Bool) (mem : StoreAlloc) (_path : CStr) (_line : ℕ)
    (sectionName buf : CStr) (cfg : Dict) : Option (Bool × Dict) :=
  if sectionName ≠ lit "modules" then some (false, cfg)
  else if !strdup then some (false, cfg)
  else if equals ∉ buf then some (false, cfg)
  else
    let key := ((buf.takeWhile (· ≠ equals)).rdropWhile isspace).dropWhile isspace
    let value := ((buf.dropWhile (· ≠ equals)).tail.dropWhile isspace).rdropWhile isspace
    if key = [] then some (false, cfg)
    else if moduleNameSize ≤ key.length then some (false, cfg)
    else
      let fullkey := moduleKey (dropSo key)
      if moduleKeySize ≤ fullkey.length then some (false, cfg)
      else dictAdd dictHash mem cfg fullkey (some value)

/-- What `cfg_modules_init` registers. -/
def cfgModulesInit : CfgCallback where
  path := none
  sectionName := lit "modules"
  callback := cfgModulesSectionCb dictHash true .ok

end Callback

/-! ## The enumeration -/

/-- Is it the key of a module? -/
def isModuleKey (key : CStr) : Bool := startsWith (lit "module:") key

/-- A module of a section is stored under the key of a module. -/
theorem isModuleKey_moduleKey (name : CStr) : isModuleKey (moduleKey name) = true := rfl

/-- What `cfg_modules_get` returns for an entry: the name of the module and its options. -/
def moduleOf (kp : Keypair) : CStr × CStr :=
  let name := kp.key.drop 7
  let len := (strstr (lit ".options") name).getD name.length
  (name.take (if moduleNameSize ≤ len then moduleNameSize - 1 else len),
    (enumerateValue kp.value).getD [])

/-- The loop of `cfg_modules_get`. -/
def cfgModulesGetLoop (index : ℕ) : List Keypair → (seen : ℕ) → Option (CStr × CStr)
  | [], _ => none
  | kp :: rest, seen =>
    if !isModuleKey kp.key then cfgModulesGetLoop index rest seen
    else if seen < index then cfgModulesGetLoop index rest (seen + 1)
    else some (moduleOf kp)

/-- `cfg_modules_get` -/
def cfgModulesGet (cfg : Dict) (index : ℕ) : Option (CStr × CStr) :=
  cfgModulesGetLoop index (dictEnumerateAll cfg) 0

/-- The modules that `cfg_modules_get` enumerates, with their options. -/
def modulesOf (cfg : Dict) : Set (CStr × CStr) := {m | ∃ index, cfgModulesGet cfg index = some m}

theorem cfgModulesGetLoop_eq (index : ℕ) : ∀ (L : List Keypair) (seen : ℕ), seen ≤ index →
    cfgModulesGetLoop index L seen
      = (L.filter fun kp ↦ isModuleKey kp.key)[index - seen]?.map moduleOf
  | [], _, _ => rfl
  | kp :: rest, seen, hseen => by
    rw [cfgModulesGetLoop, List.filter_cons]
    cases isModuleKey kp.key with
    | false => exact cfgModulesGetLoop_eq index rest seen hseen
    | true =>
      simp only [Bool.not_true, Bool.false_eq_true, if_false, if_true]
      split
      · next hlt =>
        have hsub : index - seen = index - (seen + 1) + 1 := by omega
        rw [hsub, List.getElem?_cons_succ]
        exact cfgModulesGetLoop_eq index rest (seen + 1) hlt
      · next hge =>
        have hsub : index - seen = 0 := by omega
        rw [hsub, List.getElem?_cons_zero, Option.map_some]

/-- **`cfg_modules_get` numbers the entries of the modules.** -/
theorem cfgModulesGet_eq (cfg : Dict) (index : ℕ) : cfgModulesGet cfg index
    = ((dictEnumerateAll cfg).filter fun kp ↦ isModuleKey kp.key)[index]?.map moduleOf :=
  cfgModulesGetLoop_eq index _ 0 (Nat.zero_le _)

theorem mem_modulesOf {cfg : Dict} {m : CStr × CStr} :
    m ∈ modulesOf cfg ↔ ∃ kp ∈ cfg.entries, isModuleKey kp.key ∧ moduleOf kp = m := by
  rw [modulesOf, Set.mem_ofPred_eq]
  simp only [cfgModulesGet_eq, Option.map_eq_some_iff, dictEnumerateAll_eq]
  constructor
  · rintro ⟨index, kp, hkp, hm⟩
    obtain ⟨hmem, hkey⟩ := List.mem_filter.mp (List.mem_of_getElem? hkp)
    exact ⟨kp, hmem, hkey, hm⟩
  · rintro ⟨kp, hmem, hkey, hm⟩
    obtain ⟨index, hindex⟩ := List.mem_iff_getElem?.mp
      (List.mem_filter (p := fun kp ↦ isModuleKey kp.key).mpr ⟨hmem, hkey⟩)
    exact ⟨index, kp, hindex, hm⟩

/-- No module is enumerated if and only if none is stored. -/
theorem modulesOf_eq_empty_iff {dictHash : CStr → UInt32} {cfg : Dict}
    (hcfg : Coherent dictHash cfg) :
    modulesOf cfg = ∅ ↔ ∀ key, isModuleKey key = true → cfg.toMap key = none := by
  rw [Set.eq_empty_iff_forall_notMem]
  constructor
  · intro h key hkey
    by_contra hne
    obtain ⟨v, hv⟩ := Option.ne_none_iff_exists'.mp hne
    obtain ⟨kp, hkp, rfl, -⟩ := Dict.exists_mem_of_toMap hv
    exact h _ (mem_modulesOf.mpr ⟨kp, hkp, hkey, rfl⟩)
  · intro h m hm
    obtain ⟨kp, hkp, hkey, -⟩ := mem_modulesOf.mp hm
    have hnone := h _ hkey
    rw [hcfg.toMap_of_mem hkp] at hnone
    cases hnone

/-! ## Sections of simple names -/

/-- Letters, digits, `'-'` and `'_'`. -/
def IsSimpleName (name : CStr) : Prop :=
  name ≠ [] ∧ ∀ c ∈ name, isalnum c || c == minus || c == 0x5f

/-- A simple name, with or without `.so`. -/
def IsModuleName (name : CStr) : Prop :=
  ∃ base, IsSimpleName base ∧ (name = base ∨ name = base ++ lit ".so")

/-- A text without blanks, backslashes and `/*`. -/
structure IsOptionText (s : CStr) : Prop where
  solid : IsSolid s
  no_comment : ¬ [slash, star] <:+: s

/-- The names of a `[modules]` section, with their options. -/
structure IsModulesSection (items : List (CStr × CStr)) : Prop where
  nodup : (items.map Prod.fst).Nodup
  name : ∀ item ∈ items, IsModuleName item.1
  options : ∀ item ∈ items, IsOptionText item.2
  /-- `cfg_load` reads a line as one only if it fits into the buffer, with the end of the line. -/
  length_lt : ∀ item ∈ items, item.1.length + 1 + item.2.length + 2 < cfgBufSize

/-- A line of the section. -/
def moduleLine (item : CStr × CStr) : List UInt8 := item.1 ++ equals :: item.2 ++ [newline]

/-- The section, as it stands in a file. -/
def modulesText (items : List (CStr × CStr)) : List UInt8 :=
  lit "[modules]\n" ++ items.flatMap moduleLine

/-- What is stored for a line of the section. -/
def storedModule (item : CStr × CStr) : Option (CStr × CStr) :=
  if item.1.length < moduleNameSize then some (moduleKey (dropSo item.1), item.2) else none

theorem IsSimpleName.isKeyChar {name : CStr} (h : IsSimpleName name) :
    ∀ c ∈ name, isKeyChar c ∧ c ≠ dot ∧ tolower c ≠ dot := by
  intro c hc
  have hchar := h.2 c hc
  revert hchar
  refine forall_byte ?_ c
  decide +kernel

theorem IsSimpleName.isLineKey {name : CStr} (h : IsSimpleName name) {suffix : CStr}
    (hsuffix : ∀ c ∈ suffix, Rustyaxe.isKeyChar c) : IsLineKey (name ++ suffix) where
  chars c hc := (List.mem_append.mp hc).elim (fun hc ↦ (h.isKeyChar c hc).1) (hsuffix c)
  not_include hinclude := by
    obtain ⟨c, rest, rfl⟩ := List.exists_cons_of_ne_nil h.1
    exact (h.isKeyChar c (by simp)).2.2 (List.cons.inj hinclude).1

theorem IsSimpleName.dropSo_eq {base name : CStr} (h : IsSimpleName base)
    (hname : name = base ∨ name = base ++ lit ".so") : dropSo name = base := by
  rcases hname with rfl | rfl
  · rw [dropSo, if_neg]
    rintro ⟨-, hso⟩
    have hdot : dot ∈ name.drop (name.length - 3) := by
      rw [hso]
      decide
    exact (h.isKeyChar dot (List.mem_of_mem_drop hdot)).2.1 rfl
  · have hlen : (base ++ lit ".so").length = base.length + 3 := List.length_append
    have hpos := List.length_pos_iff.mpr h.1
    rw [dropSo, hlen, Nat.add_sub_cancel, List.drop_left, List.take_left, if_pos ⟨by omega, rfl⟩]

theorem IsModuleName.isLineKey {name : CStr} (h : IsModuleName name) : IsLineKey name := by
  obtain ⟨base, hbase, rfl | rfl⟩ := h
  · rw [← List.append_nil name]
    exact hbase.isLineKey (by simp)
  · exact hbase.isLineKey (by decide +kernel)

theorem IsModuleName.dropSo_spec {name : CStr} (h : IsModuleName name) :
    IsSimpleName (dropSo name) ∧ (dropSo name).length ≤ name.length := by
  obtain ⟨base, hbase, hname⟩ := h
  rw [hbase.dropSo_eq hname]
  refine ⟨hbase, ?_⟩
  rcases hname with rfl | rfl
  · exact le_rfl
  · simp

/-! ## Loading the section -/

section Load

variable {dictHash : CStr → UInt32}

/-- `cfg_modules_init` is the only registration, and its pattern matches itself only. -/
structure LoadEnv.HasModules (dictHash : CStr → UInt32) (env : LoadEnv) : Prop where
  callbacks : env.cfgCallbacks = [cfgModulesInit dictHash]
  fnmatch : ∀ s, env.fnmatch (lit "modules") s = (s == lit "modules")

/-- **A line of the section** is stored if the name fits into `name`. -/
theorem cfgModulesSectionCb_spec {item : CStr × CStr} (hname : IsModuleName item.1)
    (hoptions : IsOptionText item.2) (path : CStr) (line : ℕ) {d : Dict} (hd : Built dictHash d) :
    ∃ ok d', cfgModulesSectionCb dictHash true .ok path line (lit "modules")
        (item.1 ++ equals :: item.2) d = some (ok, d') ∧ Built dictHash d' ∧
      d'.toMap = overlay d.toMap ((storedModule item).toList.map storedAs) := by
  obtain ⟨name, options⟩ := item
  dsimp only at hname hoptions
  have hkey := hname.isLineKey
  have hchars : ∀ c ∈ name, decide (c ≠ equals) = true := fun c hc ↦
    decide_eq_true (isKeyChar.ne (hkey.chars c hc) (by decide))
  have htake : (name ++ equals :: options).takeWhile (fun c ↦ decide (c ≠ equals)) = name :=
    takeWhile_append_cons hchars (by simp) options
  have hdrop : (name ++ equals :: options).dropWhile (fun c ↦ decide (c ≠ equals))
      = equals :: options := by
    rw [List.dropWhile_append_of_pos hchars, List.dropWhile_cons_of_neg (by simp)]
  have hsolid : IsSolid name := isSolid_of_isKeyChar hkey.chars
  have hne : name ≠ [] := by
    obtain ⟨base, hbase, rfl | rfl⟩ := hname
    · exact hbase.1
    · simp [hbase.1]
  obtain ⟨-, hlen⟩ := hname.dropSo_spec
  rw [cfgModulesSectionCb, if_neg (by simp), if_neg (by simp), if_neg (by simp)]
  simp only [htake, hdrop, List.tail_cons, hsolid.rdropWhile_isspace, hsolid.dropWhile_isspace,
    hoptions.solid.dropWhile_isspace, hoptions.solid.rdropWhile_isspace, if_neg hne]
  rw [storedModule]
  by_cases hfit : name.length < moduleNameSize
  · have hroom : ¬ moduleKeySize ≤ (moduleKey (dropSo name)).length := by
      have h15 : (lit "module:").length = 7 ∧ (lit ".options").length = 8 := ⟨rfl, rfl⟩
      rw [moduleNameSize] at hfit
      rw [moduleKey, moduleKeySize, List.length_append, List.length_append, h15.1, h15.2]
      omega
    obtain ⟨rc, d', hstore, hd', hmap, hrc⟩ :=
      hd.dictStore_spec .ok (moduleKey (dropSo name)) (.str (some options))
    obtain rfl := hrc rfl
    refine ⟨true, d', ?_, hd', ?_⟩
    · rw [if_neg (Nat.not_le.mpr hfit), if_neg hroom, dictAdd, hstore]
    · rw [if_pos hfit, hmap, if_pos rfl, Option.toList_some, List.map_singleton, storedAs,
        overlay_singleton]
  · refine ⟨false, d, by rw [if_pos (Nat.not_lt.mp hfit)], hd, ?_⟩
    rw [if_neg hfit]
    rfl

variable {env : LoadEnv} (henv : env.HasModules dictHash)
include henv

/-- A line of `[modules]` goes to the callback. -/
theorem sectionLine_modules {path : CStr} {b : BareLine} {s : LoadState}
    (hs : s.thisSection = lit "modules") : sectionLine dictHash env path b s = do
      let (ok, newcfg) ← cfgModulesSectionCb dictHash true .ok path s.line s.thisSection
        (b.indent ++ b.skip) s.newcfg
      return { s with newcfg := newcfg, errors := if ok then s.errors else s.errors + 1 } := by
  have hhandles : (cfgModulesInit dictHash).handles env path (lit "modules") = true := by
    rw [CfgCallback.handles, cfgModulesInit, henv.fnmatch]
    rfl
  rw [sectionLine, hs, if_neg (by decide), if_neg (by decide), if_neg (by decide),
    if_neg (by decide), if_neg (by decide), callbackLine, henv.callbacks, hs, List.any_cons,
    hhandles, Bool.true_or, if_pos rfl, cfgDispatchCallback, if_pos hhandles]
  rw [cfgModulesInit]
  dsimp only
  cases hcb : cfgModulesSectionCb dictHash true .ok path s.line (lit "modules")
      (b.indent ++ b.skip) s.newcfg with
  | none => rfl
  | some r =>
    obtain ⟨ok, d⟩ := r
    cases ok <;> rfl

/-- The lines of the section are loaded one after the other. -/
theorem loadLines_modules (loader : Option Loader) (path : CStr) :
    ∀ (items : List (CStr × CStr)) (fuel : ℕ) (s : LoadState), IsModulesSection items →
      (items.flatMap moduleLine).length < fuel → Built dictHash s.newcfg →
      s.thisSection = lit "modules" → s.inComment = false →
      ∃ s', loadLines dictHash env loader path fuel (items.flatMap moduleLine) s = some s' ∧
        Built dictHash s'.newcfg ∧
        s'.newcfg.toMap = overlay s.newcfg.toMap ((items.filterMap storedModule).map storedAs)
  | [], fuel, s, _, _, hs, _, _ => ⟨s, loadLines_nil loader path fuel s, hs, rfl⟩
  | item :: items, fuel, s, hitems, hfuel, hs, hsec, hcom => by
    obtain ⟨fuel, rfl⟩ : ∃ m, fuel = m + 1 := ⟨fuel - 1, by omega⟩
    have hname := hitems.name item List.mem_cons_self
    have hoptions := hitems.options item List.mem_cons_self
    have hkey := hname.isLineKey
    have hread := readLogical_solid hkey hoptions.solid
      (hitems.length_lt item List.mem_cons_self) (items.flatMap moduleLine) s.line
    have hbytes : (item :: items).flatMap moduleLine
        = item.1 ++ equals :: item.2 ++ newline :: items.flatMap moduleLine := by
      rw [List.flatMap_cons, moduleLine, List.append_assoc _ [newline], List.singleton_append]
    have hbare := hkey.bareLine_eq item.2 (s.line + 1)
    rw [stripComments_eq_self hoptions.no_comment, hoptions.solid.rdropWhile_isspace] at hbare
    obtain ⟨ok, d, hcb, hd, hmap⟩ := cfgModulesSectionCb_spec hname hoptions path (s.line + 1) hs
    have hload : loadLine dictHash env loader path ⟨[], item.1 ++ equals :: item.2, false⟩
        { s with inComment := false, line := s.line + 1 } = some
          { s with inComment := false, line := s.line + 1, newcfg := d,
                   errors := if ok then s.errors else s.errors + 1 } := by
      rw [hkey.loadLine_eq item.2 loader path (by simp [hsec, lit]),
        sectionLine_modules henv (by exact hsec)]
      dsimp only
      rw [hsec, List.nil_append, hcb]
      rfl
    obtain ⟨s', hlines, hs', hmap'⟩ := loadLines_modules loader path items fuel
      { s with inComment := false, line := s.line + 1, newcfg := d,
               errors := if ok then s.errors else s.errors + 1 }
      ⟨(List.nodup_cons.mp hitems.nodup).2, fun i hi ↦ hitems.name i (List.mem_cons_of_mem _ hi),
        fun i hi ↦ hitems.options i (List.mem_cons_of_mem _ hi),
        fun i hi ↦ hitems.length_lt i (List.mem_cons_of_mem _ hi)⟩
      (by rw [hbytes, List.length_append, List.length_cons] at hfuel; omega) hd hsec rfl
    refine ⟨s', ?_, hs', ?_⟩
    · rw [hbytes, loadLines, hcom, hread]
      simp only [hbare, hload]
      exact hlines
    · rw [hmap', hmap, ← overlay_append, ← List.map_append]
      congr 2
      rw [List.filterMap_cons]
      cases storedModule item <;> rfl

end Load

/-- A load of one file is a run of its loop. -/
theorem cfgLoad_withFile {dictHash : CStr → UInt32} {env : LoadEnv} (henv : env.AllocOk)
    (path content : CStr) : cfgLoad dictHash (env.withFile path content) path
      = (loadLines dictHash (env.withFile path content)
          (some (cfgLoadDepth dictHash (env.withFile path content) 3)) path (content.length + 1)
          content ⟨dictNew, [], false, 0, 0, 1⟩).map fun s ↦ some s.newcfg := by
  have henv' : (env.withFile path content).AllocOk := ⟨henv.calloc, henv.mem⟩
  have hexists : (env.withFile path content).fileExists path = true := by simp [LoadEnv.withFile]
  have hopen : (env.withFile path content).fopen path = some content := by simp [LoadEnv.withFile]
  rw [cfgLoad, cfgLoadDepth, loadFile, hexists, henv'.calloc, dictNewCall, hopen]
  simp only [Bool.not_true, Bool.false_eq_true, if_false, if_true]
  cases loadLines dictHash (env.withFile path content) _ path (content.length + 1) content
      ⟨dictNew, [], false, 0, 0, 1⟩ <;> rfl

/-- **What a section is loaded as**: the lines whose names fit into `name`. -/
theorem cfgLoad_modulesText {dictHash : CStr → UInt32} {env : LoadEnv} (halloc : env.AllocOk)
    (henv : env.HasModules dictHash) (path : CStr) {items : List (CStr × CStr)}
    (hitems : IsModulesSection items) :
    ∃ d, cfgLoad dictHash (env.withFile path (modulesText items)) path = some (some d) ∧
      Coherent dictHash d ∧ d.toMap = lastValue ((items.filterMap storedModule).map storedAs) := by
  have hname : IsSectionName (lit "modules") := ⟨by decide, by decide +kernel, by decide⟩
  have henv' : (env.withFile path (modulesText items)).HasModules dictHash :=
    ⟨henv.callbacks, henv.fnmatch⟩
  rw [cfgLoad_withFile halloc]
  have htext : modulesText items
      = lbracket :: lit "modules" ++ [rbracket] ++ newline :: items.flatMap moduleLine := rfl
  have hfuel : (items.flatMap moduleLine).length < (modulesText items).length := by
    rw [htext, List.length_append, List.length_cons]
    omega
  obtain ⟨s', hlines, hs', hmap⟩ := loadLines_modules henv'
    (some (cfgLoadDepth dictHash (env.withFile path (modulesText items)) 3)) path items
    (modulesText items).length ⟨dictNew, lit "modules", false, 1, 0, 1⟩ hitems hfuel
    built_dictNew rfl rfl
  refine ⟨s'.newcfg, ?_, hs'.toCoherent, by rw [hmap]; exact overlay_none _⟩
  conv in (loadLines _ _ _ _ _ _ _) => rw [loadLines]
  conv in (readLogical _ _ _) => rw [htext, readLogical_header hname]
  simp only [bareLine_header hname, loadLine_header hname]
  simp [hlines]

end Rustyaxe
