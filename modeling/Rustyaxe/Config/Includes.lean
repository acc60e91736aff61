import Rustyaxe.Config.General
import Rustyaxe.Lib.Assignments

/-!
# What includes amount to

`cfg_load_depth` reads an included file into a dictionary of its own and merges that into the one
it is building.  `flatten` is what that is meant to achieve: the assignments of all the files, in
the order in which one reads them, with the lines of an included file in the place of the line
that asks for it.  `cfgLoad_flatten` is that the dictionary has, for every key, the last of them.

A file is a list of `ConfigItem`s, and which these are does not depend on the files it includes:
each is read with a section and a comment state of its own.
-/

set_option autoImplicit false

namespace Rustyaxe

open Assignments

/-! ## The items of a file -/

/-- What a line of a file says, if it says anything that matters beyond the section. -/
inductive ConfigItem where
  | assign (key val : CStr)
  | inclusion (optional : Bool) (incPath : CStr)
  /-- A line of a section that is not built in. -/
  | foreign
  deriving DecidableEq, Repr

/-- The key and the value that a line `key=val` of a built-in section assigns. -/
def assignment (sectionName key val : CStr) : Option (CStr × CStr) :=
  let trimmed := key.rdropWhile isBlank
  if strcaseeq sectionName (lit "general") then
    some (trimmed, if cfgFormattingKey trimmed then cfgExpandFormatEscapes val else val)
  else if startsWithCase (lit "theme:") sectionName then
    some ((lit "theme:" ++ sectionName.drop 6 ++ dot :: key).take fullkeyMax, val)
  else if startsWithCase (lit "server:") sectionName then
    some ((lit "server:" ++ sectionName.drop 7 ++ dot :: key).take fullkeyMax, val)
  else if trimmed = [] then none
  else if strcaseeq sectionName (lit "callsign-lookup") then
    some ((lit "callsign-lookup:" ++ trimmed).take fullkeyMax, val)
  else some ((lit "site:" ++ trimmed).take fullkeyMax, val)

/-- The items of a line inside a section. -/
def sectionItems (sectionName skip : CStr) : List ConfigItem :=
  if isBuiltinSection sectionName then
    match splitSetting skip with
    | none => []
    | some (key, val) => (assignment sectionName key val).toList.map fun a ↦ .assign a.1 a.2
  else [.foreign]

/-- The items of a line, and the section after it. -/
def lineItems (sectionName : CStr) (b : BareLine) : List ConfigItem × CStr :=
  let skip := b.skip
  if skip = [] then ([], sectionName)
  else if sectionName = [] ∧ skip.head? = some star ∧
      skip.tail.head?.any (fun c ↦ c == slash || isspace c) then ([], sectionName)
  else if !b.escapedComment && isLineComment skip then ([], sectionName)
  else
    match includeKind skip with
    | some optional => ([.inclusion optional (includePath skip)], sectionName)
    | none =>
      if skip.head? = some lbracket ∧ skip.getLast? = some rbracket then ([], sectionHeader skip)
      else if sectionName = [] then ([], sectionName)
      else (sectionItems sectionName skip, sectionName)

/-- The items of what is left of a file. -/
def itemsFrom : (fuel : ℕ) → List UInt8 → (sectionName : CStr) → (inComment : Bool) →
    (line : ℕ) → List ConfigItem
  | 0, _, _, _, _ => []
  | fuel + 1, file, sectionName, inComment, line =>
    match readLogical inComment line file with
    | none => []
    | some (none, line, file) => itemsFrom fuel file sectionName inComment line
    | some (some l, line, file) =>
      let r := bareLine inComment l
      match r.1 with
      | none => itemsFrom fuel file sectionName r.2 line
      | some b =>
        let items := lineItems sectionName b
        items.1 ++ itemsFrom fuel file items.2 r.2 line

/-- The items of a file.  Every line takes at least one byte. -/
def fileItems (file : List UInt8) : List ConfigItem := itemsFrom (file.length + 1) file [] false 0

/-- **A file is read to its end**: fuel for a line for each of its bytes is enough. -/
theorem itemsFrom_fuel (sectionName : CStr) (inComment : Bool) (line : ℕ) :
    ∀ {n fuel : ℕ} {file : List UInt8}, file.length < n → file.length < fuel →
      itemsFrom n file sectionName inComment line = itemsFrom fuel file sectionName inComment line
  | n + 1, fuel + 1, file, hn, hfuel => by
    rw [itemsFrom, itemsFrom]
    cases hread : readLogical inComment line file with
    | none => rfl
    | some r =>
      obtain ⟨l, line', file'⟩ := r
      have hlen := length_readLogical hread
      have hrest : ∀ sectionName inComment, itemsFrom n file' sectionName inComment line'
          = itemsFrom fuel file' sectionName inComment line' := fun sectionName inComment ↦
        itemsFrom_fuel sectionName inComment line' (by omega) (by omega)
      cases l with
      | none => exact hrest _ _
      | some l =>
        simp only [hrest]

/-! ## The flattened configuration -/

section Flatten

variable (fopen : CStr → Option (List UInt8))

/-- The assignments of an item, where `sub` are those of an included file; there is no `sub` at
the maximum depth.  A file that is not there has none. -/
def itemAssignments (sub : Option (CStr → List (CStr × CStr))) (path : CStr) :
    ConfigItem → List (CStr × CStr)
  | .assign key val => [(key, val)]
  | .inclusion _ incPath =>
    match sub with
    | none => []
    | some sub => if incPath = [] then [] else sub (resolveInclude path incPath)
  | .foreign => []

/-- The assignments of a file, in order. -/
def flattenFile (sub : Option (CStr → List (CStr × CStr))) (path : CStr) : List (CStr × CStr) :=
  match fopen path with
  | none => []
  | some file => (fileItems file).flatMap (itemAssignments sub path)

/-- **The flattened configuration**, where `levels` includes may still be nested. -/
def flatten : (levels : ℕ) → CStr → List (CStr × CStr)
  | 0 => flattenFile fopen none
  | levels + 1 => flattenFile fopen (some (flatten levels))

/-- The mandatory includes of an item are there, and `sub` holds of what is included; there is no
`sub` at the maximum depth, where nothing may be mandatory. -/
def ItemOk (sub : Option (CStr → Prop)) (path : CStr) : ConfigItem → Prop
  | .inclusion optional incPath =>
    match sub with
    | none => optional = true
    | some sub =>
      (optional = false → incPath ≠ [] ∧ (fopen (resolveInclude path incPath)).isSome) ∧
        (incPath ≠ [] → sub (resolveInclude path incPath))
  | _ => True

/-- The same for every item of a file. -/
def FileOk (sub : Option (CStr → Prop)) (path : CStr) : Prop :=
  ∀ file, fopen path = some file → ∀ item ∈ fileItems file, ItemOk fopen sub path item

/-- **Every mandatory include exists, and stays within the limit**, where `levels` includes may
still be nested. -/
def IncludesOk : (levels : ℕ) → CStr → Prop
  | 0 => FileOk fopen none
  | levels + 1 => FileOk fopen (some (IncludesOk levels))

end Flatten

/-! ## Lines -/

/-- What an assignment stores. -/
def storedAs (a : CStr × CStr) : CStr × DictValue := (a.1, .str (some a.2))

variable {dictHash : CStr → UInt32} {env : LoadEnv}

/-- The loader has gone from `s` to `s'` by carrying out the assignments, and is in this section
now. -/
structure Carries (dictHash : CStr → UInt32) (s s' : LoadState) (sectionName : CStr)
    (as : List (CStr × CStr)) : Prop where
  built : Built dictHash s'.newcfg
  thisSection : s'.thisSection = sectionName
  inComment : s'.inComment = s.inComment
  line : s'.line = s.line
  toMap : s'.newcfg.toMap = overlay s.newcfg.toMap (as.map storedAs)

theorem Carries.of_same {s s' : LoadState} {sectionName : CStr} (hs : Built dictHash s.newcfg)
    (hcfg : s'.newcfg = s.newcfg) (hsection : s'.thisSection = sectionName)
    (hcomment : s'.inComment = s.inComment) (hline : s'.line = s.line) :
    Carries dictHash s s' sectionName [] :=
  ⟨hcfg ▸ hs, hsection, hcomment, hline, by rw [hcfg]; rfl⟩

section Env

variable (henv : env.AllocOk)
include henv

/-- Storing the value of a line. -/
theorem dictAdd_carries {s : LoadState} (hs : Built dictHash s.newcfg) (key val : CStr) :
    ∃ s', s.dictAdd dictHash env key val = some (true, s') ∧
      Carries dictHash s s' s.thisSection [(key, val)] := by
  obtain ⟨d, hadd, hd, hmap⟩ := s.dictAdd_spec henv hs key val
  refine ⟨_, hadd, hd, rfl, rfl, rfl, ?_⟩
  rw [List.map_singleton, storedAs, overlay_singleton]
  exact hmap

/-- What a line of a built-in section does. -/
theorem sectionLine_eq {path : CStr} {b : BareLine} {s : LoadState} (hs : Built dictHash s.newcfg)
    (hbuiltin : isBuiltinSection s.thisSection = true) :
    sectionLine dictHash env path b s = match splitSetting b.skip with
      | none => some s
      | some (key, val) =>
        match assignment s.thisSection key val with
        | none => some s
        | some a => do
          let (_, s) ← s.dictAdd dictHash env a.1 a.2
          return s := by
  unfold sectionLine assignment
  by_cases hgeneral : strcaseeq s.thisSection (lit "general")
  · simp only [hgeneral, if_true, generalLine]
    cases splitSetting b.skip with
    | none => rfl
    | some kv =>
      obtain ⟨d, hadd, -⟩ := s.dictAdd_spec henv hs (kv.1.rdropWhile isBlank)
        (if cfgFormattingKey (kv.1.rdropWhile isBlank) then cfgExpandFormatEscapes kv.2 else kv.2)
      simp only [hadd]
      rfl
  · simp only [hgeneral, Bool.false_eq_true, if_false]
    by_cases htheme : startsWithCase (lit "theme:") s.thisSection
    · simp only [htheme, if_true, namedLine]
      cases splitSetting b.skip <;> rfl
    · simp only [htheme, Bool.false_eq_true, if_false]
      by_cases hserver : startsWithCase (lit "server:") s.thisSection
      · simp only [hserver, if_true, namedLine]
        cases splitSetting b.skip <;> rfl
      · simp only [hserver, Bool.false_eq_true, if_false]
        by_cases hcall : strcaseeq s.thisSection (lit "callsign-lookup")
        · simp only [hcall, if_true, plainLine]
          cases splitSetting b.skip with
          | none => rfl
          | some kv =>
            dsimp only
            split <;> rfl
        · have hsite : strcaseeq s.thisSection (lit "site") := by
            simpa [isBuiltinSection, hgeneral, htheme, hserver, hcall] using hbuiltin
          simp only [hcall, hsite, Bool.false_eq_true, if_false, if_true, plainLine]
          cases splitSetting b.skip with
          | none => rfl
          | some kv =>
            dsimp only
            split <;> rfl

/-- **A line of a built-in section** carries out its assignment. -/
theorem sectionLine_carries {path : CStr} {b : BareLine} {s : LoadState}
    (hs : Built dictHash s.newcfg) (hbuiltin : isBuiltinSection s.thisSection = true)
    (sub : Option (CStr → List (CStr × CStr))) :
    ∃ s', sectionLine dictHash env path b s = some s' ∧ Carries dictHash s s' s.thisSection
      ((sectionItems s.thisSection b.skip).flatMap (itemAssignments sub path)) := by
  have hnothing : Carries dictHash s s s.thisSection [] := .of_same hs rfl rfl rfl rfl
  rw [sectionItems, if_pos hbuiltin, sectionLine_eq henv hs hbuiltin]
  cases splitSetting b.skip with
  | none => exact ⟨s, rfl, hnothing⟩
  | some kv =>
    dsimp only
    cases assignment s.thisSection kv.1 kv.2 with
    | none => exact ⟨s, rfl, hnothing⟩
    | some a =>
      obtain ⟨s', hadd, hcarries⟩ := dictAdd_carries henv hs a.1 a.2
      exact ⟨s', by simp [hadd], hcarries⟩

/-! ## Includes -/

/-- What `cfg_load_depth` owes its caller: the assignments of a file that is there, and all right. -/
def LoaderFor (dictHash : CStr → UInt32) (env : LoadEnv) :
    Option Loader → Option (CStr → List (CStr × CStr)) → Option (CStr → Prop) → Prop
  | none, none, none => True
  | some loader, some sub, some ok => (∀ path, env.fopen path = none → sub path = []) ∧
      ∀ path calls, (env.fopen path).isSome → ok path →
        ∃ d calls', loader path calls = some (some d, calls') ∧ Built dictHash d ∧
          d.toMap = overlay (fun _ ↦ none) ((sub path).map storedAs)
  | _, _, _ => False

variable (hfiles : ∀ path, env.fileExists path = (env.fopen path).isSome)
include hfiles

/-- **An include** carries out the assignments of the file. -/
theorem includeLine_carries {loader : Option Loader} {sub : Option (CStr → List (CStr × CStr))}
    {ok : Option (CStr → Prop)} (hloader : LoaderFor dictHash env loader sub ok) {path : CStr}
    {optional : Bool} {skip : CStr} {s : LoadState} (hs : Built dictHash s.newcfg)
    (hok : ItemOk env.fopen ok path (.inclusion optional (includePath skip))) :
    ∃ s', includeLine dictHash env loader path optional skip s = some s' ∧
      Carries dictHash s s' s.thisSection
        (itemAssignments sub path (.inclusion optional (includePath skip))) := by
  have hfailed : ∀ {s'' : LoadState}, s''.newcfg = s.newcfg → s''.thisSection = s.thisSection →
      s''.inComment = s.inComment → s''.line = s.line → optional = true →
      ∃ s', failInclude optional s'' = some s' ∧ Carries dictHash s s' s.thisSection [] := by
    rintro s'' h1 h2 h3 h4 rfl
    exact ⟨_, rfl, .of_same hs h1 h2 h3 h4⟩
  match loader, sub, ok, hloader with
  | none, none, none, _ =>
    have hopt : optional = true := hok
    rw [includeLine]
    split <;> exact hfailed rfl rfl rfl rfl hopt
  | some loader, some sub, some ok, hloader =>
    obtain ⟨hmandatory, hsub⟩ := hok
    obtain ⟨habsent, hload⟩ := hloader
    rw [includeLine, itemAssignments]
    by_cases hempty : includePath skip = []
    · rw [if_pos hempty, if_pos hempty]
      refine hfailed rfl rfl rfl rfl (Bool.eq_true_of_not_eq_false fun hopt ↦ ?_)
      exact (hmandatory hopt).1 hempty
    · rw [if_neg hempty]
      dsimp only
      rw [if_neg hempty, hfiles]
      cases hopen : env.fopen (resolveInclude path (includePath skip)) with
      | none =>
        rw [habsent _ hopen]
        have hopt : optional = true := Bool.eq_true_of_not_eq_false fun hopt ↦ by
          simpa [hopen] using (hmandatory hopt).2
        exact ⟨s, by simp [hopt], .of_same hs rfl rfl rfl rfl⟩
      | some file =>
        obtain ⟨d, calls', hd, hbuilt, hmap⟩ := hload (resolveInclude path (includePath skip))
          s.calls (by simp [hopen]) (hsub hempty)
        obtain ⟨rc, d', hmerge, hbuilt', hmap', hrc⟩ := hs.dictMerge_spec hbuilt.toCoherent
          fun n ↦ env.mem (calls' + n)
        obtain rfl := hrc fun n ↦ henv.mem _
        refine ⟨{ s with newcfg := d', calls := calls' + (dictEnumerateAll d).length }, ?_,
          hbuilt', rfl, rfl, rfl, funext fun key ↦ ?_⟩
        · simp [hd, mergeInclude, hmerge]
        · show d'.toMap key = _
          rw [hmap' rfl, hmap, ← overlay_eq_or]

/-! ## Files -/

section Lines

variable {loader : Option Loader} {sub : Option (CStr → List (CStr × CStr))}
  {ok : Option (CStr → Prop)} (hloader : LoaderFor dictHash env loader sub ok) {path : CStr}
include hloader

/-- **A line** carries out its assignments. -/
theorem loadLine_carries {b : BareLine} {s : LoadState} (hs : Built dictHash s.newcfg)
    (hitems : ∀ item ∈ (lineItems s.thisSection b).1,
      ItemOk env.fopen ok path item ∧ item ≠ .foreign) :
    ∃ s', loadLine dictHash env loader path b s = some s' ∧
      Carries dictHash s s' (lineItems s.thisSection b).2
        ((lineItems s.thisSection b).1.flatMap (itemAssignments sub path)) := by
  have hnothing : Carries dictHash s s s.thisSection [] := .of_same hs rfl rfl rfl rfl
  rw [loadLine]
  unfold lineItems at hitems ⊢
  dsimp only at hitems ⊢
  by_cases hnil : b.skip = []
  · simp only [if_pos hnil]
    exact ⟨s, rfl, hnothing⟩
  simp only [if_neg hnil] at hitems ⊢
  by_cases hstar : s.thisSection = [] ∧ b.skip.head? = some star ∧
      b.skip.tail.head?.any (fun c ↦ c == slash || isspace c)
  · simp only [if_pos hstar]
    exact ⟨s, rfl, hnothing⟩
  simp only [if_neg hstar] at hitems ⊢
  cases hcomment : !b.escapedComment && isLineComment b.skip with
  | true =>
    simp only [if_true]
    exact ⟨s, rfl, hnothing⟩
  | false =>
    simp only [hcomment, Bool.false_eq_true, if_false] at hitems ⊢
    cases hkind : includeKind b.skip with
    | some optional =>
      simp only [hkind] at hitems
      obtain ⟨s', hs', hcarries⟩ := includeLine_carries henv hfiles hloader hs
        (hitems _ (List.mem_singleton_self _)).1
      refine ⟨s', hs', ?_⟩
      dsimp only
      rwa [List.flatMap_singleton]
    | none =>
      simp only [hkind] at hitems
      dsimp only
      by_cases hheader : b.skip.head? = some lbracket ∧ b.skip.getLast? = some rbracket
      · simp only [if_pos hheader]
        exact ⟨_, rfl, .of_same hs rfl rfl rfl rfl⟩
      simp only [if_neg hheader] at hitems ⊢
      by_cases hsec : s.thisSection = []
      · simp only [if_pos hsec]
        exact ⟨_, rfl, .of_same hs rfl rfl rfl rfl⟩
      simp only [if_neg hsec] at hitems ⊢
      have hbuiltin : isBuiltinSection s.thisSection = true := by
        by_contra hforeign
        refine (hitems .foreign ?_).2 rfl
        rw [sectionItems, if_neg hforeign]
        exact List.mem_singleton_self _
      exact sectionLine_carries henv hs hbuiltin sub

/-- **The lines of a file** carry out its assignments, in order. -/
theorem loadLines_carries : ∀ (fuel : ℕ) (file : List UInt8) (s : LoadState),
    Built dictHash s.newcfg →
    (∀ item ∈ itemsFrom fuel file s.thisSection s.inComment s.line,
      ItemOk env.fopen ok path item ∧ item ≠ .foreign) →
    ∃ s', loadLines dictHash env loader path fuel file s = some s' ∧ Built dictHash s'.newcfg ∧
      s'.newcfg.toMap = overlay s.newcfg.toMap
        (((itemsFrom fuel file s.thisSection s.inComment s.line).flatMap
          (itemAssignments sub path)).map storedAs)
  | 0, _, s, hs, _ => ⟨s, rfl, hs, rfl⟩
  | fuel + 1, file, s, hs, hitems => by
    rw [itemsFrom] at hitems ⊢
    rw [loadLines]
    cases hread : readLogical s.inComment s.line file with
    | none => exact ⟨s, rfl, hs, rfl⟩
    | some r =>
      obtain ⟨l, line, file'⟩ := r
      rw [hread] at hitems
      cases l with
      | none => exact loadLines_carries fuel file' { s with line := line } hs hitems
      | some l =>
        dsimp only at hitems ⊢
        cases hbare : (bareLine s.inComment l).1 with
        | none =>
          rw [hbare] at hitems
          exact loadLines_carries fuel file'
            { s with inComment := (bareLine s.inComment l).2, line := line } hs hitems
        | some b =>
          rw [hbare] at hitems
          dsimp only at hitems ⊢
          obtain ⟨s₁, hline, hcarries⟩ := loadLine_carries henv hfiles hloader (b := b)
            (s := { s with inComment := (bareLine s.inComment l).2, line := line }) hs
            fun item hitem ↦ hitems item (List.mem_append_left _ hitem)
          have hsec := hcarries.thisSection
          have hcom := hcarries.inComment
          have hnum := hcarries.line
          dsimp only at hsec hcom hnum
          have hrest := loadLines_carries fuel file' s₁ hcarries.built
          rw [hsec, hcom, hnum] at hrest
          obtain ⟨s₂, hlines, hbuilt, hmap⟩ := hrest fun item hitem ↦
            hitems item (List.mem_append_right _ hitem)
          refine ⟨s₂, ?_, hbuilt, ?_⟩
          · rw [hline]
            exact hlines
          · rw [hmap, hcarries.toMap, List.flatMap_append, List.map_append, overlay_append]

/-- **A file** carries out its assignments on an empty dictionary. -/
theorem loadFile_flatten {calls : ℕ} (hopen : (env.fopen path).isSome)
    (hok : FileOk env.fopen ok path)
    (hbuiltin : ∀ file, env.fopen path = some file → .foreign ∉ fileItems file) :
    ∃ d calls', loadFile dictHash env loader path calls = some (some d, calls') ∧
      Built dictHash d ∧
      d.toMap = overlay (fun _ ↦ none) ((flattenFile env.fopen sub path).map storedAs) := by
  obtain ⟨file, hfile⟩ := Option.isSome_iff_exists.mp hopen
  have hitems : ∀ item ∈ fileItems file, ItemOk env.fopen ok path item ∧ item ≠ .foreign :=
    fun item hitem ↦ ⟨hok file hfile item hitem, fun h ↦ hbuiltin file hfile (h ▸ hitem)⟩
  obtain ⟨s', hlines, hbuilt, hmap⟩ := loadLines_carries henv hfiles hloader (file.length + 1) file
    ⟨dictNew, [], false, 0, 0, calls + 1⟩ built_dictNew hitems
  refine ⟨s'.newcfg, s'.calls, ?_, hbuilt, ?_⟩
  · rw [loadFile, hfiles, hopen, henv.calloc, dictNewCall, hfile]
    simp [hlines]
  · rw [hmap, flattenFile, hfile]
    rfl

end Lines

/-- `cfg_load_depth` keeps its promise at every depth. -/
theorem loaderFor_cfgLoadDepth
    (hbuiltin : ∀ path file, env.fopen path = some file → .foreign ∉ fileItems file) :
    ∀ levels, LoaderFor dictHash env (some (cfgLoadDepth dictHash env levels))
      (some (flatten env.fopen levels)) (some (IncludesOk env.fopen levels))
  | 0 => by
    refine ⟨fun path hnone ↦ ?_, fun path calls hopen hok ↦ ?_⟩
    · rw [flatten, flattenFile, hnone]
    · have hnone : LoaderFor dictHash env none none none := trivial
      exact loadFile_flatten henv hfiles hnone hopen hok (hbuiltin path)
  | levels + 1 => by
    refine ⟨fun path hnone ↦ ?_, fun path calls hopen hok ↦ ?_⟩
    · rw [flatten, flattenFile, hnone]
    · exact loadFile_flatten henv hfiles (loaderFor_cfgLoadDepth hbuiltin levels) hopen hok
        (hbuiltin path)

/-- **Includes are in-order flattening.**  If allocations succeed, the files have only built-in
sections and every mandatory include exists within the limit, `cfg_load` returns a dictionary that
has, for every key, the value of the last assignment to it in the flattened configuration, and
nothing if there is none. -/
theorem cfgLoad_flatten
    (hbuiltin : ∀ path file, env.fopen path = some file → .foreign ∉ fileItems file)
    {path : CStr} (hopen : (env.fopen path).isSome) (hok : IncludesOk env.fopen 4 path) :
    ∃ d, cfgLoad dictHash env path = some (some d) ∧ ∀ key, d.toMap key
      = (lastValue (flatten env.fopen 4 path) key).map fun v ↦ .str (some v) := by
  obtain ⟨d, calls, hload, -, hmap⟩ :=
    (loaderFor_cfgLoadDepth henv hfiles hbuiltin 4).2 path 0 hopen hok
  refine ⟨d, by rw [cfgLoad, hload]; rfl, fun key ↦ ?_⟩
  rw [hmap, overlay_none]
  exact lastValue_map (fun v ↦ DictValue.str (some v)) _ key

end Env

/-- A world of these files. -/
def filesEnv (files : List (CStr × List UInt8)) : LoadEnv :=
  { bareEnv with
    fileExists := fun path ↦ (files.lookup path).isSome
    fopen := fun path ↦ files.lookup path }

/-- What holds of every file of a list holds of each that is looked up. -/
theorem of_lookup {files : List (CStr × List UInt8)} {p : List UInt8 → Prop}
    (h : ∀ f ∈ files, p f.2) {path : CStr} {file : List UInt8}
    (hfile : files.lookup path = some file) : p file := by
  induction files with
  | nil => cases hfile
  | cons f files ih =>
    rw [List.lookup_cons] at hfile
    split at hfile
    · obtain rfl := Option.some.inj hfile
      exact h f (by simp)
    · exact ih (fun f hf ↦ h f (by simp [hf])) hfile

/-- A file with a mandatory include of one that includes itself. -/
def cyclicFiles : List (CStr × List UInt8) :=
  [(lit "./m", lit "[site]\na=1\n.include b\nc=2\n"), (lit "./b", lit "[site]\na=3\n!include b\n")]

/-- The included file asks for nothing but itself, and does not insist. -/
theorem fileOk_cyclicFiles {ok : Option (CStr → Prop)} (hok : ∀ sub ∈ ok, sub (lit "./b")) :
    FileOk (filesEnv cyclicFiles).fopen ok (lit "./b") := fun file hfile item hitem ↦ by
  obtain rfl := Option.some.inj hfile
  have hitems : ∀ item ∈ fileItems (lit "[site]\na=3\n!include b\n"),
      item = .assign (lit "site:a") (lit "3") ∨ item = .inclusion true (lit "b") := by
    decide +kernel
  obtain rfl | rfl := hitems item hitem
  · trivial
  · cases ok with
    | none => rfl
    | some sub => exact ⟨fun h ↦ (by cases h), fun _ ↦ hok sub rfl⟩

theorem includesOk_cyclicFiles : ∀ levels,
    IncludesOk (filesEnv cyclicFiles).fopen levels (lit "./b")
  | 0 => fileOk_cyclicFiles fun _ h ↦ (by cases h)
  | levels + 1 => fileOk_cyclicFiles fun _ h ↦ by
    obtain rfl := Option.some.inj h
    exact includesOk_cyclicFiles levels

theorem cfgLoad_flatten_cyclicFiles :
    ∃ d, cfgLoad (fun _ ↦ 0) (filesEnv cyclicFiles) (lit "./m") = some (some d) ∧
      d.toMap (lit "site:a") = some (.str (some (lit "3"))) ∧
      d.toMap (lit "site:c") = some (.str (some (lit "2"))) := by
  have henv : (filesEnv cyclicFiles).AllocOk := ⟨fun _ ↦ rfl, fun _ ↦ rfl⟩
  have hbuiltin : ∀ path file, (filesEnv cyclicFiles).fopen path = some file →
      .foreign ∉ fileItems file := fun path file hfile ↦ by
    have hall : ∀ f ∈ cyclicFiles, .foreign ∉ fileItems f.2 := by decide +kernel
    exact of_lookup (p := fun file ↦ .foreign ∉ fileItems file) hall hfile
  have hok : IncludesOk (filesEnv cyclicFiles).fopen 4 (lit "./m") := by
    intro file hfile item hitem
    obtain rfl := Option.some.inj hfile
    have hitems : ∀ item ∈ fileItems (lit "[site]\na=1\n.include b\nc=2\n"),
        item = .assign (lit "site:a") (lit "1") ∨ item = .inclusion false (lit "b") ∨
          item = .assign (lit "site:c") (lit "2") := by
      decide +kernel
    obtain rfl | rfl | rfl := hitems item hitem
    · trivial
    · exact ⟨fun _ ↦ ⟨by decide, by decide⟩, fun _ ↦ includesOk_cyclicFiles 3⟩
    · trivial
  have hopen : ((filesEnv cyclicFiles).fopen (lit "./m")).isSome := by decide
  obtain ⟨d, hd, hmap⟩ : ∃ d,
      cfgLoad (fun _ ↦ 0) (filesEnv cyclicFiles) (lit "./m") = some (some d) ∧ ∀ key,
        d.toMap key = (lastValue (flatten (filesEnv cyclicFiles).fopen 4 (lit "./m")) key).map
          fun v ↦ .str (some v) :=
    cfgLoad_flatten henv (fun _ ↦ rfl) hbuiltin hopen hok
  refine ⟨d, hd, ?_, ?_⟩
  · have hlast : lastValue (flatten (filesEnv cyclicFiles).fopen 4 (lit "./m")) (lit "site:a")
        = some (lit "3") := by decide +kernel
    rw [hmap, hlast]
    rfl
  · have hlast : lastValue (flatten (filesEnv cyclicFiles).fopen 4 (lit "./m")) (lit "site:c")
        = some (lit "2") := by decide +kernel
    rw [hmap, hlast]
    rfl

end Rustyaxe
