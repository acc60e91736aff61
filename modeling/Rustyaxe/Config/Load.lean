import Rustyaxe.Config.Lines
import Rustyaxe.Dict.Merge

/-!
# Loading a configuration

`cfg_load` of `config.c`.  A file is read into a dictionary of its own, line by line; an include
is loaded by a recursive call and merged into the dictionary of the file that asks for it.

The callbacks of the registered sections work on the global `cfg`, which is the dictionary under
construction while they run, so they are functions of it.  The outer `none` stands for
`exit(EXIT_FAILURE)` and for a call that does not return.
-/

set_option autoImplicit false

namespace Rustyaxe

/-! ## The world outside -/

/-- `cfg_cb_list_t`.  A callback returns its verdict and what it has made of `cfg`. -/
structure CfgCallback where
  path : Option CStr
  sectionName : CStr
  callback : (path : CStr) → (line : ℕ) → (sectionName buf : CStr) → Dict → Option (Bool × Dict)

/-- What loading depends on apart from its arguments. -/
structure LoadEnv where
  fileExists : CStr → Bool
  /-- The content of the file, or `none` if it cannot be opened. -/
  fopen : CStr → Option (List UInt8)
  /-- `fnmatch(pattern, string, 0) == 0` -/
  fnmatch : (pattern string : CStr) → Bool
  cfgCallbacks : List CfgCallback
  cfgIgnoreUnknownSections : Bool
  /-- The outcomes of the calls of `dict_new` and of `dict_store`, by their number. -/
  calloc : ℕ → Bool
  mem : ℕ → StoreAlloc

/-- The variables of one `cfg_load_depth`. -/
structure LoadState where
  newcfg : Dict
  thisSection : CStr
  inComment : Bool
  line : ℕ
  errors : ℕ
  /-- The number of the next allocating call. -/
  calls : ℕ

/-- `PATH_MAX` -/
def pathMax : ℕ := 4096

/-- `dirname` -/
def dirname (path : CStr) : CStr :=
  let path' := path.rdropWhile (· == slash)
  if path' = [] then if path = [] then [dot] else [slash]
  else
    let dir := path'.rdropWhile (· != slash)
    if dir = [] then [dot]
    else if dir.rdropWhile (· == slash) = [] then [slash]
    else dir.rdropWhile (· == slash)

/-! ## Values -/

/-- `cfg_formatting_key` -/
def cfgFormattingKey (key : CStr) : Bool :=
  startsWith (lit "theme.") key || startsWith (lit "ui.theme.") key ||
    key == lit "tui.status-line" || key == lit "tui.room-status-line"

/-- The control codes of `cfg_expand_format_escapes`. -/
def formatControl (c : UInt8) : Option UInt8 :=
  if c = 0x42 then some 0x02
  else if c = 0x43 then some 0x03
  else if c = 0x49 then some 0x1d
  else if c = 0x4f then some 0x0f
  else if c = 0x52 then some 0x16
  else if c = 0x53 then some 0x1e
  else if c = 0x55 then some 0x1f
  else if c = 0x4d then some 0x11
  else none

/-- `cfg_expand_format_escapes` -/
def cfgExpandFormatEscapes : CStr → CStr
  | b :: c :: src =>
    if b = backslash then
      if c = backslash then backslash :: cfgExpandFormatEscapes src
      else
        match formatControl c with
        -- the digits of a colour are copied here or by the next rounds alike
        | some control => control :: cfgExpandFormatEscapes src
        | none => b :: cfgExpandFormatEscapes (c :: src)
    else b :: cfgExpandFormatEscapes (c :: src)
  | src => src

/-- The two sides of the first `'='`, without the blanks before the value. -/
def splitSetting (skip : CStr) : Option (CStr × CStr) :=
  if equals ∈ skip then
    some (skip.takeWhile (· ≠ equals), (skip.dropWhile (· ≠ equals)).tail.dropWhile isBlank)
  else none

/-! ## The lines of a section -/

section Sections

variable (dictHash : CStr → UInt32) (env : LoadEnv)

/-- `dict_add(newcfg, key, val)` -/
def LoadState.dictAdd (s : LoadState) (key val : CStr) : Option (Bool × LoadState) := do
  let (rc, newcfg) ← Rustyaxe.dictAdd dictHash (env.mem s.calls) s.newcfg key (some val)
  return (rc, { s with newcfg := newcfg, calls := s.calls + 1 })

/-- A line of `[general]`. -/
def generalLine (skip : CStr) (s : LoadState) : Option LoadState :=
  match splitSetting skip with
  | none => some s
  | some (key, val) => do
    let key := key.rdropWhile isBlank
    let val := if cfgFormattingKey key then cfgExpandFormatEscapes val else val
    let (rc, s) ← s.dictAdd dictHash env key val
    return if rc then s else { s with errors := s.errors + 1 }

/-- `sizeof(fullkey) - 1` -/
def fullkeyMax : ℕ := 255

/-- A line of `[server:NAME]` or `[theme:NAME]`; `kind` is `"server:"` or `"theme:"`. -/
def namedLine (kind : CStr) (skip : CStr) (s : LoadState) : Option LoadState :=
  match splitSetting skip with
  | none => some s
  | some (key, val) => do
    let name := s.thisSection.drop kind.length
    let fullkey := (kind ++ name ++ dot :: key).take fullkeyMax
    let (_, s) ← s.dictAdd dictHash env fullkey val
    return s

/-- A line of `[callsign-lookup]` or `[site]`; `kind` is the prefix of its keys. -/
def plainLine (kind : CStr) (skip : CStr) (s : LoadState) : Option LoadState :=
  match splitSetting skip with
  | none => some s
  | some (key, val) => do
    let key := key.rdropWhile isBlank
    if key = [] then return s
    let (_, s) ← s.dictAdd dictHash env ((kind ++ key).take fullkeyMax) val
    return s

/-- Is the callback registered for lines of this section of this file? -/
def CfgCallback.handles (cb : CfgCallback) (path sectionName : CStr) : Bool :=
  env.fnmatch cb.sectionName sectionName && cb.path.all fun p ↦ env.fnmatch p path

/-- `cfg_dispatch_callback` -/
def cfgDispatchCallback (path : CStr) (line : ℕ) (sectionName buf : CStr) :
    List CfgCallback → (matched : Bool) → Dict → Option (Bool × Dict)
  | [], matched, cfg => some (matched, cfg)
  | cb :: rest, matched, cfg =>
    if cb.handles env path sectionName then do
      let (ok, cfg) ← cb.callback path line sectionName buf cfg
      if ok then cfgDispatchCallback path line sectionName buf rest true cfg
      else return (false, cfg)
    else cfgDispatchCallback path line sectionName buf rest matched cfg

/-- A line of a section that is not built in. -/
def callbackLine (path : CStr) (buf : CStr) (s : LoadState) : Option LoadState :=
  if env.cfgCallbacks.any fun cb ↦ cb.handles env path s.thisSection then do
    let (ok, newcfg) ←
      cfgDispatchCallback env path s.line s.thisSection buf env.cfgCallbacks false s.newcfg
    return { s with newcfg := newcfg, errors := if ok then s.errors else s.errors + 1 }
  else
    some { s with errors := if env.cfgIgnoreUnknownSections then s.errors else s.errors + 1 }

/-- A line that is neither an include nor a section header, inside a section. -/
def sectionLine (path : CStr) (b : BareLine) (s : LoadState) : Option LoadState :=
  if strcaseeq s.thisSection (lit "general") then generalLine dictHash env b.skip s
  else if startsWithCase (lit "theme:") s.thisSection then
    namedLine dictHash env (lit "theme:") b.skip s
  else if startsWithCase (lit "server:") s.thisSection then
    namedLine dictHash env (lit "server:") b.skip s
  else if strcaseeq s.thisSection (lit "callsign-lookup") then
    plainLine dictHash env (lit "callsign-lookup:") b.skip s
  else if strcaseeq s.thisSection (lit "site") then
    plainLine dictHash env (lit "site:") b.skip s
  else callbackLine env path (b.indent ++ b.skip) s

/-- The sections that `cfg_load_depth` knows itself. -/
def isBuiltinSection (sectionName : CStr) : Bool :=
  strcaseeq sectionName (lit "general") || startsWithCase (lit "theme:") sectionName ||
    startsWithCase (lit "server:") sectionName || strcaseeq sectionName (lit "callsign-lookup") ||
    strcaseeq sectionName (lit "site")

section Cases

variable {dictHash env} {s s' : LoadState} {skip : CStr}

/-- The state has the dictionary of another, or that with one assignment of the line in it. -/
def AddsOne (dictHash : CStr → UInt32) (env : LoadEnv) (skip : CStr) (s s' : LoadState) : Prop :=
  s'.newcfg = s.newcfg ∨ ∃ kv key val rc s₁, splitSetting skip = some kv ∧
    (val = kv.2 ∨ val = cfgExpandFormatEscapes kv.2) ∧
    s.dictAdd dictHash env key val = some (rc, s₁) ∧ s'.newcfg = s₁.newcfg

theorem addsOne_generalLine (h : generalLine dictHash env skip s = some s') :
    AddsOne dictHash env skip s s' := by
  rw [generalLine] at h
  cases hsplit : splitSetting skip with
  | none =>
    rw [hsplit] at h
    exact .inl (Option.some.inj h ▸ rfl)
  | some kv =>
    rw [hsplit] at h
    obtain ⟨⟨rc, s₁⟩, hadd, h⟩ := Option.bind_eq_some_iff.mp h
    refine .inr ⟨kv, _, _, rc, s₁, hsplit, ?_, hadd, ?_⟩
    · split
      · exact .inr rfl
      · exact .inl rfl
    · rw [← Option.some.inj h]
      split <;> rfl

theorem addsOne_namedLine {kind : CStr} (h : namedLine dictHash env kind skip s = some s') :
    AddsOne dictHash env skip s s' := by
  rw [namedLine] at h
  cases hsplit : splitSetting skip with
  | none =>
    rw [hsplit] at h
    exact .inl (Option.some.inj h ▸ rfl)
  | some kv =>
    rw [hsplit] at h
    obtain ⟨⟨rc, s₁⟩, hadd, h⟩ := Option.bind_eq_some_iff.mp h
    exact .inr ⟨kv, _, _, rc, s₁, hsplit, .inl rfl, hadd, Option.some.inj h ▸ rfl⟩

theorem addsOne_plainLine {kind : CStr} (h : plainLine dictHash env kind skip s = some s') :
    AddsOne dictHash env skip s s' := by
  rw [plainLine] at h
  cases hsplit : splitSetting skip with
  | none =>
    rw [hsplit] at h
    exact .inl (Option.some.inj h ▸ rfl)
  | some kv =>
    rw [hsplit] at h
    dsimp only at h
    split at h
    case isTrue => exact .inl (Option.some.inj h ▸ rfl)
    case isFalse =>
      obtain ⟨⟨rc, s₁⟩, hadd, h⟩ := Option.bind_eq_some_iff.mp h
      exact .inr ⟨kv, _, _, rc, s₁, hsplit, .inl rfl, hadd, Option.some.inj h ▸ rfl⟩

/-- **What a line of a section does**: it assigns once at most, or it is for the callbacks. -/
theorem sectionLine_cases {path : CStr} {b : BareLine}
    (h : sectionLine dictHash env path b s = some s') :
    AddsOne dictHash env b.skip s s' ∨ isBuiltinSection s.thisSection = false ∧
      callbackLine env path (b.indent ++ b.skip) s = some s' := by
  rw [sectionLine] at h
  split_ifs at h with h1 h2 h3 h4 h5
  · exact .inl (addsOne_generalLine h)
  · exact .inl (addsOne_namedLine h)
  · exact .inl (addsOne_namedLine h)
  · exact .inl (addsOne_plainLine h)
  · exact .inl (addsOne_plainLine h)
  · exact .inr ⟨by simp [isBuiltinSection, h1, h2, h3, h4, h5], h⟩

end Cases

/-! ## Includes -/

/-- Is the line an include directive, and an optional one? -/
def includeKind (skip : CStr) : Option Bool :=
  let ends := (skip.drop 8).head?.all fun c ↦ isBlank c || c == equals
  if startsWithCase (lit "include") skip.tail && ends then
    if skip.head? = some 0x21 then some true
    else if skip.head? = some dot then some false
    else none
  else none

/-- The path of an include directive, without quotation marks around it. -/
def includePath (skip : CStr) : CStr :=
  match (skip.drop 8).dropWhile fun c ↦ isBlank c || c == equals with
  | [] => []
  | c :: rest =>
    if c = quote ∨ c = apostrophe then
      if c ∈ rest then (rest.rdropWhile (· ≠ c)).dropLast else rest
    else c :: rest

/-- The path of the included file, relative to the directory of the including one. -/
def resolveInclude (path incPath : CStr) : CStr :=
  (if incPath.head? = some slash then incPath
    else dirname (path.take (pathMax - 1)) ++ slash :: incPath).take (pathMax - 1)

/-- `cfg_load_depth` at some depth: it maps the path and the number of the next allocating call to
the dictionary, or `NULL`, and the number of the call that comes then. -/
abbrev Loader := CStr → ℕ → Option (Option Dict × ℕ)

/-- A failed include: it counts as an error if it is optional, and is fatal otherwise. -/
def failInclude (optional : Bool) (s : LoadState) : Option LoadState :=
  if optional then some { s with errors := s.errors + 1 } else none

/-- `cfg_merge_dict`, the disposal of the included dictionary, and the error paths. -/
def mergeInclude (optional : Bool) (included : Dict) (s : LoadState) : Option LoadState := do
  let (rc, newcfg) ←
    dictMerge dictHash (fun n ↦ env.mem (s.calls + n)) s.newcfg included
  let s := { s with
    newcfg := newcfg, calls := s.calls + (dictEnumerateAll included).length }
  if rc then some s else failInclude optional s

/-- An include directive.  There is no loader at the maximum depth. -/
def includeLine (loader : Option Loader) (path : CStr) (optional : Bool) (skip : CStr)
    (s : LoadState) : Option LoadState :=
  let incPath := includePath skip
  if incPath = [] then failInclude optional s
  else
    match loader with
    | none => failInclude optional s
    | some loader =>
      let resolved := resolveInclude path incPath
      if env.fileExists resolved then do
        let (included, calls) ← loader resolved s.calls
        let s := { s with calls := calls }
        match included with
        | none => failInclude optional s
        | some included => mergeInclude dictHash env optional included s
      else if optional then some s
      else none

/-! ## Files -/

/-- The text of a section header. -/
def sectionHeader (skip : CStr) : CStr := (skip.tail.take (skip.length - 2)).take 127

/-- A logical line that is not all comment. -/
def loadLine (loader : Option Loader) (path : CStr) (b : BareLine) (s : LoadState) :
    Option LoadState :=
  let skip := b.skip
  if skip = [] then some s
  else if s.thisSection = [] ∧ skip.head? = some star ∧
      skip.tail.head?.any (fun c ↦ c == slash || isspace c) then some s
  else if !b.escapedComment && isLineComment skip then some s
  else
    match includeKind skip with
    | some optional => includeLine dictHash env loader path optional skip s
    | none =>
      if skip.head? = some lbracket ∧ skip.getLast? = some rbracket then
        some { s with thisSection := sectionHeader skip }
      else if s.thisSection = [] then some { s with errors := s.errors + 1 }
      else sectionLine dictHash env path b s

/-- The loop of `cfg_load_depth` over the lines of the file. -/
def loadLines (loader : Option Loader) (path : CStr) :
    (fuel : ℕ) → List UInt8 → LoadState → Option LoadState
  | 0, _, s => some s
  | fuel + 1, file, s =>
    match readLogical s.inComment s.line file with
    | none => some s
    | some (none, line, file) => loadLines loader path fuel file { s with line := line }
    | some (some l, line, file) =>
      let r := bareLine s.inComment l
      let s := { s with inComment := r.2, line := line }
      match r.1 with
      | none => loadLines loader path fuel file s
      | some b => do
        let s ← loadLine dictHash env loader path b s
        loadLines loader path fuel file s

/-- `cfg_load_depth`, for a given loader of includes. -/
def loadFile (loader : Option Loader) : Loader := fun path calls ↦
  if !env.fileExists path then some (none, calls)
  else
    match dictNewCall (env.calloc calls) with
    | none => none
    | some newcfg =>
      match env.fopen path with
      | none => some (none, calls + 1)
      | some file => do
        let s ← loadLines dictHash env loader path (file.length + 1) file
          ⟨newcfg, [], false, 0, 0, calls + 1⟩
        return (some s.newcfg, s.calls)

/-- `cfg_load_depth`, where `levels` includes may still be nested: `levels = 4 - depth`. -/
def cfgLoadDepth : (levels : ℕ) → Loader
  | 0 => loadFile dictHash env none
  | levels + 1 => loadFile dictHash env (some (cfgLoadDepth levels))

/-- `cfg_load` -/
def cfgLoad (path : CStr) : Option (Option Dict) := (cfgLoadDepth dictHash env 4 path 0).map Prod.fst

/-- **The loop reads the file to its end**: fuel for a line for each of its bytes is enough. -/
theorem loadLines_fuel (loader : Option Loader) (path : CStr) :
    ∀ {n fuel : ℕ} {file : List UInt8} (s : LoadState), file.length < n → file.length < fuel →
      loadLines dictHash env loader path n file s = loadLines dictHash env loader path fuel file s
  | n + 1, fuel + 1, file, s, hn, hfuel => by
    rw [loadLines, loadLines]
    cases hread : readLogical s.inComment s.line file with
    | none => rfl
    | some r =>
      obtain ⟨l, line, file'⟩ := r
      have hlen := length_readLogical hread
      have hrest : ∀ s, loadLines dictHash env loader path n file' s
          = loadLines dictHash env loader path fuel file' s := fun s ↦
        loadLines_fuel loader path s (by omega) (by omega)
      cases l with
      | none => exact hrest _
      | some l => simp only [hrest]

end Sections

end Rustyaxe
