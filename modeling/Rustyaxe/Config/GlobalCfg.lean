import Rustyaxe.Config.Includes
import Rustyaxe.Config.Reload
import Rustyaxe.Dict.Atomic
import Rustyaxe.Lib.Simulation

/-!
# The global configuration while a file is loaded

`cfg_load_depth` makes the global `cfg` point to the dictionary it builds, so that the callbacks of
the sections write into that, and puts the pointer back before it returns.  An include does the
same in the middle of it, at another dictionary.

`Rustyaxe.Config.Load` reads a file into a dictionary that is passed along.  Here the dictionaries
are at addresses and `cfg` is one of them: the loader below adds to the dictionary at `newcfg`, and
the callbacks get the one at `cfg`.  `cfgLoadDepthAt_loads` says that the two loaders agree, that
`cfg` is what it was when the loader returns, and that no other dictionary has been touched.
-/

set_option autoImplicit false

namespace Rustyaxe

open Simulation

/-! ## Addresses -/

/-- The dictionaries and the pointer `cfg`, and an address from which on none has been given out. -/
structure CfgHeap extends CfgState where
  next : ℕ

/-- `*p = d` for a dictionary, or `dict_free(p)` for `d = none`. -/
def CfgHeap.set (h : CfgHeap) (p : ℕ) (d : Option Dict) : CfgHeap :=
  { h with dicts := Function.update h.dicts p d }

/-- `dict_new()`, at the address `h.next`. -/
def CfgHeap.new (h : CfgHeap) : CfgHeap :=
  { h.set h.next (some dictNew) with next := h.next + 1 }

/-- `cfg = p` -/
def CfgHeap.setCfg (h : CfgHeap) (p : Option ℕ) : CfgHeap := { h with cfg := p }

/-- The variables of one `cfg_load_depth`; `newcfg` is a pointer. -/
structure LoadFrame where
  newcfg : ℕ
  thisSection : CStr
  inComment : Bool
  line : ℕ
  errors : ℕ
  calls : ℕ

/-- The variables, with a dictionary in the place of the pointer. -/
def LoadFrame.with (f : LoadFrame) (d : Dict) : LoadState :=
  ⟨d, f.thisSection, f.inComment, f.line, f.errors, f.calls⟩

/-- The variables, with a pointer in the place of the dictionary. -/
def LoadState.frame (s : LoadState) (newcfg : ℕ) : LoadFrame :=
  ⟨newcfg, s.thisSection, s.inComment, s.line, s.errors, s.calls⟩

/-- Work on the dictionary at the address `p`. -/
def onDict (p : Option ℕ) (step : LoadState → Option LoadState) (f : LoadFrame) (h : CfgHeap) :
    Option (LoadFrame × CfgHeap) := do
  let p ← p
  let d ← h.dicts p
  let s ← step (f.with d)
  return (s.frame f.newcfg, h.set p (some s.newcfg))

/-! ## The loader -/

section Source

variable (dictHash : CStr → UInt32) (env : LoadEnv)

/-- A line that is neither an include nor a section header, inside a section.  The callbacks work
on `cfg`. -/
def sectionLineAt (path : CStr) (b : BareLine) (f : LoadFrame) (h : CfgHeap) :
    Option (LoadFrame × CfgHeap) :=
  if isBuiltinSection f.thisSection then
    onDict (some f.newcfg) (sectionLine dictHash env path b) f h
  else onDict h.cfg (callbackLine env path (b.indent ++ b.skip)) f h

/-- `cfg_load_depth` at some depth: the address of the dictionary, or `NULL`, and the number of the
allocating call that comes then. -/
abbrev LoaderAt := CStr → ℕ → CfgHeap → Option ((Option ℕ × ℕ) × CfgHeap)

/-- A failed include. -/
def failIncludeAt (optional : Bool) (f : LoadFrame) (h : CfgHeap) : Option (LoadFrame × CfgHeap) :=
  if optional then some ({ f with errors := f.errors + 1 }, h) else none

/-- `cfg_merge_dict`, the error paths, and the disposal of the included dictionary. -/
def mergeIncludeAt (optional : Bool) (included : ℕ) (f : LoadFrame) (h : CfgHeap) :
    Option (LoadFrame × CfgHeap) := do
  let d ← h.dicts included
  let (f, h) ← onDict (some f.newcfg) (mergeInclude dictHash env optional d) f h
  return (f, h.set included none)

/-- An include directive. -/
def includeLineAt (loader : Option LoaderAt) (path : CStr) (optional : Bool) (skip : CStr)
    (f : LoadFrame) (h : CfgHeap) : Option (LoadFrame × CfgHeap) :=
  let incPath := includePath skip
  if incPath = [] then failIncludeAt optional f h
  else
    match loader with
    | none => failIncludeAt optional f h
    | some loader =>
      let resolved := resolveInclude path incPath
      if env.fileExists resolved then do
        let ((included, calls), h) ← loader resolved f.calls h
        let f := { f with calls := calls }
        match included with
        | none => failIncludeAt optional f h
        | some included => mergeIncludeAt dictHash env optional included f h
      else if optional then some (f, h)
      else none

/-- A logical line that is not all comment. -/
def loadLineAt (loader : Option LoaderAt) (path : CStr) (b : BareLine) (f : LoadFrame)
    (h : CfgHeap) : Option (LoadFrame × CfgHeap) :=
  let skip := b.skip
  if skip = [] then some (f, h)
  else if f.thisSection = [] ∧ skip.head? = some star ∧
      skip.tail.head?.any (fun c ↦ c == slash || isspace c) then some (f, h)
  else if !b.escapedComment && isLineComment skip then some (f, h)
  else
    match includeKind skip with
    | some optional => includeLineAt dictHash env loader path optional skip f h
    | none =>
      if skip.head? = some lbracket ∧ skip.getLast? = some rbracket then
        some ({ f with thisSection := sectionHeader skip }, h)
      else if f.thisSection = [] then some ({ f with errors := f.errors + 1 }, h)
      else sectionLineAt dictHash env path b f h

/-- The loop of `cfg_load_depth` over the lines of the file. -/
def loadLinesAt (loader : Option LoaderAt) (path : CStr) :
    (fuel : ℕ) → List UInt8 → LoadFrame → CfgHeap → Option (LoadFrame × CfgHeap)
  | 0, _, f, h => some (f, h)
  | fuel + 1, file, f, h =>
    match readLogical f.inComment f.line file with
    | none => some (f, h)
    | some (none, line, file) => loadLinesAt loader path fuel file { f with line := line } h
    | some (some l, line, file) =>
      let r := bareLine f.inComment l
      let f := { f with inComment := r.2, line := line }
      match r.1 with
      | none => loadLinesAt loader path fuel file f h
      | some b => do
        let (f, h) ← loadLineAt dictHash env loader path b f h
        loadLinesAt loader path fuel file f h

/-- `cfg_load_depth`, for a given loader of includes. -/
def loadFileAt (loader : Option LoaderAt) : LoaderAt := fun path calls h ↦
  if !env.fileExists path then some ((none, calls), h)
  else if env.calloc calls = false then none
  else
    let newcfg := h.next
    let savedCfg := h.cfg
    let h := h.new.setCfg (some newcfg)
    match env.fopen path with
    | none => some ((none, calls + 1), (h.set newcfg none).setCfg savedCfg)
    | some file => do
      let (f, h) ← loadLinesAt dictHash env loader path (file.length + 1) file
        ⟨newcfg, [], false, 0, 0, calls + 1⟩ h
      return ((some f.newcfg, f.calls), h.setCfg savedCfg)

/-- `cfg_load_depth`, where `levels` includes may still be nested. -/
def cfgLoadDepthAt : (levels : ℕ) → LoaderAt
  | 0 => loadFileAt dictHash env none
  | levels + 1 => loadFileAt dictHash env (some (cfgLoadDepthAt levels))

/-- `cfg_load` -/
def cfgLoadAt (path : CStr) (h : CfgHeap) : Option (Option ℕ × CfgHeap) := do
  let ((newcfg, _), h) ← cfgLoadDepthAt dictHash env 4 path 0 h
  return (newcfg, h)

end Source

/-! ## Coherence -/

/-- The callbacks work on `cfg` with the functions of `dict.h`. -/
def CallbacksKeep (dictHash : CStr → UInt32) (env : LoadEnv) : Prop :=
  ∀ cb ∈ env.cfgCallbacks, ∀ path line sectionName buf d ok d', Coherent dictHash d →
    cb.callback path line sectionName buf d = some (ok, d') → Coherent dictHash d'

variable {dictHash : CStr → UInt32} {env : LoadEnv}

theorem Coherent.dictAdd {s s' : LoadState} (hs : Coherent dictHash s.newcfg) {key val : CStr}
    {rc : Bool} (h : s.dictAdd dictHash env key val = some (rc, s')) :
    Coherent dictHash s'.newcfg := by
  rw [LoadState.dictAdd, Option.bind_eq_bind, Option.bind_eq_some_iff] at h
  obtain ⟨⟨rc', d⟩, hadd, h⟩ := h
  obtain ⟨-, rfl⟩ : rc' = rc ∧ _ = s' := by simpa using h
  exact hs.of_dictStore hadd

/-- A line of a built-in section adds to the dictionary at most. -/
theorem Coherent.sectionLine {path : CStr} {b : BareLine} {s s' : LoadState}
    (hs : Coherent dictHash s.newcfg) (hbuiltin : isBuiltinSection s.thisSection = true)
    (h : sectionLine dictHash env path b s = some s') : Coherent dictHash s'.newcfg := by
  obtain (hsame | ⟨kv, key, val, rc, s₁, -, -, hadd, hcfg⟩) | ⟨hno, -⟩ := sectionLine_cases h
  · rwa [hsame]
  · rw [hcfg]
    exact hs.dictAdd hadd
  · cases hbuiltin.symm.trans hno

theorem sectionLine_of_not_builtin {path : CStr} {b : BareLine} {s : LoadState}
    (hbuiltin : isBuiltinSection s.thisSection = false) :
    sectionLine dictHash env path b s = callbackLine env path (b.indent ++ b.skip) s := by
  simp only [isBuiltinSection, Bool.or_eq_false_iff] at hbuiltin
  obtain ⟨⟨⟨⟨h1, h2⟩, h3⟩, h4⟩, h5⟩ := hbuiltin
  rw [sectionLine, h1, h2, h3, h4, h5]
  rfl

theorem CallbacksKeep.dispatch {path : CStr} {line : ℕ} {sectionName buf : CStr} :
    ∀ {cbs : List CfgCallback} {matched ok : Bool} {d d' : Dict},
      (∀ cb ∈ cbs, ∀ path line sectionName buf d ok d', Coherent dictHash d →
        cb.callback path line sectionName buf d = some (ok, d') → Coherent dictHash d') →
      Coherent dictHash d →
      cfgDispatchCallback env path line sectionName buf cbs matched d = some (ok, d') →
      Coherent dictHash d' := by
  intro cbs
  induction cbs with
  | nil =>
    intro matched ok d d' _ hd h
    obtain ⟨-, rfl⟩ : matched = ok ∧ d = d' := by simpa [cfgDispatchCallback] using h
    exact hd
  | cons cb cbs ih =>
    intro matched ok d d' hkeep hd h
    rw [List.forall_mem_cons] at hkeep
    rw [cfgDispatchCallback] at h
    split at h
    · obtain ⟨⟨ok', d₁⟩, hcall, h⟩ := Option.bind_eq_some_iff.mp h
      have hd₁ := hkeep.1 _ _ _ _ _ _ _ hd hcall
      cases ok' with
      | true => exact ih hkeep.2 hd₁ (by simpa using h)
      | false =>
        obtain ⟨-, rfl⟩ : false = ok ∧ d₁ = d' := by simpa using h
        exact hd₁
    · exact ih hkeep.2 hd h

theorem Coherent.callbackLine (hkeep : CallbacksKeep dictHash env) {path buf : CStr}
    {s s' : LoadState} (hs : Coherent dictHash s.newcfg)
    (h : callbackLine env path buf s = some s') : Coherent dictHash s'.newcfg := by
  rw [Rustyaxe.callbackLine] at h
  split at h
  · obtain ⟨⟨ok, d⟩, hdispatch, h⟩ := Option.bind_eq_some_iff.mp h
    obtain rfl := Option.some.inj h
    exact CallbacksKeep.dispatch hkeep hs hdispatch
  · obtain rfl := Option.some.inj h
    exact hs

theorem Coherent.mergeInclude {optional : Bool} {included : Dict} {s s' : LoadState}
    (hs : Coherent dictHash s.newcfg)
    (h : mergeInclude dictHash env optional included s = some s') :
    Coherent dictHash s'.newcfg := by
  rw [Rustyaxe.mergeInclude, Option.bind_eq_bind, Option.bind_eq_some_iff] at h
  obtain ⟨⟨rc, d⟩, hmerge, h⟩ := h
  have hd := (dictMergeLoop_rc_iff hs hmerge).1
  cases rc with
  | true =>
    obtain rfl := Option.some.inj h
    exact hd
  | false =>
    change failInclude optional _ = _ at h
    rw [failInclude] at h
    split at h
    · obtain rfl := Option.some.inj h
      exact hd
    · cases h

/-! ## Simulation -/

/-- While the dictionary at `n` is built, the world is as it was in `h₀`, but for that dictionary
and the pointer `cfg`. -/
structure Building (dictHash : CStr → UInt32) (h₀ : CfgHeap) (n : ℕ) (s : LoadState)
    (p : LoadFrame × CfgHeap) : Prop where
  coherent : Coherent dictHash s.newcfg
  frame : p.1 = s.frame n
  cfg : p.2.cfg = some n
  dicts : p.2.dicts = Function.update h₀.dicts n (some s.newcfg)
  quiet : p.2.reloadEvents = h₀.reloadEvents ∧ p.2.runs = h₀.runs ∧ p.2.calls = h₀.calls
  lt_next : n < p.2.next
  fresh : ∀ q, p.2.next ≤ q → h₀.dicts q = none

/-- A load has returned: `cfg` is what it was, and no dictionary has changed, but for the one that
has been loaded. -/
structure Loaded (dictHash : CStr → UInt32) (h₀ : CfgHeap) (r : Option Dict × ℕ)
    (p : (Option ℕ × ℕ) × CfgHeap) : Prop where
  calls : p.1.2 = r.2
  cfg : p.2.cfg = h₀.cfg
  quiet : p.2.reloadEvents = h₀.reloadEvents ∧ p.2.runs = h₀.runs ∧ p.2.calls = h₀.calls
  fresh : ∀ q, p.2.next ≤ q → h₀.dicts q = none
  le_next : h₀.next ≤ p.2.next
  null : r.1 = none → p.1.1 = none ∧ p.2.dicts = h₀.dicts
  dict : ∀ d, r.1 = some d → Coherent dictHash d ∧ ∃ n, p.1.1 = some n ∧ h₀.next ≤ n ∧
    n < p.2.next ∧ p.2.dicts = Function.update h₀.dicts n (some d)

namespace Building

variable {h₀ : CfgHeap} {n : ℕ} {s : LoadState} {f : LoadFrame} {h : CfgHeap}
  (hb : Building dictHash h₀ n s (f, h))
include hb

/-- Work on the dictionary that is built, whichever pointer to it is used. -/
theorem onDict {step : LoadState → Option LoadState}
    (hstep : ∀ s', step s = some s' → Coherent dictHash s'.newcfg) {p : Option ℕ}
    (hp : p = some n) : Option.Rel (Building dictHash h₀ n) (step s) (onDict p step f h) := by
  obtain rfl := hb.frame
  have hd : h.dicts n = some s.newcfg := by rw [hb.dicts, Function.update_self]
  rw [Rustyaxe.onDict, hp]
  simp only [Option.bind_eq_bind, Option.bind_some, hd]
  have hwith : (s.frame n).with s.newcfg = s := rfl
  rw [hwith]
  cases hs : step s with
  | none => exact .none
  | some s' =>
    refine .some ⟨hstep s' hs, rfl, hb.cfg, ?_, hb.quiet, hb.lt_next, hb.fresh⟩
    show Function.update h.dicts n (some s'.newcfg) = _
    rw [hb.dicts, Function.update_idem]

/-- A change of the other variables. -/
theorem vars (s' : LoadState) (hs : s'.newcfg = s.newcfg) :
    Building dictHash h₀ n s' (s'.frame n, h) :=
  ⟨hs ▸ hb.coherent, rfl, hb.cfg, hs ▸ hb.dicts, hb.quiet, hb.lt_next, hb.fresh⟩

theorem sectionLineAt (hkeep : CallbacksKeep dictHash env) (path : CStr) (b : BareLine) :
    Option.Rel (Building dictHash h₀ n) (sectionLine dictHash env path b s)
      (sectionLineAt dictHash env path b f h) := by
  obtain rfl := hb.frame
  rw [Rustyaxe.sectionLineAt]
  split
  · next hbuiltin =>
    exact hb.onDict (fun s' hs' ↦ hb.coherent.sectionLine hbuiltin hs') rfl
  · next hbuiltin =>
    rw [sectionLine_of_not_builtin (Bool.not_eq_true _ ▸ hbuiltin)]
    exact hb.onDict (fun s' hs' ↦ hb.coherent.callbackLine hkeep hs') hb.cfg

theorem failIncludeAt (optional : Bool) :
    Option.Rel (Building dictHash h₀ n) (failInclude optional s) (failIncludeAt optional f h) := by
  obtain rfl := hb.frame
  rw [failInclude, Rustyaxe.failIncludeAt]
  split
  · exact .some (hb.vars _ rfl)
  · exact .none

end Building

/-- The loader at addresses does what the other one does, in any world. -/
def LoaderSim (dictHash : CStr → UInt32) (load : Loader) (loadAt : LoaderAt) : Prop :=
  ∀ path calls h₀, (∀ q, CfgHeap.next h₀ ≤ q → h₀.dicts q = none) →
    Option.Rel (Loaded dictHash h₀) (load path calls) (loadAt path calls h₀)

namespace Building

variable {h₀ : CfgHeap} {n : ℕ} {s : LoadState} {f : LoadFrame} {h : CfgHeap}
  (hb : Building dictHash h₀ n s (f, h))
include hb

theorem dicts_of_next_le {q : ℕ} (hq : h.next ≤ q) : h.dicts q = none := by
  have hne : q ≠ n := fun heq ↦ absurd hb.lt_next (by subst heq; exact Nat.not_lt.mpr hq)
  rw [hb.dicts, Function.update_of_ne hne]
  exact hb.fresh q hq

/-- After an include the dictionary that is built is as it was, and `cfg` points to it again. -/
theorem of_loaded {r : Option Dict × ℕ} {p : (Option ℕ × ℕ) × CfgHeap}
    (hl : Loaded dictHash h r p) (hnone : r.1 = none) :
    Building dictHash h₀ n { s with calls := r.2 } ({ f with calls := p.1.2 }, p.2) := by
  obtain rfl := hb.frame
  refine ⟨hb.coherent, ?_, hl.cfg.trans hb.cfg, (hl.null hnone).2.trans hb.dicts, ?_,
    Nat.lt_of_lt_of_le hb.lt_next hl.le_next,
    fun q hq ↦ hb.fresh q (hl.le_next.trans hq)⟩
  · rw [hl.calls]
    rfl
  · obtain ⟨h1, h2, h3⟩ := hl.quiet
    obtain ⟨h4, h5, h6⟩ := hb.quiet
    exact ⟨h1.trans h4, h2.trans h5, h3.trans h6⟩

/-- The merge of what has been included, which is disposed of then. -/
theorem mergeIncludeAt {optional : Bool} {d : Dict} {calls : ℕ} {m calls' : ℕ} {h' : CfgHeap}
    (hl : Loaded dictHash h (some d, calls) ((some m, calls'), h')) :
    Option.Rel (Building dictHash h₀ n)
      (mergeInclude dictHash env optional d { s with calls := calls })
      (mergeIncludeAt dictHash env optional m { f with calls := calls' } h') := by
  obtain rfl := hb.frame
  obtain rfl : calls' = calls := hl.calls
  obtain ⟨-, m', hm, hle, hlt, hdicts⟩ := hl.dict d rfl
  obtain rfl : m = m' := Option.some.inj hm
  have hdicts : h'.dicts = Function.update h.dicts m (some d) := hdicts
  have hlt : m < h'.next := hlt
  have hne : n ≠ m := Nat.ne_of_lt (Nat.lt_of_lt_of_le hb.lt_next hle)
  have hfree : h₀.dicts m = none := hb.fresh m hle
  obtain ⟨h1, h2, h3⟩ := hl.quiet
  obtain ⟨h4, h5, h6⟩ := hb.quiet
  -- until it is disposed of, the included dictionary is one of the world around
  have hb' : Building dictHash (h₀.set m (some d)) n { s with calls := calls' }
      ({ s.frame n with calls := calls' }, h') := by
    refine ⟨hb.coherent, rfl, hl.cfg.trans hb.cfg, ?_, ⟨h1.trans h4, h2.trans h5, h3.trans h6⟩,
      Nat.lt_of_lt_of_le hb.lt_next hl.le_next, fun q hq ↦ ?_⟩
    · show h'.dicts = Function.update (Function.update h₀.dicts m _) n _
      rw [hdicts, hb.dicts, Function.update_comm hne]
    · show Function.update h₀.dicts m _ q = none
      rw [Function.update_of_ne (Nat.ne_of_gt (Nat.lt_of_lt_of_le hlt hq))]
      exact hb.fresh q (hl.le_next.trans hq)
  have hm' : h'.dicts m = some d := by rw [hdicts, Function.update_self]
  rw [Rustyaxe.mergeIncludeAt, hm']
  simp only [Option.bind_eq_bind, Option.bind_some]
  refine rel_bind_right (hb'.onDict (fun s' hs' ↦ hb'.coherent.mergeInclude hs') rfl) ?_
  rintro s' ⟨f', h''⟩ hb''
  refine .some ⟨hb''.coherent, hb''.frame, hb''.cfg, ?_, hb''.quiet, hb''.lt_next, fun q hq ↦ ?_⟩
  · have hdicts'' : h''.dicts
        = Function.update (Function.update h₀.dicts m (some d)) n (some s'.newcfg) := hb''.dicts
    show Function.update h''.dicts m none = _
    rw [hdicts'', Function.update_comm hne, Function.update_idem, ← hfree,
      Function.update_eq_self]
  · have hq' : Function.update h₀.dicts m (some d) q = none := hb''.fresh q hq
    by_cases hqm : q = m
    · rw [hqm, hfree]
    · rwa [Function.update_of_ne hqm] at hq'

theorem includeLineAt {loader : Option Loader} {loaderAt : Option LoaderAt}
    (hloader : Option.Rel (LoaderSim dictHash) loader loaderAt) (path : CStr) (optional : Bool)
    (skip : CStr) : Option.Rel (Building dictHash h₀ n)
      (includeLine dictHash env loader path optional skip s)
      (includeLineAt dictHash env loaderAt path optional skip f h) := by
  unfold includeLine Rustyaxe.includeLineAt
  dsimp only
  split
  · exact hb.failIncludeAt optional
  · cases hloader with
    | none => exact hb.failIncludeAt optional
    | some hsim =>
      dsimp only
      split
      · have hcalls : f.calls = s.calls := congrArg LoadFrame.calls hb.frame
        rw [hcalls]
        refine rel_bind (hsim _ s.calls h fun q hq ↦ hb.dicts_of_next_le hq) ?_
        rintro ⟨included, calls⟩ ⟨⟨ptr, calls'⟩, h'⟩ hl
        cases included with
        | none =>
          obtain rfl : ptr = none := (hl.null rfl).1
          exact (hb.of_loaded hl rfl).failIncludeAt optional
        | some d =>
          obtain ⟨-, m, hm, -⟩ := hl.dict d rfl
          obtain rfl : ptr = some m := hm
          exact hb.mergeIncludeAt hl
      · split
        · exact .some hb
        · exact .none

theorem loadLineAt (hkeep : CallbacksKeep dictHash env) {loader : Option Loader}
    {loaderAt : Option LoaderAt} (hloader : Option.Rel (LoaderSim dictHash) loader loaderAt)
    (path : CStr) (b : BareLine) : Option.Rel (Building dictHash h₀ n)
      (loadLine dictHash env loader path b s) (loadLineAt dictHash env loaderAt path b f h) := by
  have hsec : f.thisSection = s.thisSection := congrArg LoadFrame.thisSection hb.frame
  rw [loadLine, Rustyaxe.loadLineAt, hsec]
  split
  · exact .some hb
  split
  · exact .some hb
  split
  · exact .some hb
  cases includeKind b.skip with
  | some optional => exact hb.includeLineAt hloader path optional b.skip
  | none =>
    obtain rfl := hb.frame
    dsimp only
    split
    · exact .some (hb.vars _ rfl)
    split
    · exact .some (hb.vars _ rfl)
    · exact hb.sectionLineAt hkeep path b

end Building

/-- **The lines of a file**, one after the other. -/
theorem loadLinesAt_building (hkeep : CallbacksKeep dictHash env) {loader : Option Loader}
    {loaderAt : Option LoaderAt} (hloader : Option.Rel (LoaderSim dictHash) loader loaderAt)
    (path : CStr) {h₀ : CfgHeap} {n : ℕ} : ∀ (fuel : ℕ) (file : List UInt8) {s : LoadState}
      {f : LoadFrame} {h : CfgHeap}, Building dictHash h₀ n s (f, h) →
      Option.Rel (Building dictHash h₀ n) (loadLines dictHash env loader path fuel file s)
        (loadLinesAt dictHash env loaderAt path fuel file f h) := by
  intro fuel
  induction fuel with
  | zero => exact fun _ _ _ _ hb ↦ .some hb
  | succ fuel ih =>
    intro file s f h hb
    obtain rfl := hb.frame
    rw [loadLines, loadLinesAt]
    have hin : (s.frame n).inComment = s.inComment := rfl
    have hline : (s.frame n).line = s.line := rfl
    rw [hin, hline]
    cases readLogical s.inComment s.line file with
    | none => exact .some hb
    | some r =>
      obtain ⟨l, line, file'⟩ := r
      cases l with
      | none => exact ih file' (hb.vars { s with line := line } rfl)
      | some l =>
        dsimp only
        have hb' := hb.vars { s with inComment := (bareLine s.inComment l).2, line := line } rfl
        cases (bareLine s.inComment l).1 with
        | none => exact ih file' hb'
        | some b =>
          refine rel_bind (hb'.loadLineAt hkeep hloader path b) ?_
          rintro s' ⟨f', h'⟩ hb''
          exact ih file' hb''

theorem loadFileAt_loads (hkeep : CallbacksKeep dictHash env) {loader : Option Loader}
    {loaderAt : Option LoaderAt} (hloader : Option.Rel (LoaderSim dictHash) loader loaderAt) :
    LoaderSim dictHash (loadFile dictHash env loader) (loadFileAt dictHash env loaderAt) := by
  intro path calls h₀ hfresh
  have hfree : h₀.dicts h₀.next = none := hfresh _ le_rfl
  rw [loadFile, loadFileAt]
  split
  · exact .some ⟨rfl, rfl, ⟨rfl, rfl, rfl⟩, hfresh, le_rfl, fun _ ↦ ⟨rfl, rfl⟩, fun _ h ↦ by cases h⟩
  · cases env.calloc calls with
    | false => exact .none
    | true =>
      have hnew : dictNewCall true = some dictNew := rfl
      rw [hnew, if_neg Bool.noConfusion]
      dsimp only
      cases env.fopen path with
      | none =>
        refine .some ⟨rfl, rfl, ⟨rfl, rfl, rfl⟩, fun q hq ↦ hfresh q (Nat.le_of_succ_le hq),
          Nat.le_succ _, fun _ ↦ ⟨rfl, ?_⟩, fun _ h ↦ by cases h⟩
        show Function.update (Function.update h₀.dicts h₀.next _) h₀.next none = _
        rw [Function.update_idem, ← hfree, Function.update_eq_self]
      | some file =>
        have hb : Building dictHash h₀ h₀.next ⟨dictNew, [], false, 0, 0, calls + 1⟩
            (⟨h₀.next, [], false, 0, 0, calls + 1⟩, h₀.new.setCfg (some h₀.next)) :=
          ⟨wellFormed_dictNew.toCoherent, rfl, rfl, rfl, ⟨rfl, rfl, rfl⟩, Nat.lt_succ_self _,
            fun q hq ↦ hfresh q (Nat.le_of_succ_le hq)⟩
        refine rel_bind (loadLinesAt_building hkeep hloader path _ _ hb) ?_
        rintro s ⟨f, h⟩ hb
        obtain rfl := hb.frame
        refine .some ⟨rfl, rfl, hb.quiet, hb.fresh, hb.lt_next.le,
          fun hnull ↦ by simp at hnull, ?_⟩
        intro d hd
        obtain rfl := Option.some.inj hd
        exact ⟨hb.coherent, h₀.next, rfl, le_rfl, hb.lt_next, hb.dicts⟩

/-- **Loading at addresses is loading**, with the global `cfg` put back on every way out. -/
theorem cfgLoadDepthAt_loads (hkeep : CallbacksKeep dictHash env) : ∀ levels : ℕ,
    LoaderSim dictHash (cfgLoadDepth dictHash env levels) (cfgLoadDepthAt dictHash env levels)
  | 0 => loadFileAt_loads hkeep .none
  | levels + 1 => loadFileAt_loads hkeep (.some (cfgLoadDepthAt_loads hkeep levels))

end Rustyaxe
