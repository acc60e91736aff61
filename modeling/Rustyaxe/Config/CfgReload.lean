import Rustyaxe.Config.Formatting
import Rustyaxe.Config.GlobalCfg

/-!
# Reading the configuration again

`cfg_reload` of `config.c`: load the file, and have `cfg_apply_new` put what has been loaded in the
place of the live configuration.

`cfg_apply_new` refuses when it gets no memory for the difference of the two or for the copy.
`cfg_reload` does not look at its verdict, so that what it returns then and what is live disagree,
unless the file says what was live before.  Nor does it learn of a setting that `cfg_load` got no
memory for: the loader counts an error, or nothing at all, and goes on without the setting, which
is then removed from the live configuration.
-/

set_option autoImplicit false

namespace Rustyaxe

open Simulation

variable (dictHash : CStr → UInt32) (env : LoadEnv)

/-- `cfg_reload`.  The outer `none` is an exit of the loader. -/
def cfgReload (mem : ApplyAlloc) (configFile filename : Option CStr) (h : CfgHeap) :
    Option (Bool × CfgHeap) :=
  match filename.or configFile with
  | none => some (false, h)
  | some path => do
    let (newcfg, h) ← cfgLoadAt dictHash env path h
    match newcfg with
    | none => return (false, h)
    | some newcfg => do
      let (_, _, s) ← cfgApplyNew dictHash mem h.toCfgState h.cfg (some newcfg)
      return (true, { h with toCfgState := s })

/-- A state between two calls. -/
structure CfgHeap.WellFormed (h : CfgHeap) : Prop where
  fresh : ∀ q, h.next ≤ q → h.dicts q = none
  live : ∀ a, h.cfg = some a → ∃ live, h.dicts a = some live ∧ Coherent dictHash live

/-- The memory that the difference and the copy of `cfg_apply_new` ask for is there. -/
def ApplyAlloc.Suffices (mem : ApplyAlloc) (live new : Dict) : Prop :=
  DictDiffSuffices dictHash mem.diff mem.changed mem.removed live new ∧
    CloneSuffices dictHash mem.clone mem.copied new

/-- The same world, where a load gets all the memory it asks for. -/
def LoadEnv.withMemory (env : LoadEnv) : LoadEnv :=
  { env with calloc := fun _ ↦ true, mem := fun _ ↦ .ok }

/-- What the file says, whatever memory there is: the dictionary that a load with all its memory
makes of it. -/
def ParsesTo (path : CStr) (new : Dict) : Prop :=
  cfgLoad dictHash env.withMemory path = some (some new)

/-- What `cfg_reload` returns and what it leaves agree: the pointer `cfg` is the same; after `true`
the live configuration is what the file says; after `false` it is the old one, and no callback has
run. -/
structure ReloadAgrees (configFile filename : Option CStr) (h : CfgHeap) (rc : Bool)
    (h' : CfgHeap) : Prop where
  cfg : h'.cfg = h.cfg
  applied : rc = true → ∃ path new, filename.or configFile = some path ∧
    ParsesTo dictHash env path new ∧ h'.live.map Dict.toMap = some new.toMap
  refused : rc = false → h'.live = h.live ∧ h'.runs = h.runs ∧ h'.calls = h.calls

variable {dictHash : CStr → UInt32} {env : LoadEnv}

/-- The verdict of `cfg_apply_new`. -/
theorem cfgApplyNew_rc_iff {s s' : CfgState} {a n : ℕ} {live new : Dict} (hcfg : s.cfg = some a)
    (hlive : s.dicts a = some live) (hnew : s.dicts n = some new) (hne : n ≠ a) {mem : ApplyAlloc}
    {oldcfg : Option ℕ} {rc : Bool} {counts : ApplyCounts}
    (h : cfgApplyNew dictHash mem s oldcfg (some n) = some (rc, counts, s')) :
    rc = true ↔ mem.Suffices dictHash live new := by
  rw [ApplyAlloc.Suffices]
  obtain ⟨rfl, -, hdiff | hclone⟩ | ⟨changes, staged, rfl, hdiff, hclone, -⟩ :=
    cfgApplyNew_cases hcfg hlive hnew hne h
  · simp [← dictDiff_isSome_iff hdiff]
  · simp [← dictClone_isSome_iff hclone]
  · simp [← dictDiff_isSome_iff hdiff, ← dictClone_isSome_iff hclone]

/-- What is live after `cfg_apply_new`. -/
theorem cfgApplyNew_live {s s' : CfgState} {a n : ℕ} {live new : Dict} (hcfg : s.cfg = some a)
    (hlive : s.dicts a = some live) (hnew : s.dicts n = some new) (hne : n ≠ a)
    (hco : Coherent dictHash new) {mem : ApplyAlloc} {oldcfg : Option ℕ} {rc : Bool}
    {counts : ApplyCounts}
    (h : cfgApplyNew dictHash mem s oldcfg (some n) = some (rc, counts, s')) :
    s'.cfg = some a ∧
      (mem.Suffices dictHash live new → s'.live.map Dict.toMap = some new.toMap) ∧
      (¬ mem.Suffices dictHash live new → s'.live.map Dict.toMap = some live.toMap) := by
  rw [← cfgApplyNew_rc_iff hcfg hlive hnew hne h]
  obtain ⟨rfl, rfl, -⟩ | ⟨changes, staged, rfl, -, hclone, hswap⟩ :=
    cfgApplyNew_cases hcfg hlive hnew hne h
  · refine ⟨hcfg, fun h ↦ by simp at h, fun _ ↦ ?_⟩
    rw [CfgState.live, hcfg, Option.bind_some, hlive, Option.map_some]
  · obtain ⟨hcfg', hdict', -⟩ := applySwap_spec hcfg hne oldcfg live staged changes
    rw [hswap] at hcfg' hdict'
    have hcfg' : s'.cfg = some a := hcfg'
    have hdict' : s'.dicts a = some staged := hdict'
    refine ⟨hcfg', fun _ ↦ ?_, fun h ↦ absurd rfl h⟩
    rw [CfgState.live, hcfg', Option.bind_some, hdict', Option.map_some,
      (dictClone_spec hco hclone).2]

/-- The ways through `cfg_reload`: there is no file, or it is not loaded, or it is loaded to the
address `n` and handed to `cfg_apply_new`. -/
inductive ReloadStep (dictHash : CStr → UInt32) (env : LoadEnv) (mem : ApplyAlloc)
    (configFile filename : Option CStr) (h : CfgHeap) : Bool → CfgHeap → Prop where
  | nothing : filename.or configFile = none →
      ReloadStep dictHash env mem configFile filename h false h
  | refused {path : CStr} {h₁ : CfgHeap} : filename.or configFile = some path →
      cfgLoad dictHash env path = some none → h₁.cfg = h.cfg → h₁.live = h.live →
      h₁.runs = h.runs → h₁.calls = h.calls →
      ReloadStep dictHash env mem configFile filename h false h₁
  | loaded {path : CStr} {new : Dict} {n : ℕ} {h₁ : CfgHeap} {verdict : Bool}
      {counts : ApplyCounts} {s : CfgState} : filename.or configFile = some path →
      cfgLoad dictHash env path = some (some new) → Coherent dictHash new → h₁.cfg = h.cfg →
      h₁.dicts = Function.update h.dicts n (some new) → h.next ≤ n →
      cfgApplyNew dictHash mem h₁.toCfgState h₁.cfg (some n) = some (verdict, counts, s) →
      ReloadStep dictHash env mem configFile filename h true { h₁ with toCfgState := s }

theorem cfgReload_step (hkeep : CallbacksKeep dictHash env) {h h' : CfgHeap}
    (hwf : h.WellFormed dictHash) {mem : ApplyAlloc} {configFile filename : Option CStr} {rc : Bool}
    (hret : cfgReload dictHash env mem configFile filename h = some (rc, h')) :
    ReloadStep dictHash env mem configFile filename h rc h' := by
  rw [cfgReload] at hret
  cases hpath : filename.or configFile with
  | none =>
    rw [hpath] at hret
    obtain ⟨rfl, rfl⟩ : false = rc ∧ h = h' := by simpa using hret
    exact .nothing hpath
  | some path =>
    simp only [hpath, cfgLoadAt, Option.bind_eq_bind, Option.bind_eq_some_iff] at hret
    obtain ⟨⟨newcfg, h₁⟩, ⟨⟨⟨ptr, calls⟩, h₂⟩, hload, heq⟩, hret⟩ := hret
    obtain ⟨rfl, rfl⟩ : ptr = newcfg ∧ h₂ = h₁ := by simpa using heq
    have hsim := cfgLoadDepthAt_loads hkeep 4 path 0 h hwf.fresh
    rw [hload] at hsim
    obtain ⟨⟨loaded, calls'⟩, hloaded, hl⟩ := rel_right hsim
    have hcfgLoad : cfgLoad dictHash env path = some loaded := by rw [cfgLoad, hloaded]; rfl
    obtain ⟨-, hruns, hcalls⟩ := hl.quiet
    have hcfg : h₂.cfg = h.cfg := hl.cfg
    cases loaded with
    | none =>
      obtain ⟨hnull, hdicts⟩ := hl.null rfl
      obtain rfl : ptr = none := hnull
      obtain ⟨rfl, rfl⟩ : false = rc ∧ h₂ = h' := by simpa using hret
      have hlive : h₂.live = h.live := by
        rw [CfgState.live, CfgState.live, hcfg]
        exact congrArg _ hdicts
      exact .refused hpath hcfgLoad hcfg hlive hruns hcalls
    | some new =>
      obtain ⟨hco, n, hptr, hle, -, hdicts⟩ := hl.dict new rfl
      obtain rfl : ptr = some n := hptr
      simp only [Option.bind_eq_some_iff] at hret
      obtain ⟨⟨verdict, counts, s⟩, happly, hret⟩ := hret
      obtain ⟨rfl, rfl⟩ : true = rc ∧ { h₂ with toCfgState := s } = h' := by simpa using hret
      exact .loaded hpath hcfgLoad hco hcfg hdicts hle happly

/-- The call of `cfg_apply_new` leaves this content live: what has been loaded if there is memory
for that, or else the old one. -/
theorem reloaded_live_iff {h h₁ : CfgHeap} (hwf : h.WellFormed dictHash) {got : Dict} {n : ℕ}
    (hco : Coherent dictHash got) (hcfg : h₁.cfg = h.cfg)
    (hdicts : h₁.dicts = Function.update h.dicts n (some got)) (hle : h.next ≤ n)
    {mem : ApplyAlloc} {verdict : Bool} {counts : ApplyCounts} {s : CfgState}
    (happly : cfgApplyNew dictHash mem h₁.toCfgState h₁.cfg (some n) =
      some (verdict, counts, s)) (content : CStr → Option DictValue) :
    s.cfg = h.cfg ∧ (s.live.map Dict.toMap = some content ↔
      ∃ live, h.live = some live ∧ (mem.Suffices dictHash live got → got.toMap = content) ∧
        (¬ mem.Suffices dictHash live got → live.toMap = content)) := by
  have hnew : h₁.dicts n = some got := by rw [hdicts, Function.update_self]
  cases ha : h.cfg with
  | none =>
    have hcfg' : h₁.cfg = none := hcfg.trans ha
    have hs : s = h₁.toCfgState := by
      simp only [cfgApplyNew, hcfg'] at happly
      exact ((Prod.mk.inj (Prod.mk.inj (Option.some.inj happly)).2).2).symm
    refine ⟨by rw [hs, hcfg'], iff_of_false ?_ ?_⟩
    · intro hlive
      rw [hs, CfgState.live, hcfg'] at hlive
      cases hlive
    · rintro ⟨live, hlive, -⟩
      rw [CfgState.live, ha] at hlive
      cases hlive
  | some a =>
    obtain ⟨live, hlive, -⟩ := hwf.live a ha
    have hne : n ≠ a := by
      rintro rfl
      rw [hwf.fresh n hle] at hlive
      cases hlive
    have hlive₁ : h₁.dicts a = some live := by
      rw [hdicts, Function.update_of_ne hne.symm, hlive]
    have hliveEq : h.live = some live := by rw [CfgState.live, ha, Option.bind_some, hlive]
    obtain ⟨hcfg', hdone, hrefused⟩ :=
      cfgApplyNew_live (hcfg.trans ha) hlive₁ hnew hne hco happly
    refine ⟨hcfg', ?_⟩
    rw [hliveEq]
    by_cases hmem : mem.Suffices dictHash live got
    · rw [hdone hmem]
      simp [hmem]
    · rw [hrefused hmem]
      simp [hmem]

theorem ReloadStep.agrees_iff {h h' : CfgHeap} (hwf : h.WellFormed dictHash) {mem : ApplyAlloc}
    {configFile filename : Option CStr} {rc : Bool}
    (hstep : ReloadStep dictHash env mem configFile filename h rc h') :
    ReloadAgrees dictHash env configFile filename h rc h' ↔
      ∀ path got, filename.or configFile = some path →
        cfgLoad dictHash env path = some (some got) →
        ∃ new live, ParsesTo dictHash env path new ∧ h.live = some live ∧
          (mem.Suffices dictHash live got → got.toMap = new.toMap) ∧
          (¬ mem.Suffices dictHash live got → live.toMap = new.toMap) := by
  cases hstep with
  | nothing hpath =>
    refine iff_of_true ⟨rfl, fun h ↦ by simp at h, fun _ ↦ ⟨rfl, rfl, rfl⟩⟩ fun path got h ↦ ?_
    cases hpath.symm.trans h
  | refused hpath hload hcfg hlive hruns hcalls =>
    refine iff_of_true ⟨hcfg, fun h ↦ by simp at h, fun _ ↦ ⟨hlive, hruns, hcalls⟩⟩ ?_
    intro path got hpath' hgot
    obtain rfl := Option.some.inj (hpath.symm.trans hpath')
    cases hload.symm.trans hgot
  | @loaded path got n h₁ verdict counts s hpath hload hco hcfg hdicts hle happly =>
    have hlive := reloaded_live_iff hwf hco hcfg hdicts hle happly
    constructor
    · rintro ⟨-, happlied, -⟩ path' got' hpath' hgot'
      obtain ⟨path'', new, hpath'', hnew, hcontent⟩ := happlied rfl
      -- the file is loaded as `got`, and as nothing else
      obtain rfl := Option.some.inj (hpath.symm.trans hpath')
      obtain rfl := Option.some.inj (hpath.symm.trans hpath'')
      obtain rfl := Option.some.inj (Option.some.inj (hload.symm.trans hgot'))
      obtain ⟨live, hold, hcases⟩ := (hlive new.toMap).2.mp hcontent
      exact ⟨new, live, hnew, hold, hcases⟩
    · intro hall
      obtain ⟨new, live, hnew, hold, hcases⟩ := hall path got hpath hload
      refine ⟨(hlive new.toMap).1, fun _ ↦ ⟨path, new, hpath, hnew, ?_⟩, fun h ↦ by simp at h⟩
      exact (hlive new.toMap).2.mpr ⟨live, hold, hcases⟩

theorem LoadEnv.AllocOk.withMemory_eq (henv : env.AllocOk) : env.withMemory = env := by
  have hcalloc : env.calloc = fun _ ↦ true := funext henv.calloc
  have hmem : env.mem = fun _ ↦ .ok := funext henv.mem
  rw [LoadEnv.withMemory, ← hcalloc, ← hmem]

/-- Where there is memory for everything, a reload of a live configuration tells the truth. -/
theorem cfgReload_agrees_of_allocOk (hkeep : CallbacksKeep dictHash env) {h h' : CfgHeap}
    (hwf : h.WellFormed dictHash) {mem : ApplyAlloc} {configFile filename : Option CStr} {rc : Bool}
    (hret : cfgReload dictHash env mem configFile filename h = some (rc, h')) {live : Dict}
    (hlive : h.live = some live) (henv : env.AllocOk)
    (hmem : ∀ new, mem.Suffices dictHash live new) :
    ReloadAgrees dictHash env configFile filename h rc h' := by
  refine ((cfgReload_step hkeep hwf hret).agrees_iff hwf).mpr fun path got _ hgot ↦ ?_
  refine ⟨got, live, ?_, hlive, fun _ ↦ rfl, fun h ↦ absurd (hmem got) h⟩
  rwa [ParsesTo, henv.withMemory_eq]

/-- A file of one setting. -/
def settingEnv : LoadEnv := bareEnv.withFile (lit "rig.cfg") (lit "[general]\na=1\n")

/-- An empty live configuration. -/
def emptyHeap : CfgHeap where
  dicts p := if p = 0 then some dictNew else none
  cfg := some 0
  reloadEvents := []
  runs := []
  calls := []
  next := 1

/-- The same file, where the store of its setting gets no memory. -/
def noRoomEnv : LoadEnv :=
  { settingEnv with mem := fun _ ↦ { StoreAlloc.ok with newkey := false } }

/-- A dictionary with what the file says. -/
def settingDict : Dict :=
  ((dictAdd dictHashMurmur .ok dictNew (lit "a") (some (lit "1"))).map Prod.snd).getD dictNew

/-- A live configuration that says what the file says. -/
def settingHeap : CfgHeap :=
  { emptyHeap with dicts := fun p ↦ if p = 0 then some settingDict else none }

/-- What a reload of the file of one setting has to leave under its key. -/
theorem reloadAgrees_setting {env : LoadEnv} (henv : env.withMemory = settingEnv) {h h' : CfgHeap}
    (hagrees : ReloadAgrees dictHashMurmur env none (some (lit "rig.cfg")) h true h') :
    (h'.live.map Dict.toMap).bind (· (lit "a")) = some (.str (some (lit "1"))) := by
  have hparsed : (cfgLoad dictHashMurmur settingEnv (lit "rig.cfg")).map
      (fun d ↦ d.bind (·.toMap (lit "a"))) = some (some (.str (some (lit "1")))) := by
    decide +kernel
  obtain ⟨path, new, hpath, hload, hmap⟩ := hagrees.applied rfl
  obtain rfl : lit "rig.cfg" = path := Option.some.inj hpath
  rw [ParsesTo, henv] at hload
  rw [hload] at hparsed
  rw [hmap, Option.bind_some]
  exact Option.some.inj hparsed

/-- The store of the setting fails while the file is loaded: the live configuration, which says what
the file says, loses the setting, and `cfg_reload` returns `true`. -/
theorem not_reloadAgrees_noRoom : ∃ h',
    cfgReload dictHashMurmur noRoomEnv .ok none (some (lit "rig.cfg")) settingHeap =
      some (true, h') ∧
    ¬ ReloadAgrees dictHashMurmur noRoomEnv none (some (lit "rig.cfg")) settingHeap true h' := by
  have hlive : (cfgReload dictHashMurmur noRoomEnv .ok none (some (lit "rig.cfg"))
      settingHeap).map
        (fun r ↦ (r.1, (r.2.live.map Dict.toMap).bind (· (lit "a")))) = some (true, none) := by
    decide +kernel
  obtain ⟨⟨rc, h'⟩, hret, heq⟩ := Option.map_eq_some_iff.mp hlive
  obtain ⟨rfl, hnone⟩ := Prod.mk.inj heq
  refine ⟨h', hret, fun hagrees ↦ ?_⟩
  have hone := reloadAgrees_setting rfl hagrees
  rw [hnone] at hone
  cases hone

end Rustyaxe
