import Rustyaxe.Dict.Merge

/-!
# Live reload

`cfg_apply_new` of `config.c` replaces the contents of the live configuration and tells the
modules which keys have changed.  The state is the heap of dictionaries, the pointer `cfg`, the
registered reload callbacks, and two records of what has been called: the invocations of
`reload_event_run`, each with what `cfg` held at that moment, and the callbacks it ran.

`none` stands for a call that does not return, or that follows a dangling pointer.
-/

set_option autoImplicit false

namespace Rustyaxe

/-- `reload_event_t`; a callback is its address, and a `none` key asks for the end of a reload. -/
structure ReloadEvent where
  key : Option CStr
  callback : ℕ
  deriving DecidableEq, Repr

/-- The state `cfg_apply_new` works on. -/
structure CfgState where
  /-- The dictionaries by their addresses. -/
  dicts : ℕ → Option Dict
  cfg : Option ℕ
  reloadEvents : List ReloadEvent
  /-- Every invocation of `reload_event_run`, with the live configuration it was made in. -/
  runs : List (Option CStr × Option Dict)
  /-- Every callback run, with its argument. -/
  calls : List (ℕ × Option CStr)

/-- The live configuration. -/
def CfgState.live (s : CfgState) : Option Dict := s.cfg.bind s.dicts

/-- `*p = d` for a dictionary, or `dict_free(p)` for `d = none`. -/
def CfgState.setDict (s : CfgState) (p : ℕ) (d : Option Dict) : CfgState :=
  { s with dicts := Function.update s.dicts p d }

/-- Is the callback registered for this key? -/
def ReloadEvent.matches (key : Option CStr) (rl : ReloadEvent) : Bool :=
  match key, rl.key with
  | none, none => true
  | some key, some k => strcaseeq key k
  | _, _ => false

/-- `reload_event_run` -/
def reloadEventRun (key : Option CStr) (s : CfgState) : Bool × CfgState :=
  let found := s.reloadEvents.filter (ReloadEvent.matches key)
  (!found.isEmpty,
    { s with
      runs := s.runs ++ [(key, s.live)]
      calls := s.calls ++ found.map fun rl ↦ (rl.callback, key) })

/-- `cfg_dict_has_key` -/
def cfgDictHasKey (d : Dict) (wanted : CStr) : Bool :=
  (dictEnumerateAll d).any fun kp ↦ kp.key == wanted

/-- The three counters `cfg_apply_new` logs. -/
structure ApplyCounts where
  added : ℕ
  changed : ℕ
  removed : ℕ
  deriving DecidableEq, Repr

/-- The loop of `cfg_apply_new` over the difference; `staged` holds the old contents by then. -/
def applyLoop (staged : Dict) : List Keypair → ApplyCounts → CfgState → ApplyCounts × CfgState
  | [], n, s => (n, s)
  | change :: rest, n, s =>
    let existsNow := s.live.any fun d ↦ cfgDictHasKey d change.key
    let existed := cfgDictHasKey staged change.key
    let n :=
      if !existsNow then { n with removed := n.removed + 1 }
      else if existed then { n with changed := n.changed + 1 }
      else { n with added := n.added + 1 }
    applyLoop staged rest n (reloadEventRun (some change.key) s).2

/-- The outcomes of the allocations of one `cfg_apply_new`: those of `dict_diff` and those of
`dict_clone`. -/
structure ApplyAlloc where
  diff : Bool
  changed : ℕ → StoreAlloc
  removed : ℕ → StoreAlloc
  clone : Bool
  copied : ℕ → StoreAlloc

/-- `if (oldcfg && oldcfg != cfg && oldcfg != newcfg) dict_free(oldcfg)` -/
def freeOldcfg (oldcfg : Option ℕ) (cfg newcfg : ℕ) (s : CfgState) : CfgState :=
  match oldcfg with
  | some oldcfg => if oldcfg ≠ cfg ∧ oldcfg ≠ newcfg then s.setDict oldcfg none else s
  | none => s

/-- `cfg_apply_new` from the swap of the two structures on. -/
def applySwap (s : CfgState) (cfg newcfg : ℕ) (oldcfg : Option ℕ) (live staged changes : Dict) :
    ApplyCounts × CfgState :=
  let s := s.setDict cfg (some staged)
  let r := applyLoop live (dictEnumerateAll changes) ⟨0, 0, 0⟩ s
  let s := (reloadEventRun none r.2).2
  (r.1, (freeOldcfg oldcfg cfg newcfg s).setDict newcfg none)

/-- `cfg_apply_new`, with the counters it logs. -/
def cfgApplyNew (dictHash : CStr → UInt32) (mem : ApplyAlloc) (s : CfgState)
    (oldcfg newcfg : Option ℕ) : Option (Bool × ApplyCounts × CfgState) :=
  match s.cfg, newcfg with
  | some cfg, some newcfg =>
    if newcfg = cfg then some (false, ⟨0, 0, 0⟩, s)
    else do
      let live ← s.dicts cfg
      let new ← s.dicts newcfg
      match ← dictDiff dictHash mem.diff mem.changed mem.removed live new with
      | none => return (false, ⟨0, 0, 0⟩, s)
      | some changes =>
        match ← dictClone dictHash mem.clone mem.copied new with
        | none => return (false, ⟨0, 0, 0⟩, s)
        | some staged => return (true, applySwap s cfg newcfg oldcfg live staged changes)
  | _, _ => some (false, ⟨0, 0, 0⟩, s)

/-! ## What the loop does -/

@[simp] theorem reloadEventRun_dicts (key : Option CStr) (s : CfgState) :
    (reloadEventRun key s).2.dicts = s.dicts := rfl

@[simp] theorem reloadEventRun_cfg (key : Option CStr) (s : CfgState) :
    (reloadEventRun key s).2.cfg = s.cfg := rfl

@[simp] theorem reloadEventRun_live (key : Option CStr) (s : CfgState) :
    (reloadEventRun key s).2.live = s.live := rfl

@[simp] theorem reloadEventRun_runs (key : Option CStr) (s : CfgState) :
    (reloadEventRun key s).2.runs = s.runs ++ [(key, s.live)] := rfl

/-- The loop reports every key of the difference, in order, and touches no dictionary. -/
theorem applyLoop_spec (staged : Dict) : ∀ (changes : List Keypair) (n : ApplyCounts)
    (s : CfgState),
    (applyLoop staged changes n s).2.dicts = s.dicts ∧
      (applyLoop staged changes n s).2.cfg = s.cfg ∧
      (applyLoop staged changes n s).2.runs
        = s.runs ++ (changes.map Keypair.key).map fun k ↦ (some k, s.live)
  | [], _, s => by simp [applyLoop]
  | change :: rest, n, s => by
    rw [applyLoop]
    obtain ⟨hdicts, hcfg, hruns⟩ := applyLoop_spec staged rest _ (reloadEventRun (some change.key) s).2
    refine ⟨hdicts, hcfg, ?_⟩
    rw [hruns]
    simp

theorem setDict_dicts (s : CfgState) (p : ℕ) (d : Option Dict) (q : ℕ) :
    (s.setDict p d).dicts q = if q = p then d else s.dicts q :=
  Function.update_apply s.dicts p d q

/-- `dict_free(oldcfg)` leaves the live dictionary and the records alone. -/
theorem freeOldcfg_spec (oldcfg : Option ℕ) (cfg newcfg : ℕ) (s : CfgState) :
    (freeOldcfg oldcfg cfg newcfg s).dicts cfg = s.dicts cfg ∧
      (freeOldcfg oldcfg cfg newcfg s).cfg = s.cfg ∧
      (freeOldcfg oldcfg cfg newcfg s).runs = s.runs := by
  cases oldcfg with
  | none => exact ⟨rfl, rfl, rfl⟩
  | some p =>
    rw [freeOldcfg]
    split
    · rename_i h
      exact ⟨by rw [setDict_dicts, if_neg (Ne.symm h.1)], rfl, rfl⟩
    · exact ⟨rfl, rfl, rfl⟩

/-- After the swap every invocation of `reload_event_run` sees the new contents. -/
theorem applySwap_spec {s : CfgState} {a n : ℕ} (hcfg : s.cfg = some a) (hne : n ≠ a)
    (oldcfg : Option ℕ) (live staged changes : Dict) :
    (applySwap s a n oldcfg live staged changes).2.cfg = some a ∧
      (applySwap s a n oldcfg live staged changes).2.dicts a = some staged ∧
      (applySwap s a n oldcfg live staged changes).2.runs
        = s.runs ++ (changes.entries.map Keypair.key).map (fun k ↦ (some k, some staged))
          ++ [(none, some staged)] := by
  set s₁ := s.setDict a (some staged) with hs₁
  have hlive : s₁.live = some staged := by
    rw [CfgState.live, show s₁.cfg = some a from hcfg, Option.bind_some, hs₁, setDict_dicts,
      if_pos rfl]
  obtain ⟨hdicts, hcfg₂, hruns⟩ := applyLoop_spec live changes.entries ⟨0, 0, 0⟩ s₁
  obtain ⟨hfree, hfreecfg, hfreeruns⟩ := freeOldcfg_spec oldcfg a n
    (reloadEventRun none (applyLoop live changes.entries ⟨0, 0, 0⟩ s₁).2).2
  simp only [applySwap, dictEnumerateAll_eq]
  refine ⟨?_, ?_, ?_⟩
  · exact hfreecfg.trans (hcfg₂.trans hcfg)
  · rw [setDict_dicts, if_neg (Ne.symm hne), hfree, reloadEventRun_dicts, hdicts, hs₁,
      setDict_dicts, if_pos rfl]
  · refine hfreeruns.trans ?_
    have hlive' : (applyLoop live changes.entries ⟨0, 0, 0⟩ s₁).2.live = some staged := by
      rw [CfgState.live, hdicts, hcfg₂]
      exact hlive
    rw [reloadEventRun_runs, hruns, hlive, hlive']
    rfl

variable {dictHash : CStr → UInt32}

/-- What `cfg_apply_new` can do with two dictionaries: refuse, because the difference or the clone
is not made, or swap. -/
theorem cfgApplyNew_cases {s s' : CfgState} {a n : ℕ} {old new : Dict} (hcfg : s.cfg = some a)
    (hold : s.dicts a = some old) (hnew : s.dicts n = some new) (hne : n ≠ a) {mem : ApplyAlloc}
    {oldcfg : Option ℕ} {rc : Bool} {counts : ApplyCounts}
    (h : cfgApplyNew dictHash mem s oldcfg (some n) = some (rc, counts, s')) :
    (rc = false ∧ s' = s ∧
      (dictDiff dictHash mem.diff mem.changed mem.removed old new = some none ∨
        dictClone dictHash mem.clone mem.copied new = some none)) ∨
    ∃ changes staged, rc = true ∧
      dictDiff dictHash mem.diff mem.changed mem.removed old new = some (some changes) ∧
      dictClone dictHash mem.clone mem.copied new = some (some staged) ∧
      applySwap s a n oldcfg old staged changes = (counts, s') := by
  simp only [cfgApplyNew, hcfg, if_neg hne, hold, hnew, Option.bind_eq_bind, Option.bind_some,
    Option.bind_eq_some_iff] at h
  obtain ⟨diff, hdiff, h⟩ := h
  cases diff with
  | none =>
    obtain ⟨rfl, -, rfl⟩ : false = rc ∧ _ = counts ∧ s = s' := by simpa using h
    exact .inl ⟨rfl, rfl, .inl hdiff⟩
  | some changes =>
    rw [Option.bind_eq_some_iff] at h
    obtain ⟨clone, hclone, h⟩ := h
    cases clone with
    | none =>
      obtain ⟨rfl, -, rfl⟩ : false = rc ∧ _ = counts ∧ s = s' := by simpa using h
      exact .inl ⟨rfl, rfl, .inr hclone⟩
    | some staged =>
      obtain ⟨rfl, hswap⟩ : true = rc ∧ applySwap s a n oldcfg old staged changes = (counts, s') := by
        simpa using h
      exact .inr ⟨changes, staged, rfl, hdiff, hclone, hswap⟩

/-- **A reload is exact.**  When it succeeds, the dictionary at the unchanged address `cfg` is the
new one as a typed map, and `reload_event_run` has been called, with that dictionary in place, once
for each key at which the two differ and then once with `NULL`.  When it fails, nothing has
happened. -/
theorem cfgApplyNew_exact {s s' : CfgState} {a n : ℕ} {old new : Dict} (hcfg : s.cfg = some a)
    (hold : s.dicts a = some old) (hnew : s.dicts n = some new) (hne : n ≠ a)
    (hco : Coherent dictHash old) (hco' : Coherent dictHash new)
    (hexact : ∀ kp ∈ new.entries, kp.value.isExact) {mem : ApplyAlloc} {oldcfg : Option ℕ}
    {rc : Bool} {counts : ApplyCounts}
    (h : cfgApplyNew dictHash mem s oldcfg (some n) = some (rc, counts, s')) :
    (rc = true → s'.cfg = some a ∧ ∃ d, s'.dicts a = some d ∧ d.toMap = new.toMap ∧
      ∃ keys : List CStr, s'.runs = s.runs ++ keys.map (fun k ↦ (some k, some d)) ++ [(none, some d)]
        ∧ keys.Nodup ∧ ∀ k, k ∈ keys ↔ old.toMap k ≠ new.toMap k) ∧
    (rc = false → s' = s) := by
  obtain ⟨rfl, rfl, -⟩ | ⟨changes, staged, rfl, hdiff, hclone, hswap⟩ :=
    cfgApplyNew_cases hcfg hold hnew hne h
  · exact ⟨fun h ↦ by simp at h, fun _ ↦ rfl⟩
  · obtain ⟨hcodiff, hkeys⟩ := dictDiff_spec hco hco' hexact hdiff
    obtain ⟨-, hmap⟩ := dictClone_spec hco' hclone
    obtain ⟨hcfg', hdict', hruns'⟩ := applySwap_spec hcfg hne oldcfg old staged changes
    rw [hswap] at hcfg' hdict' hruns'
    refine ⟨fun _ ↦ ⟨hcfg', staged, hdict', hmap, _, hruns', hcodiff.nodup_entries, fun k ↦ ?_⟩,
      fun h ↦ by simp at h⟩
    rw [← hkeys, Option.ne_none_iff_exists', List.mem_map]
    exact exists_congr fun kp ↦ hcodiff.mem_entries_iff

/-- Every allocation succeeds. -/
def ApplyAlloc.ok : ApplyAlloc := ⟨true, fun _ ↦ .ok, fun _ ↦ .ok, true, fun _ ↦ .ok⟩

/-- `a` and `b`. -/
def renewedEntries : Dict := dictStoreAt oneEntry 4 [98] (.int 2) (dictHashMurmur [98])

theorem wellFormed_renewedEntries : WellFormed dictHashMurmur renewedEntries :=
  wellFormed_oneEntry.store [98] (.int 2) (by decide) (by decide) ⟨0, by decide, by decide⟩

/-- A live configuration of `a` and `d`, and one of `a` and `b` to replace it. -/
def exampleReload : CfgState where
  dicts p := if p = 0 then some twoEntries else if p = 1 then some renewedEntries else none
  cfg := some 0
  reloadEvents := []
  runs := []
  calls := []

/-- `b` comes, `d` goes, and `a` stays what it is. -/
theorem cfgApplyNew_exact_twoEntries :
    ∃ counts s', cfgApplyNew dictHashMurmur .ok exampleReload none (some 1) = some (true, counts, s')
      ∧ s'.cfg = some 0 ∧ ∃ d, s'.dicts 0 = some d ∧ d.toMap = renewedEntries.toMap ∧
        ∃ keys : List CStr, s'.runs = keys.map (fun k ↦ (some k, some d)) ++ [(none, some d)] ∧
          keys.Nodup ∧ [98] ∈ keys ∧ [100] ∈ keys ∧ [97] ∉ keys := by
  have hrc : (cfgApplyNew dictHashMurmur .ok exampleReload none (some 1)).map Prod.fst
      = some true := by decide +kernel
  obtain ⟨⟨rc, counts, s'⟩, h, hrc⟩ := Option.map_eq_some_iff.mp hrc
  obtain rfl : rc = true := hrc
  obtain ⟨hcfg, d, hd, hmap, keys, hruns, hnodup, hkeys⟩ := (cfgApplyNew_exact
    (s := exampleReload) (a := 0) (n := 1) rfl rfl rfl (by decide)
    wellFormed_twoEntries.toCoherent wellFormed_renewedEntries.toCoherent (by decide) h).1 rfl
  exact ⟨counts, s', h, hcfg, d, hd, hmap, keys, hruns, hnodup, (hkeys _).mpr (by decide),
    (hkeys _).mpr (by decide), fun hmem ↦ (hkeys _).mp hmem (by decide)⟩

end Rustyaxe
