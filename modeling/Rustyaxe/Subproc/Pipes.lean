import Rustyaxe.Subproc.Process

/-!
# The pipes of a child

What a child has when `subproc_spawn_pipes` succeeds: its input, its output and its errors are ends
of pipes, and the handle has the other ends.  Besides these three, the child has only what the
program had open before.  So nothing keeps the pipe of its input open but the handle, and closing it
is the end of the input (`subprocSpawnPipes_child`).
-/

set_option autoImplicit false

namespace Rustyaxe.Subproc

variable {k k' : Kernel} {t t' : FdTable}

/-! ## The descriptors of new files -/

/-- Numbers that are given to new files, one after the other. -/
def fillAll (t : FdTable) : (file : ℕ) → List ℕ → FdTable
  | _, [] => t
  | file, fd :: fds => fillAll (Function.update t fd (some ⟨file, false⟩)) (file + 1) fds

theorem fillAll_append (t : FdTable) (file : ℕ) (fds fds' : List ℕ) :
    fillAll t file (fds ++ fds') = fillAll (fillAll t file fds) (file + fds.length) fds' := by
  induction fds generalizing t file with
  | nil => rfl
  | cons fd fds ih =>
    rw [List.cons_append, fillAll, ih, fillAll, List.length_cons, Nat.add_right_comm]
    rfl

theorem fillAll_of_not_mem {fds : List ℕ} {fd : ℕ} (t : FdTable) (file : ℕ) (h : fd ∉ fds) :
    fillAll t file fds fd = t fd := by
  induction fds generalizing t file with
  | nil => rfl
  | cons c fds ih =>
    rw [List.mem_cons, not_or] at h
    rw [fillAll, ih _ _ h.2, Function.update_of_ne h.1]

theorem fillAll_getElem {fds : List ℕ} (hnodup : fds.Nodup) (t : FdTable) (file : ℕ) {i fd : ℕ}
    (h : fds[i]? = some fd) : fillAll t file fds fd = some ⟨file + i, false⟩ := by
  induction fds generalizing t file i with
  | nil => cases h
  | cons c fds ih =>
    obtain ⟨hnot, hnodup⟩ := List.nodup_cons.mp hnodup
    cases i with
    | zero =>
      cases Option.some.inj h
      rw [fillAll, fillAll_of_not_mem _ _ hnot, Function.update_self]
      rfl
    | succ i => rw [fillAll, ih hnodup _ _ h, Nat.add_right_comm, Nat.add_assoc]

/-- Numbers that have been free are given to new files. -/
structure Fills (k : Kernel) (fds : List ℕ) (k' : Kernel) : Prop where
  nodup : fds.Nodup
  free : ∀ fd ∈ fds, k.fds fd = none
  table : k'.fds = fillAll k.fds k.files fds
  files : k'.files = k.files + fds.length

theorem Fills.append {fds fds' : List ℕ} {k1 : Kernel} (h : Fills k fds k1)
    (h' : Fills k1 fds' k') : Fills k (fds ++ fds') k' := by
  have hfree : ∀ fd ∈ fds', fd ∉ fds ∧ k.fds fd = none := by
    intro fd hfd
    have hnone := h'.free fd hfd
    rw [h.table] at hnone
    by_cases hmem : fd ∈ fds
    · obtain ⟨i, hi⟩ := List.getElem?_of_mem hmem
      rw [fillAll_getElem h.nodup _ _ hi] at hnone
      cases hnone
    · exact ⟨hmem, by rwa [fillAll_of_not_mem _ _ hmem] at hnone⟩
  refine ⟨?_, ?_, ?_, ?_⟩
  · exact List.nodup_append.mpr ⟨h.nodup, h'.nodup, fun a ha b hb hab ↦ (hfree b hb).1 (hab ▸ ha)⟩
  · exact fun fd hfd ↦ (List.mem_append.mp hfd).elim (h.free fd) fun hfd' ↦ (hfree fd hfd').2
  · rw [h'.table, h.table, h.files, fillAll_append]
  · rw [h'.files, h.files, List.length_append, Nat.add_assoc]

theorem openFile_fills {limit fd : ℕ} (h : k.openFile limit = some (fd, k')) :
    Fills k [fd] k' := by
  obtain ⟨n, hn, h⟩ := Option.bind_eq_some_iff.mp h
  cases Option.some.inj h
  have hfree := List.find?_some hn
  exact ⟨List.nodup_singleton _, List.forall_mem_singleton.mpr (Option.isNone_iff_eq_none.mp hfree),
    rfl, rfl⟩

theorem pipe_fills {limit : ℕ} {room : Bool} {ends : ℕ × ℕ}
    (h : pipe limit room k = some (ends, k')) : Fills k [ends.1, ends.2] k' := by
  rw [pipe] at h
  split at h
  case isTrue => cases h
  case isFalse =>
    obtain ⟨⟨readEnd, k1⟩, h1, h⟩ := Option.bind_eq_some_iff.mp h
    obtain ⟨⟨writeEnd, k2⟩, h2, h⟩ := Option.bind_eq_some_iff.mp h
    cases Option.some.inj h
    exact (openFile_fills h1).append (openFile_fills h2)

/-- The ends of the pipes. -/
def endsOf (childInput childOutput : ℕ × ℕ) (childError : Option (ℕ × ℕ)) : List ℕ :=
  [childInput.1, childInput.2, childOutput.1, childOutput.2] ++
    childError.elim [] fun e ↦ [e.1, e.2]

theorem makePipes_fills {w : PipesWorld} {mergeStderr : Bool} {childInput childOutput : ℕ × ℕ}
    {childError : Option (ℕ × ℕ)}
    (h : makePipes w mergeStderr k = (some (childInput, childOutput, childError), k')) :
    Fills k (endsOf childInput childOutput childError) k' ∧
      (childError = none ↔ mergeStderr = true) := by
  rw [makePipes] at h
  cases h1 : pipe w.spawn.limit w.pipes[0] k with
  | none =>
    rw [h1] at h
    cases h
  | some r1 =>
  obtain ⟨input, k1⟩ := r1
  rw [h1] at h
  dsimp only at h
  cases h2 : pipe w.spawn.limit w.pipes[1] k1 with
  | none =>
    rw [h2] at h
    cases h
  | some r2 =>
  obtain ⟨output, k2⟩ := r2
  rw [h2] at h
  dsimp only at h
  have hfour := (pipe_fills h1).append (pipe_fills h2)
  split at h
  · next hmerge =>
    cases h
    exact ⟨hfour, iff_of_true rfl hmerge⟩
  · next hmerge =>
    cases h3 : pipe w.spawn.limit w.pipes[2] k2 with
    | none =>
      rw [h3] at h
      cases h
    | some r3 =>
      rw [h3] at h
      cases h
      exact ⟨hfour.append (pipe_fills h3), iff_of_false (Option.some_ne_none _) hmerge⟩

/-- All descriptors of a list are closed in other programs. -/
theorem prepareFds_apply {ends : List ℤ} {calls : ℕ} (h : prepareFds ends calls t = (true, t'))
    (fd : ℕ) : t' fd = if (fd : ℤ) ∈ ends then (t fd).map fun d ↦ ⟨d.file, true⟩ else t fd := by
  induction ends generalizing calls t with
  | nil =>
    cases h
    rw [if_neg List.not_mem_nil]
  | cons e ends ih =>
    rw [prepareFds] at h
    split at h
    case isTrue hneg =>
      have hne : (fd : ℤ) ≠ e := by omega
      rw [ih h]
      simp only [List.mem_cons, or_iff_right hne]
    case isFalse hpos =>
      split at h
      case isTrue => cases h
      case isFalse =>
        rw [ih h, setCloexec, Function.update_apply]
        by_cases hfd : (fd : ℤ) = e
        · subst hfd
          rw [Int.toNat_natCast, if_pos rfl, if_pos List.mem_cons_self]
          split
          · rw [Option.map_map]
            rfl
          · rfl
        · have hne : ¬ fd = e.toNat := by omega
          rw [if_neg hne]
          simp only [List.mem_cons, or_iff_right hfd]

/-! ## The child -/

/-- The caller of `subproc_spawn_fds_impl` keeps its descriptors. -/
theorem subprocSpawnFdsImpl_parent (w : SpawnWorld) (t : FdTable) (a : SpawnArgs) :
    (subprocSpawnFdsImpl w t a).parent = t := by
  rw [subprocSpawnFdsImpl]
  split
  case h_2 => rfl
  case h_1 =>
    split
    case isTrue => rfl
    case isFalse =>
    split
    case h_1 => rfl
    case h_2 firstFd _ =>
    split
    case isTrue => rfl
    case isFalse => exact (dupSources_saved w.limit firstFd.toNat t _).restored

/-- The descriptors of a child whose sources are open. -/
theorem spawnFdsImpl_child {w : SpawnWorld} {a : SpawnArgs} {mappings : List SubprocFd}
    {closeFds : List ℤ} (hok : (subprocSpawnFdsImpl w t a).ok = true)
    (hgroup : a.group = true → w.setpgid = true) (hmappings : a.mappings = some mappings)
    (hclose : a.closeFds = some closeFds) (hopen : SourcesOpen t mappings) :
    ∃ child, (subprocSpawnFdsImpl w t a).child = some (.exec child) ∧
      (∀ m ∈ mappings, child m.target.toNat = (t m.source.toNat).map fun d ↦ ⟨d.file, false⟩) ∧
      ∀ fd ∉ targets mappings, child fd = if (fd : ℤ) ∈ closeFds then none else t fd := by
  obtain ⟨mappings', closeFds', firstFd, hmappings', hclose', hfirst, hall, -, hchildEnd⟩ :=
    subprocSpawnFdsImpl_ok hok
  obtain rfl := Option.some.inj (hmappings.symm.trans hmappings')
  obtain rfl := Option.some.inj (hclose.symm.trans hclose')
  obtain ⟨-, hrange, -, hnodup⟩ := firstFdLoop_spec hfirst
  have hsaved := dupSources_saved w.limit firstFd.toNat t mappings
  have hfst := dupSources_fst hall
  obtain ⟨child, hchild, htarget, hother⟩ := spawnChild_spec closeFds hgroup hfst hsaved
    (dupSources_range w.limit firstFd.toNat t mappings) hrange hnodup
  refine ⟨child, hchildEnd.trans (congrArg some hchild), fun m hm ↦ ?_, hother⟩
  obtain ⟨i, hi, rfl⟩ := List.mem_map.mp (hfst.symm ▸ hm)
  obtain ⟨d, hd⟩ := Option.isSome_iff_exists.mp (hopen i.1 hm)
  rw [htarget i hi, hsaved.saved i hi d hd, hd]
  rfl

theorem mem_pipeEnds {childInput childOutput : ℕ × ℕ} {childError : Option (ℕ × ℕ)} {fd : ℕ} :
    (fd : ℤ) ∈ pipeEnds childInput childOutput childError ↔
      fd ∈ endsOf childInput childOutput childError := by
  have hneg : (fd : ℤ) ≠ -1 := by omega
  cases childError with
  | none => simp [pipeEnds, endsOf, hneg]
  | some e => simp [pipeEnds, endsOf]

/-- The descriptors of the program once the pipes are there. -/
theorem prepareFds_pipes {k1 : Kernel} {childInput childOutput : ℕ × ℕ}
    {childError : Option (ℕ × ℕ)} {calls : ℕ}
    (hfills : Fills k (endsOf childInput childOutput childError) k1)
    (h : prepareFds (pipeEnds childInput childOutput childError) calls k1.fds = (true, t)) :
    (∀ i fd, (endsOf childInput childOutput childError)[i]? = some fd →
      t fd = some ⟨k.files + i, true⟩) ∧
      ∀ fd ∉ endsOf childInput childOutput childError, t fd = k.fds fd := by
  constructor
  · intro i fd hi
    rw [prepareFds_apply h, if_pos (mem_pipeEnds.mpr (List.mem_of_getElem? hi)), hfills.table,
      fillAll_getElem hfills.nodup _ _ hi]
    rfl
  · intro fd hfd
    rw [prepareFds_apply h, if_neg fun hmem ↦ hfd (mem_pipeEnds.mp hmem), hfills.table,
      fillAll_of_not_mem _ _ hfd]

/-- The child that `subproc_spawn_pipes` makes. -/
theorem pipesArgs_child {w : SpawnWorld} {path : Option CStr} {argv : Option (List CStr)}
    {group : Bool} {childInput childOutput : ℕ × ℕ} {childError : Option (ℕ × ℕ)} {pid : ℤ}
    (hfiles : ∀ fd d, k.fds fd = some d → d.file < k.files)
    (hgroup : group = true → w.setpgid = true)
    (hends : ∀ i fd, (endsOf childInput childOutput childError)[i]? = some fd →
      t fd = some ⟨k.files + i, true⟩)
    (hother : ∀ fd ∉ endsOf childInput childOutput childError, t fd = k.fds fd)
    (hok : (subprocSpawnFdsImpl w t { pipesArgs path argv group childInput childOutput childError
      with process := some pid }).ok = true) :
    ∃ child, (subprocSpawnFdsImpl w t { pipesArgs path argv group childInput childOutput childError
        with process := some pid }).child = some (.exec child) ∧
      child 0 = some ⟨k.files, false⟩ ∧ child 1 = some ⟨k.files + 3, false⟩ ∧
      child 2 = some ⟨k.files + childError.elim 3 fun _ ↦ 5, false⟩ ∧
      (∀ fd, 2 < fd → child fd = none ∨ child fd = k.fds fd) ∧
      ∀ fd d, child fd = some d → d.file ≠ k.files + 1 ∧ d.file ≠ k.files + 2 := by
  have hin : t childInput.1 = some ⟨k.files, true⟩ := hends 0 _ rfl
  have hout : t childOutput.2 = some ⟨k.files + 3, true⟩ := hends 3 _ rfl
  have herr : t (childError.elim childOutput.2 fun e ↦ e.2) =
      some ⟨k.files + childError.elim 3 fun _ ↦ 5, true⟩ := by
    cases childError with
    | none => exact hout
    | some e => exact hends 5 _ rfl
  have herrNat : (childError.elim (childOutput.2 : ℤ) fun e ↦ (e.2 : ℤ)).toNat =
      childError.elim childOutput.2 fun e ↦ e.2 := by
    cases childError <;> rfl
  obtain ⟨child, hchild, htarget, hrest⟩ := spawnFdsImpl_child hok hgroup rfl rfl (by
    rw [SourcesOpen, List.forall_mem_cons, List.forall_mem_cons, List.forall_mem_singleton]
    dsimp only
    rw [Int.toNat_natCast, Int.toNat_natCast, herrNat, hin, hout, herr]
    exact ⟨rfl, rfl, rfl⟩)
  rw [List.forall_mem_cons, List.forall_mem_cons, List.forall_mem_singleton] at htarget
  dsimp only at htarget
  rw [Int.toNat_natCast, Int.toNat_natCast, herrNat, hin, hout, herr] at htarget
  obtain ⟨h0, h1, h2⟩ := htarget
  have hrest' : ∀ fd, 2 < fd → child fd = none ∨ child fd = k.fds fd := by
    intro fd hfd
    have hnot : fd ∉ targets [⟨childInput.1, 0⟩, ⟨childOutput.2, 1⟩,
        ⟨childError.elim (childOutput.2 : ℤ) fun e ↦ (e.2 : ℤ), 2⟩] := by
      simp [targets]
      omega
    rw [hrest fd hnot]
    split
    · exact .inl rfl
    · next hmem => exact .inr (hother fd fun h ↦ hmem (mem_pipeEnds.mpr h))
  refine ⟨child, hchild, h0, h1, h2, hrest', fun fd d hd ↦ ?_⟩
  rcases Nat.lt_or_ge 2 fd with hfd | hfd
  · rcases hrest' fd hfd with hnone | hsame
    · rw [hnone] at hd
      cases hd
    · have hlt := hfiles fd d (hsame ▸ hd)
      omega
  · have hd' : child fd = some d := hd
    have hcases : fd = 0 ∨ fd = 1 ∨ fd = 2 := by omega
    rcases hcases with rfl | rfl | rfl
    · rw [show child 0 = _ from h0] at hd'
      cases hd'
      dsimp only
      omega
    · rw [show child 1 = _ from h1] at hd'
      cases hd'
      dsimp only
      omega
    · rw [show child 2 = _ from h2] at hd'
      cases hd'
      cases childError with
      | none => exact ⟨by simp, by simp⟩
      | some e => exact ⟨by simp, by simp⟩

theorem spawnFds_ok {w : SpawnWorld} {pid : ℤ} {a : SpawnArgs} {p : Process}
    (h : (spawnFds w pid a p k).ok = true) :
    (subprocSpawnFdsImpl w k.fds { a with process := some p.pid }).ok = true ∧
      (spawnFds w pid a p k).kernel.fds = k.fds ∧
      (spawnFds w pid a p k).child =
        (subprocSpawnFdsImpl w k.fds { a with process := some p.pid }).child := by
  rw [spawnFds] at h ⊢
  dsimp only at h ⊢
  split at h
  case isFalse => cases h
  case isTrue hok =>
    rw [if_pos hok]
    exact ⟨hok, subprocSpawnFdsImpl_parent w k.fds _, rfl⟩

theorem endsOf_apart {childInput childOutput : ℕ × ℕ} {childError : Option (ℕ × ℕ)}
    (h : (endsOf childInput childOutput childError).Nodup) :
    childInput.2 ≠ childInput.1 ∧ childInput.2 ≠ childOutput.2 ∧ childOutput.1 ≠ childInput.1 ∧
      childOutput.1 ≠ childOutput.2 ∧ ∀ e ∈ childError, childInput.2 ≠ e.2 ∧
        childOutput.1 ≠ e.2 ∧ e.1 ≠ childInput.1 ∧ e.1 ≠ childOutput.2 ∧ e.1 ≠ e.2 := by
  cases childError with
  | none =>
    simp only [endsOf, Option.elim_none, List.append_nil, List.nodup_cons, List.mem_cons,
      List.not_mem_nil, or_false, not_or] at h
    obtain ⟨⟨h12, h13, h14⟩, ⟨h23, h24⟩, h34, -⟩ := h
    exact ⟨Ne.symm h12, h24, Ne.symm h13, h34, fun e he ↦ by cases he⟩
  | some e =>
    simp only [endsOf, Option.elim_some, List.cons_append, List.nil_append, List.nodup_cons,
      List.mem_cons, List.not_mem_nil, or_false, not_or] at h
    obtain ⟨⟨h12, h13, h14, h15, h16⟩, ⟨h23, h24, h25, h26⟩, ⟨h34, h35, h36⟩, ⟨h45, h46⟩, h56, -⟩ :=
      h
    refine ⟨Ne.symm h12, h24, Ne.symm h13, h34, fun e' he' ↦ ?_⟩
    cases Option.some.inj he'
    exact ⟨h26, h36, Ne.symm h15, Ne.symm h45, h56⟩

/-- The streams that a handle gets, and what is closed. -/
theorem takeStreams_ok {w : PipesWorld} {childInput childOutput : ℕ × ℕ}
    {childError : Option (ℕ × ℕ)} {s r : Spawned}
    (h : takeStreams w childInput childOutput childError s = some r) (hok : r.ok = true) :
    r.child = s.child ∧ r.process.input = some childInput.2 ∧
      r.process.output = some childOutput.1 ∧
      r.process.errorFd = childError.elim (-1 : ℤ) (fun e ↦ (e.1 : ℤ)) ∧
      ∀ fd, fd ≠ childInput.1 → fd ≠ childOutput.2 → (∀ e ∈ childError, fd ≠ e.2) →
        r.kernel.fds fd = s.kernel.fds fd := by
  rw [takeStreams] at h
  dsimp only at h
  split at h
  case isFalse =>
    obtain ⟨stopped, -, h⟩ := Option.bind_eq_some_iff.mp h
    cases h
    cases hok
  case isTrue hrunning =>
    obtain ⟨hin, hout⟩ := Bool.and_eq_true_iff.mp hrunning
    cases h
    refine ⟨rfl, if_pos hin, if_pos hout, rfl, fun fd hne1 hne2 hne3 ↦ ?_⟩
    have htwo : closeFd (closeFd s.kernel.fds childInput.1) childOutput.2 fd =
        s.kernel.fds fd := by
      rw [closeFd, Function.update_of_ne hne2, closeFd, Function.update_of_ne hne1]
    cases childError with
    | none => exact htwo
    | some e => exact (Function.update_of_ne (hne3 e rfl) _ _).trans htwo

/-- The calls that a `subproc_spawn_pipes` that succeeds has made. -/
theorem subprocSpawnPipes_ok {w : PipesWorld} {path : Option CStr} {argv : Option (List CStr)}
    {mergeStderr group : Bool} {p : Process} {r : Spawned}
    (h : subprocSpawnPipes w path argv mergeStderr group p k = some r) (hok : r.ok = true) :
    ∃ path argv childInput childOutput childError k1 fds s,
      makePipes w mergeStderr k = (some (childInput, childOutput, childError), k1) ∧
      prepareFds (pipeEnds childInput childOutput childError) w.setfd k1.fds = (true, fds) ∧
      s = spawnFds w.spawn w.pid (pipesArgs path argv group childInput childOutput childError)
        subprocReset { k1 with fds } ∧
      s.ok = true ∧ takeStreams w childInput childOutput childError s = some r := by
  rw [subprocSpawnPipes.eq_def] at h
  split at h
  case h_2 =>
    cases h
    cases hok
  case h_1 =>
  split at h
  case isTrue =>
    cases h
    cases hok
  case isFalse =>
  split at h
  case h_1 =>
    cases h
    cases hok
  case h_2 c path arg argv childInput childOutput childError k1 hpipes =>
  dsimp only at h
  rcases hprep : prepareFds (pipeEnds childInput childOutput childError) w.setfd k1.fds with
    ⟨prepared, fds⟩
  rw [hprep] at h
  dsimp only at h
  split at h
  case isTrue =>
    cases h
    cases hok
  case isFalse hprepared =>
  obtain rfl : prepared = true := by simpa using hprepared
  split at h
  case isTrue hfailed =>
    cases h
    rw [hfailed] at hok
    cases hok
  case isFalse hspawned =>
  exact ⟨_, _, _, _, _, _, _, _, hpipes, hprep, rfl, by simpa using hspawned, h⟩

/-- **The pipes of a child**, when `subproc_spawn_pipes` succeeds: `0`, `1` and `2` of the child are
ends of pipes whose other ends are the streams of the handle, the child has nothing else that the
program did not have before, and no other end of its pipes. -/
theorem subprocSpawnPipes_child {w : PipesWorld} {path : Option CStr} {argv : Option (List CStr)}
    {mergeStderr group : Bool} {p : Process} {r : Spawned}
    (hfiles : ∀ fd d, k.fds fd = some d → d.file < k.files)
    (hgroup : group = true → w.spawn.setpgid = true)
    (h : subprocSpawnPipes w path argv mergeStderr group p k = some r) (hok : r.ok = true) :
    ∃ child input output, r.child = some (.exec child) ∧ r.process.input = some input ∧
      r.process.output = some output ∧ ∃ inPipe outPipe,
        r.kernel.fds input = some ⟨inPipe + 1, true⟩ ∧ child 0 = some ⟨inPipe, false⟩ ∧
        r.kernel.fds output = some ⟨outPipe, true⟩ ∧ child 1 = some ⟨outPipe + 1, false⟩ ∧
        (mergeStderr = true → child 2 = child 1) ∧
        (mergeStderr = false → ∃ errPipe, r.kernel.fds r.process.errorFd.toNat =
          some ⟨errPipe, true⟩ ∧ child 2 = some ⟨errPipe + 1, false⟩) ∧
        (∀ fd, 2 < fd → child fd = none ∨ child fd = k.fds fd) ∧
        ∀ fd d, child fd = some d → d.file ≠ inPipe + 1 ∧ d.file ≠ outPipe := by
  obtain ⟨path, argv, childInput, childOutput, childError, k1, fds, s, hpipes, hprep, rfl, hspawned,
    h⟩ := subprocSpawnPipes_ok h hok
  obtain ⟨hfills, hmerge⟩ := makePipes_fills hpipes
  obtain ⟨hends, hother⟩ := prepareFds_pipes hfills hprep
  obtain ⟨hspawn, hfds, hchildEnd⟩ := spawnFds_ok hspawned
  obtain ⟨hchild, hin, hout, herr, hkept⟩ := takeStreams_ok h hok
  obtain ⟨child, hexec, h0, h1, h2, hrest, hno⟩ :=
    pipesArgs_child hfiles hgroup hends hother hspawn
  obtain ⟨hin1, hin2, hout1, hout2, herror⟩ := endsOf_apart hfills.nodup
  have hopen : ∀ i fd, (endsOf childInput childOutput childError)[i]? = some fd →
      fd ≠ childInput.1 → fd ≠ childOutput.2 → (∀ e ∈ childError, fd ≠ e.2) →
      r.kernel.fds fd = some ⟨k.files + i, true⟩ := fun i fd hi hne1 hne2 hne3 ↦ by
    rw [hkept fd hne1 hne2 hne3, hfds, ← hends i fd hi]
  refine ⟨child, childInput.2, childOutput.1, hchild.trans (hchildEnd.trans hexec), hin, hout,
    k.files, k.files + 2, ?_, h0, ?_, h1, ?_, ?_, hrest, hno⟩
  · exact hopen 1 _ rfl hin1 hin2 fun e he ↦ (herror e he).1
  · exact hopen 2 _ rfl hout1 hout2 fun e he ↦ (herror e he).2.1
  · intro hmerged
    rw [h1, h2, hmerge.mpr hmerged]
    rfl
  · intro hapart
    obtain ⟨e, rfl⟩ : ∃ e, childError = some e := by
      refine Option.ne_none_iff_exists'.mp fun hnone ↦ ?_
      rw [hmerge.mp hnone] at hapart
      cases hapart
    obtain ⟨-, -, herr1, herr2, herr3⟩ := herror e rfl
    refine ⟨k.files + 4, ?_, h2⟩
    rw [herr]
    refine hopen 4 _ rfl herr1 herr2 fun e' he' ↦ ?_
    cases Option.some.inj he'
    exact herr3

/-- A program that has a file open as `0`, `1` and `2`. -/
def threeOpen : Kernel :=
  ⟨fun fd ↦ if fd < 3 then some ⟨0, false⟩ else none, 1, fun _ ↦ none, []⟩

/-- Nothing happens while a child is stopped, so that it has to be killed. -/
def stubborn : StopWorld := ⟨true, Vector.replicate 20 ⟨none, false⟩, true, 1⟩

/-- All calls succeed. -/
def allSucceed : PipesWorld :=
  ⟨⟨16, true, true, true⟩, 100, Vector.replicate 3 true, 6, true, true, stubborn⟩

theorem subprocSpawnPipes_child_merged : ∃ r child,
    subprocSpawnPipes allSucceed (some (lit "/bin/cat")) (some [lit "cat"]) true true subprocReset
      threeOpen = some r ∧ r.child = some (.exec child) ∧ child 2 = child 1 := by
  have hsome : ∃ r,
    subprocSpawnPipes allSucceed (some (lit "/bin/cat")) (some [lit "cat"]) true true
      subprocReset threeOpen = some r ∧ r.ok = true := ⟨_, rfl, by decide +kernel⟩
  obtain ⟨r, hr, hok⟩ := hsome
  have hfiles : ∀ fd d, threeOpen.fds fd = some d → d.file < threeOpen.files := by
    intro fd d hd
    rw [threeOpen] at hd
    dsimp only at hd
    split at hd
    · cases hd
      decide
    · cases hd
  obtain ⟨child, input, output, hchild, -, -, inPipe, outPipe, -, -, -, -, hmerged, -⟩ :=
    subprocSpawnPipes_child hfiles (fun _ ↦ rfl) hr hok
  exact ⟨r, child, hr, hchild, hmerged rfl⟩

end Rustyaxe.Subproc
