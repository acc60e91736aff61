import Mathlib.Data.List.Nodup
import Mathlib.Algebra.Order.Ring.Int
import Rustyaxe.CString
import Rustyaxe.Lib.ParallelCopy

/-!
# Descriptors of a child process

`subproc_spawn_fds_impl` of `subproc.c`: a child gets descriptors under numbers of its own.

The sources are duplicated above all targets before the process forks, so that the child can move
the duplicates to the targets one by one, whatever the numbers are (`Saved.moved` is why this moves
all of them at once).  Whether a source is open is found out when it is duplicated, and by then it
may be the number of a duplicate that has just been made.  So the child has what it should exactly
if all sources are open (`subprocSpawnFdsImpl_parallel_iff`).

The scheduling profile of the child is not modelled, as it has nothing to do with its descriptors.
-/

set_option autoImplicit false

namespace Rustyaxe

open ParallelCopy

/-! ## Descriptors -/

/-- An open descriptor: what it refers to, and `FD_CLOEXEC`. -/
structure Descriptor where
  file : ℕ
  cloexec : Bool
  deriving DecidableEq, Repr

/-- The descriptors of a process. -/
abbrev FdTable := ℕ → Option Descriptor

/-- What a call leaves to the system: the limit of descriptor numbers, and which calls succeed. -/
structure SpawnWorld where
  limit : ℕ
  malloc : Bool
  fork : Bool
  setpgid : Bool

/-- `fcntl(fd, F_DUPFD_CLOEXEC, min)`: the lowest number from `min` on that is free. -/
def fcntlDupfdCloexec (limit : ℕ) (t : FdTable) (fd min : ℕ) : Option (ℕ × FdTable) := do
  let d ← t fd
  let new ← (List.range' min (limit - min)).find? fun n ↦ (t n).isNone
  return (new, Function.update t new (some ⟨d.file, true⟩))

/-- `dup2` -/
def dup2 (limit : ℕ) (t : FdTable) (old new : ℕ) : Option FdTable := do
  let d ← t old
  if limit ≤ new then none
  else if old = new then some t
  else some (Function.update t new (some ⟨d.file, false⟩))

/-- `close`, which changes nothing if the descriptor is not open. -/
def closeFd (t : FdTable) (fd : ℕ) : FdTable := Function.update t fd none

/-! ## The code -/

/-- `subproc_fd_t` -/
structure SubprocFd where
  source : ℤ
  target : ℤ
  deriving DecidableEq, Repr

/-- The arguments; `process` is the `pid` of the handle.  An array is `none` if it is `NULL` and its
count is not zero. -/
structure SpawnArgs where
  process : Option ℤ
  path : Option CStr
  argv : Option (List CStr)
  mappings : Option (List SubprocFd)
  closeFds : Option (List ℤ)
  group : Bool

/-- `INT_MAX` -/
def intMax : ℤ := 2 ^ 31 - 1

/-- The loop over the mappings that computes `first_fd`, from one of them on; `none` is a mapping
that is refused. -/
def firstFdLoop : (firstFd : ℤ) → (before : List SubprocFd) → List SubprocFd → Option ℤ
  | firstFd, _, [] => some firstFd
  | firstFd, before, m :: mappings =>
    if m.source < 0 ∨ m.target < 0 ∨ m.target = intMax then none
    else if before.any fun b ↦ m.target = b.target then none
    else firstFdLoop (if firstFd ≤ m.target then m.target + 1 else firstFd) (before ++ [m]) mappings

/-- What the duplication of the sources comes to: the mappings up to the first that fails, each with
`sources[i]`, the descriptors, and whether these are all mappings. -/
structure Duplicated where
  items : List (SubprocFd × ℕ)
  table : FdTable
  all : Bool

/-- The loop that duplicates the sources. -/
def dupSources (limit firstFd : ℕ) : FdTable → List SubprocFd → Duplicated
  | t, [] => ⟨[], t, true⟩
  | t, m :: mappings =>
    match fcntlDupfdCloexec limit t m.source.toNat firstFd with
    | none => ⟨[], t, false⟩
    | some (new, t) =>
      let d := dupSources limit firstFd t mappings
      { d with items := (m, new) :: d.items }

/-- The loop that closes the duplicates. -/
def closeSources (t : FdTable) (items : List (SubprocFd × ℕ)) : FdTable :=
  items.foldl (fun t i ↦ closeFd t i.2) t

/-- The loop over the list that is closed, except for targets. -/
def closeListed (items : List (SubprocFd × ℕ)) (t : FdTable) (closeFds : List ℤ) : FdTable :=
  closeFds.foldl (fun t fd ↦
    if items.any (fun i ↦ fd = i.1.target) = false ∧ 0 ≤ fd then closeFd t fd.toNat else t) t

/-- What a child comes to. -/
inductive ChildEnd where
  /-- It reaches `execv` with these descriptors. -/
  | exec (t : FdTable)
  | exit (status : ℕ)

/-- The child: the duplicates are moved and closed, and then the list is closed. -/
def spawnChild (w : SpawnWorld) (group : Bool) (closeFds : List ℤ) (t : FdTable)
    (items : List (SubprocFd × ℕ)) : ChildEnd :=
  if group ∧ w.setpgid = false then .exit 126
  else
    match items.foldlM (fun t i ↦ dup2 w.limit t i.2 i.1.target.toNat) t with
    | none => .exit 126
    | some t => .exec (closeListed items (closeSources t items) closeFds)

/-- What a call comes to: its result, the descriptors of the caller, and the child if there is
one. -/
structure SpawnResult where
  ok : Bool
  parent : FdTable
  child : Option ChildEnd

/-- `subproc_spawn_fds_impl` -/
def subprocSpawnFdsImpl (w : SpawnWorld) (t : FdTable) (a : SpawnArgs) : SpawnResult :=
  match a.process, a.path, a.argv, a.mappings, a.closeFds with
  | some pid, some (_ :: _), some (_ :: _), some mappings, some closeFds =>
    if 0 < pid ∨ (2 ^ 64 - 1) / 4 < mappings.length then ⟨false, t, none⟩
    else
      match firstFdLoop 3 [] mappings with
      | none => ⟨false, t, none⟩
      | some firstFd =>
        if mappings ≠ [] ∧ w.malloc = false then ⟨false, t, none⟩
        else
          let d := dupSources w.limit firstFd.toNat t mappings
          let forked := d.all && w.fork
          ⟨forked, closeSources d.table d.items,
            if forked then some (spawnChild w a.group closeFds d.table d.items) else none⟩
  | _, _, _, _, _ => ⟨false, t, none⟩

/-! ## What a call is for -/

/-- The targets of the mappings. -/
def targets (mappings : List SubprocFd) : List ℕ := mappings.map fun m ↦ m.target.toNat

/-- The descriptors of a child: every target refers to what its source referred to, the list is
closed except for targets, nothing else is open that was not, and everything else is as it was. -/
structure MapsInParallel (t : FdTable) (mappings : List SubprocFd) (closeFds : List ℤ)
    (child : FdTable) : Prop where
  target : ∀ m ∈ mappings,
    child m.target.toNat = (t m.source.toNat).map fun d ↦ ⟨d.file, false⟩
  closed : ∀ fd ∈ closeFds, 0 ≤ fd → fd.toNat ∉ targets mappings → child fd.toNat = none
  temporary : ∀ fd, t fd = none → fd ∉ targets mappings → child fd = none
  other : ∀ fd : ℕ, fd ∉ targets mappings → (fd : ℤ) ∉ closeFds → child fd = t fd

/-- All sources are open. -/
def SourcesOpen (t : FdTable) (mappings : List SubprocFd) : Prop :=
  ∀ m ∈ mappings, (t m.source.toNat).isSome

/-! ## The mappings -/

theorem firstFdLoop_spec {mappings before : List SubprocFd} {firstFd limit : ℤ}
    (h : firstFdLoop firstFd before mappings = some limit) :
    firstFd ≤ limit ∧ (∀ m ∈ mappings, 0 ≤ m.source ∧ 0 ≤ m.target ∧ m.target < limit) ∧
      (∀ m ∈ mappings, ∀ b ∈ before, m.target ≠ b.target) ∧
      (mappings.map SubprocFd.target).Nodup := by
  induction mappings generalizing firstFd before with
  | nil =>
    rw [firstFdLoop, Option.some.injEq] at h
    exact ⟨h.le, List.forall_mem_nil _, List.forall_mem_nil _, List.nodup_nil⟩
  | cons m mappings ih =>
    rw [firstFdLoop] at h
    split at h
    case isTrue => cases h
    case isFalse hsigns =>
    split at h
    case isTrue => cases h
    case isFalse hbefore =>
      obtain ⟨hle, hrange, hfresh, hnodup⟩ := ih h
      have hsteps : firstFd ≤ limit ∧ m.target < limit := by
        split at hle <;> omega
      simp only [List.any_eq_true, decide_eq_true_eq, not_exists, not_and] at hbefore
      refine ⟨hsteps.1, List.forall_mem_cons.mpr ⟨by omega, hrange⟩, ?_, ?_⟩
      · exact List.forall_mem_cons.mpr ⟨hbefore, fun k hk b hb ↦
          hfresh k hk b (List.mem_append_left _ hb)⟩
      · refine List.nodup_cons.mpr ⟨fun hmem ↦ ?_, hnodup⟩
        obtain ⟨k, hk, hkm⟩ := List.mem_map.mp hmem
        exact hfresh k hk m (List.mem_append_right _ List.mem_cons_self) hkm

theorem mem_targets_iff {mappings : List SubprocFd} (h : ∀ m ∈ mappings, 0 ≤ m.target) {fd : ℤ}
    (hfd : 0 ≤ fd) : fd.toNat ∈ targets mappings ↔ ∃ m ∈ mappings, m.target = fd := by
  rw [targets, List.mem_map]
  refine exists_congr fun m ↦ and_congr_right fun hm ↦ ?_
  have := h m hm
  omega

theorem nodup_targets {mappings : List SubprocFd} (h : ∀ m ∈ mappings, 0 ≤ m.target)
    (hnodup : (mappings.map SubprocFd.target).Nodup) : (targets mappings).Nodup := by
  have hcast : mappings.map SubprocFd.target = (targets mappings).map fun n : ℕ ↦ (n : ℤ) := by
    rw [targets, List.map_map]
    exact List.map_congr_left fun m hm ↦ (Int.toNat_of_nonneg (h m hm)).symm
  rw [hcast] at hnodup
  exact hnodup.of_map _

/-! ## The duplicates -/

theorem fcntlDupfdCloexec_eq_some {limit fd min new : ℕ} {t t' : FdTable}
    (h : fcntlDupfdCloexec limit t fd min = some (new, t')) :
    ∃ d, t fd = some d ∧ min ≤ new ∧ new < limit ∧ t new = none ∧
      t' = Function.update t new (some ⟨d.file, true⟩) := by
  rw [fcntlDupfdCloexec] at h
  obtain ⟨d, hd, h⟩ := Option.bind_eq_some_iff.mp h
  obtain ⟨n, hn, h⟩ := Option.bind_eq_some_iff.mp h
  obtain ⟨rfl, rfl⟩ := Prod.mk.inj (Option.some.inj h)
  have hrange := List.mem_range'_1.mp (List.mem_of_find?_eq_some hn)
  have hfree := List.find?_some hn
  rw [Option.isNone_iff_eq_none] at hfree
  exact ⟨d, hd, hrange.1, by omega, hfree, rfl⟩

/-- The duplicates are spare cells with what is in the sources. -/
theorem dupSources_saved (limit firstFd : ℕ) (t : FdTable) (mappings : List SubprocFd) :
    Saved (fun d ↦ ⟨d.file, true⟩) (fun i : SubprocFd × ℕ ↦ i.1.source.toNat) Prod.snd t
      (dupSources limit firstFd t mappings).table (dupSources limit firstFd t mappings).items := by
  induction mappings generalizing t with
  | nil => exact .nil
  | cons m mappings ih =>
    rw [dupSources]
    cases hdup : fcntlDupfdCloexec limit t m.source.toNat firstFd with
    | none => exact .nil
    | some r =>
      obtain ⟨new, t'⟩ := r
      obtain ⟨d, hd, -, -, hfree, rfl⟩ := fcntlDupfdCloexec_eq_some hdup
      exact .cons (i := (m, new)) hfree hd (ih _)

theorem dupSources_range (limit firstFd : ℕ) (t : FdTable) (mappings : List SubprocFd) :
    ∀ i ∈ (dupSources limit firstFd t mappings).items, firstFd ≤ i.2 ∧ i.2 < limit := by
  induction mappings generalizing t with
  | nil => exact List.forall_mem_nil _
  | cons m mappings ih =>
    rw [dupSources]
    cases hdup : fcntlDupfdCloexec limit t m.source.toNat firstFd with
    | none => exact List.forall_mem_nil _
    | some r =>
      obtain ⟨new, t'⟩ := r
      obtain ⟨d, -, hmin, hlimit, -⟩ := fcntlDupfdCloexec_eq_some hdup
      exact List.forall_mem_cons.mpr ⟨⟨hmin, hlimit⟩, ih t'⟩

/-- When all calls succeed, every mapping has its duplicate. -/
theorem dupSources_fst {limit firstFd : ℕ} {t : FdTable} {mappings : List SubprocFd}
    (hall : (dupSources limit firstFd t mappings).all = true) :
    (dupSources limit firstFd t mappings).items.map Prod.fst = mappings := by
  induction mappings generalizing t with
  | nil => rfl
  | cons m mappings ih =>
    rw [dupSources] at hall ⊢
    cases hdup : fcntlDupfdCloexec limit t m.source.toNat firstFd with
    | none =>
      rw [hdup] at hall
      cases hall
    | some r =>
      rw [hdup] at hall
      exact congrArg (m :: ·) (ih hall)

/-! ## The child -/

/-- Moving the duplicates succeeds, as the targets are below them. -/
theorem foldlM_dup2 {limit : ℕ} {t : FdTable} {items : List (SubprocFd × ℕ)}
    (hfilled : ∀ i ∈ items, (t i.2).isSome)
    (hapart : ∀ i ∈ items, i.1.target.toNat < limit ∧
      ∀ j ∈ items, j.2 ≠ i.1.target.toNat) :
    items.foldlM (fun t i ↦ dup2 limit t i.2 i.1.target.toNat) t =
      some (copyAll (fun d ↦ ⟨d.file, false⟩) Prod.snd (fun i ↦ i.1.target.toNat) t items) := by
  induction items generalizing t with
  | nil => rfl
  | cons i items ih =>
    rw [List.forall_mem_cons] at hfilled hapart
    obtain ⟨d, hd⟩ := Option.isSome_iff_exists.mp hfilled.1
    have hdup : dup2 limit t i.2 i.1.target.toNat =
        some (Function.update t i.1.target.toNat ((t i.2).map fun d ↦ ⟨d.file, false⟩)) := by
      simp [dup2, hd, Nat.not_le.mpr hapart.1.1, hapart.1.2 i List.mem_cons_self]
    rw [List.foldlM_cons, hdup, copyAll, List.foldl_cons, ← copyAll]
    refine ih (fun j hj ↦ ?_) fun j hj ↦ ?_
    · rw [Function.update_of_ne (hapart.1.2 j (List.mem_cons_of_mem _ hj))]
      exact hfilled.2 j hj
    · exact ⟨(hapart.2 j hj).1, fun k hk ↦ (hapart.2 j hj).2 k (List.mem_cons_of_mem _ hk)⟩

theorem closeListed_apply (items : List (SubprocFd × ℕ)) (t : FdTable) (closeFds : List ℤ)
    (fd : ℕ) : closeListed items t closeFds fd =
      if (fd : ℤ) ∈ closeFds ∧ items.any (fun i ↦ (fd : ℤ) = i.1.target) = false then none
      else t fd := by
  induction closeFds generalizing t with
  | nil => simp [closeListed]
  | cons c closeFds ih =>
    rw [closeListed, List.foldl_cons, ← closeListed, ih]
    by_cases hfd : (fd : ℤ) = c
    · subst hfd
      by_cases hkept : items.any (fun i ↦ (fd : ℤ) = i.1.target) = false
      · simp [hkept, closeFd]
      · simp [hkept]
    · simp only [List.mem_cons, or_iff_right hfd]
      refine if_congr Iff.rfl rfl ?_
      split
      case isTrue hc => exact Function.update_of_ne (by omega) _ _
      case isFalse => rfl

/-- **The descriptors of the child**, when the sources have been duplicated: a target has what has
been duplicated for it, and everything else is as it should be. -/
theorem spawnChild_spec {w : SpawnWorld} {group : Bool} (closeFds : List ℤ) {t t' : FdTable}
    {mappings : List SubprocFd} {items : List (SubprocFd × ℕ)} {firstFd : ℤ}
    (hgroup : group = true → w.setpgid = true) (hfst : items.map Prod.fst = mappings)
    (hsaved : Saved (fun d ↦ ⟨d.file, true⟩) (fun i : SubprocFd × ℕ ↦ i.1.source.toNat) Prod.snd
      t t' items)
    (hrange : ∀ i ∈ items, firstFd.toNat ≤ i.2 ∧ i.2 < w.limit)
    (hmappings : ∀ m ∈ mappings, 0 ≤ m.source ∧ 0 ≤ m.target ∧ m.target < firstFd)
    (hnodup : (mappings.map SubprocFd.target).Nodup) :
    ∃ child, spawnChild w group closeFds t' items = .exec child ∧
      (∀ i ∈ items, child i.1.target.toNat = (t' i.2).map fun d ↦ ⟨d.file, false⟩) ∧
      ∀ fd ∉ targets mappings, child fd = if (fd : ℤ) ∈ closeFds then none else t fd := by
  have htargets : items.map (fun i ↦ i.1.target.toNat) = targets mappings := by
    rw [targets, ← hfst, List.map_map]
    rfl
  have hmem : ∀ i ∈ items, i.1 ∈ mappings := fun i hi ↦ hfst ▸ List.mem_map_of_mem hi
  have hbelow : ∀ i ∈ items, ∀ j ∈ items, i.1.target.toNat < j.2 := fun i hi j hj ↦ by
    have := hmappings _ (hmem i hi)
    have := hrange j hj
    omega
  have hpos : ∀ m ∈ mappings, 0 ≤ m.target := fun m hm ↦ (hmappings m hm).2.1
  have hapart : (items.map fun i ↦ i.1.target.toNat).Nodup :=
    htargets ▸ nodup_targets hpos hnodup
  have hmoved := hsaved.moved (g := fun d ↦ ⟨d.file, false⟩) hapart fun i hi hmem ↦ by
      obtain ⟨j, hj, hji⟩ := List.mem_map.mp hmem
      exact (hbelow j hj i hi).ne hji
  have hcopied := foldlM_dup2 hsaved.filled fun i hi ↦
    ⟨(hbelow i hi i hi).trans (hrange i hi).2, fun j hj ↦ (hbelow i hi j hj).ne'⟩
  have hnot : ¬ (group = true ∧ w.setpgid = false) := fun h ↦ by
    rw [hgroup h.1] at h
    exact Bool.noConfusion h.2
  -- a number is kept exactly if it is a target
  have hkept (fd : ℕ) : items.any (fun i ↦ (fd : ℤ) = i.1.target) = true ↔
      fd ∈ targets mappings := by
    have hiff := mem_targets_iff hpos (Int.natCast_nonneg fd)
    rw [Int.toNat_natCast] at hiff
    rw [hiff, ← hfst, List.any_eq_true]
    constructor
    · rintro ⟨i, hi, heq⟩
      exact ⟨i.1, List.mem_map_of_mem hi, (of_decide_eq_true heq).symm⟩
    · rintro ⟨m, hm, heq⟩
      obtain ⟨i, hi, rfl⟩ := List.mem_map.mp hm
      exact ⟨i, hi, decide_eq_true heq.symm⟩
  rw [spawnChild, if_neg hnot, hcopied]
  refine ⟨_, rfl, fun i hi ↦ ?_, fun fd hfd ↦ ?_⟩
  · have htarget : i.1.target.toNat ∈ targets mappings := htargets ▸ List.mem_map_of_mem hi
    rw [closeListed_apply, (hkept _).mpr htarget, if_neg fun h ↦ Bool.noConfusion h.2]
    exact hmoved.1 i hi
  · have hnone : items.any (fun i ↦ (fd : ℤ) = i.1.target) = false :=
      Bool.eq_false_iff.mpr fun h ↦ hfd ((hkept fd).mp h)
    rw [closeListed_apply, hnone, ← hmoved.2 fd (htargets ▸ hfd)]
    simp only [and_true]
    rfl

/-! ## Spawning -/

/-- A call that succeeds. -/
theorem subprocSpawnFdsImpl_ok {w : SpawnWorld} {t : FdTable} {a : SpawnArgs}
    (hok : (subprocSpawnFdsImpl w t a).ok = true) : ∃ mappings closeFds firstFd,
      a.mappings = some mappings ∧ a.closeFds = some closeFds ∧
      firstFdLoop 3 [] mappings = some firstFd ∧
      (dupSources w.limit firstFd.toNat t mappings).all = true ∧
      (subprocSpawnFdsImpl w t a).parent =
        closeSources (dupSources w.limit firstFd.toNat t mappings).table
          (dupSources w.limit firstFd.toNat t mappings).items ∧
      (subprocSpawnFdsImpl w t a).child =
        some (spawnChild w a.group closeFds (dupSources w.limit firstFd.toNat t mappings).table
          (dupSources w.limit firstFd.toNat t mappings).items) := by
  rw [subprocSpawnFdsImpl] at hok ⊢
  split at hok
  case h_2 => cases hok
  case h_1 pid c path arg args mappings closeFds _ _ _ hmappings hclose =>
    split at hok
    case isTrue => cases hok
    case isFalse hargs =>
    cases hfirst : firstFdLoop 3 [] mappings with
    | none =>
      rw [hfirst] at hok
      cases hok
    | some firstFd =>
      rw [hfirst] at hok
      dsimp only at hok ⊢
      split at hok
      case isTrue => cases hok
      case isFalse hmalloc =>
        have hforked : ((dupSources w.limit firstFd.toNat t mappings).all && w.fork) = true := hok
        rw [if_neg hargs, if_neg hmalloc]
        refine ⟨mappings, closeFds, firstFd, hmappings, hclose, hfirst, ?_, rfl, if_pos hforked⟩
        exact (Bool.and_eq_true_iff.mp hforked).1

/-- **The child has what it should exactly if all sources are open**, in every call that succeeds;
the descriptors of the caller are what they were. -/
theorem subprocSpawnFdsImpl_parallel_iff {w : SpawnWorld} {t : FdTable} {a : SpawnArgs}
    (hok : (subprocSpawnFdsImpl w t a).ok = true)
    (hgroup : a.group = true → w.setpgid = true) :
    ((subprocSpawnFdsImpl w t a).parent = t ∧
      ∃ child, (subprocSpawnFdsImpl w t a).child = some (.exec child) ∧
        MapsInParallel t (a.mappings.getD []) (a.closeFds.getD []) child) ↔
    SourcesOpen t (a.mappings.getD []) := by
  obtain ⟨mappings, closeFds, firstFd, hmappings, hclose, hfirst, hall, hparent, hchildEnd⟩ :=
    subprocSpawnFdsImpl_ok hok
  obtain ⟨-, hrange, -, hnodup⟩ := firstFdLoop_spec hfirst
  have hsaved := dupSources_saved w.limit firstFd.toNat t mappings
  have hfst := dupSources_fst hall
  obtain ⟨child, hchild, htarget, hother⟩ := spawnChild_spec closeFds hgroup hfst hsaved
    (dupSources_range w.limit firstFd.toNat t mappings) hrange hnodup
  rw [hparent, hchildEnd, hchild, hmappings, hclose, Option.getD_some, Option.getD_some]
  constructor
  · rintro ⟨-, child', hexec, hparallel⟩ m hm
    obtain rfl := ChildEnd.exec.inj (Option.some.inj hexec)
    obtain ⟨i, hi, rfl⟩ := List.mem_map.mp (hfst.symm ▸ hm)
    obtain ⟨d, hd⟩ := Option.isSome_iff_exists.mp (hsaved.filled i hi)
    have hsome := hparallel.target i.1 hm
    rw [htarget i hi, hd] at hsome
    rw [← Option.isSome_map, ← hsome]
    rfl
  · intro hopen
    refine ⟨hsaved.restored, child, rfl, ?_, ?_, ?_, ?_⟩
    · intro m hm
      obtain ⟨i, hi, rfl⟩ := List.mem_map.mp (hfst.symm ▸ hm)
      obtain ⟨d, hd⟩ := Option.isSome_iff_exists.mp (hopen i.1 hm)
      rw [htarget i hi, hsaved.saved i hi d hd, hd]
      rfl
    · intro fd hfd hpos hnot
      rw [hother _ hnot, if_pos (by rwa [Int.toNat_of_nonneg hpos])]
    · intro fd hfree hnot
      rw [hother _ hnot, hfree, ite_self]
    · intro fd hnot hkept
      rw [hother _ hnot, if_neg hkept]

/-! ## A swap, and a source that is not open -/

/-- Descriptors `0` to `4` are open, each on a file of its own. -/
def fiveOpen : FdTable := fun fd ↦ if fd < 5 then some ⟨fd, false⟩ else none

/-- All calls succeed that may. -/
def kindWorld : SpawnWorld := ⟨1024, true, true, true⟩

/-- Two sources are each other's targets, and one of them is listed. -/
def swapArgs : SpawnArgs where
  process := some (-1)
  path := some (lit "/bin/true")
  argv := some [lit "true"]
  mappings := some [⟨3, 4⟩, ⟨4, 3⟩]
  closeFds := some [3, 2, -1]
  group := true

theorem subprocSpawnFdsImpl_parallel_iff_swap :
    ((subprocSpawnFdsImpl kindWorld fiveOpen swapArgs).parent = fiveOpen ∧
      ∃ child, (subprocSpawnFdsImpl kindWorld fiveOpen swapArgs).child = some (.exec child) ∧
        MapsInParallel fiveOpen [⟨3, 4⟩, ⟨4, 3⟩] [3, 2, -1] child) ↔
    SourcesOpen fiveOpen [⟨3, 4⟩, ⟨4, 3⟩] :=
  subprocSpawnFdsImpl_parallel_iff (a := swapArgs) (by decide +kernel) fun _ ↦ rfl

/-- The source `5` is not open, and it is the duplicate of `0`: the child gets it as `1`. -/
def closedArgs : SpawnArgs where
  process := some (-1)
  path := some (lit "/bin/true")
  argv := some [lit "true"]
  mappings := some [⟨0, 4⟩, ⟨5, 1⟩]
  closeFds := some []
  group := false

theorem not_mapsInParallel_closed :
    (subprocSpawnFdsImpl kindWorld fiveOpen closedArgs).ok = true ∧
      ∃ child, (subprocSpawnFdsImpl kindWorld fiveOpen closedArgs).child = some (.exec child) ∧
        ¬ MapsInParallel fiveOpen [⟨0, 4⟩, ⟨5, 1⟩] [] child := by
  refine ⟨by decide +kernel, _, rfl, fun h ↦ ?_⟩
  have htarget := h.target ⟨5, 1⟩ (by simp)
  exact absurd htarget (by decide +kernel)

end Rustyaxe
