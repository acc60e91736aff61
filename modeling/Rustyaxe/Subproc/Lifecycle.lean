import Mathlib.Data.Multiset.AddSub
import Rustyaxe.Lib.Inventory
import Rustyaxe.Lib.Runs
import Rustyaxe.Subproc.Pipes

/-!
# What becomes of children and their descriptors

A program has handles, and calls the functions of `subproc.c` on them, in any order.  Its children
end when they do, and the rest of the program opens and closes descriptors of its own.

Every child that has not been waited for belongs to exactly one handle, no signal is ever sent to
anything else, and every open descriptor is a stream of exactly one handle, or the program's own
(`accounts_of_run`).  What gets lost are the streams of a handle that is used for another child
after it has been reaped and before it has been closed, as the descriptions of the functions say.
-/

set_option autoImplicit false

namespace Rustyaxe.Subproc

open Runs

/-! ## Runs -/

/-- The descriptors of a handle. -/
def Process.descriptors (p : Process) : List ℕ :=
  p.input.toList ++ p.output.toList ++ if 0 ≤ p.errorFd then [p.errorFd.toNat] else []

/-- The child of a handle. -/
def Process.child (p : Process) : List ℤ := if 0 < p.pid then [p.pid] else []

/-- A program: what the system keeps for it, its handles, the descriptors that it has opened itself,
and those that no handle has any more. -/
structure Session where
  kernel : Kernel
  handles : List Process
  own : List ℕ
  lost : List ℕ

/-- What happens. -/
inductive Event where
  | spawn (i : ℕ) (w : PipesWorld) (path : Option CStr) (argv : Option (List CStr))
    (mergeStderr group : Bool)
  | spawnFds (i : ℕ) (w : SpawnWorld) (pid : ℤ) (a : SpawnArgs)
  | reap (i : ℕ) (look : Look)
  | stop (i : ℕ) (w : StopWorld)
  | close (i : ℕ)
  /-- A child ends. -/
  | finish (pid status : ℤ)
  /-- The program opens a file, and closes a descriptor that it has opened. -/
  | openOwn (limit : ℕ)
  | closeOwn (fd : ℕ)

/-- The system gives no child the number of another one that is still there. -/
def Kernel.Fresh (k : Kernel) (pid : ℤ) : Prop := 0 < pid ∧ k.children pid = none

instance (k : Kernel) (pid : ℤ) : Decidable (k.Fresh pid) :=
  inferInstanceAs (Decidable (0 < pid ∧ k.children pid = none))

/-- The call gets as far as `subproc_reset`. -/
def resets (path : Option CStr) (argv : Option (List CStr)) (p : Process) : Bool :=
  match path, argv with
  | some (_ :: _), some (_ :: _) => p.pid ≤ 0
  | _, _ => false

/-- A handle has been used, and has lost some of its descriptors. -/
def Session.put (s : Session) (i : ℕ) (gone : List ℕ) (p : Process) (k : Kernel) : Session :=
  { s with handles := s.handles.set i p, kernel := k, lost := s.lost ++ gone }

/-- One step of a run; `none` is an event that cannot happen. -/
def Session.step (s : Session) : Event → Option Session
  | .spawn i w path argv mergeStderr group => do
    let p ← s.handles[i]?
    if s.kernel.Fresh w.pid then
      let r ← subprocSpawnPipes w path argv mergeStderr group p s.kernel
      some (s.put i (if resets path argv p then p.descriptors else []) r.process r.kernel)
    else none
  | .spawnFds i w pid a => do
    let p ← s.handles[i]?
    if s.kernel.Fresh pid then
      let r := Subproc.spawnFds w pid a p s.kernel
      some (s.put i (if r.ok then p.descriptors else []) r.process r.kernel)
    else none
  | .reap i look => do
    let p ← s.handles[i]?
    let (_, p, k) := subprocReap look p s.kernel
    return s.put i [] p k
  | .stop i w => do
    let p ← s.handles[i]?
    let (_, p, k) ← subprocStop w p s.kernel
    return s.put i [] p k
  | .close i => do
    let p ← s.handles[i]?
    let (p, k) := subprocClose p s.kernel
    return s.put i [] p k
  | .finish pid status => some { s with kernel := s.kernel.finish pid status }
  | .openOwn limit => do
    let (fd, kernel) ← s.kernel.openFile limit
    return { s with kernel, own := fd :: s.own }
  | .closeOwn fd =>
    if fd ∈ s.own then some { s with kernel := s.kernel.close fd, own := s.own.erase fd } else none

/-- All descriptors that belong to something. -/
def Session.descriptors (s : Session) : List ℕ :=
  s.own ++ s.lost ++ s.handles.flatMap Process.descriptors

/-- **Everything is accounted for**: the open descriptors and the children are those that belong to
something, each of them once, and all signals have gone to children. -/
structure Accounts (s : Session) : Prop where
  descriptors : Inventory s.descriptors s.kernel.fds
  children : Inventory (s.handles.flatMap Process.child) s.kernel.children
  strays : s.kernel.strays = []

/-! ## Calls of the system -/

variable {pid : ℤ} {cells : List ℕ} {others : List ℤ} {k k' : Kernel} {p p' : Process}

@[simp] theorem fds_close (fd : ℕ) (k : Kernel) :
    (k.close fd).fds = Function.update k.fds fd none := rfl

@[simp] theorem children_close (fd : ℕ) (k : Kernel) : (k.close fd).children = k.children := rfl

@[simp] theorem strays_close (fd : ℕ) (k : Kernel) : (k.close fd).strays = k.strays := rfl

theorem lowestFree_eq_some {limit fd : ℕ} {t : FdTable} (h : lowestFree limit t = some fd) :
    t fd = none := by
  have hfree := List.find?_some h
  exact Option.isNone_iff_eq_none.mp hfree

theorem openFile_spec {limit fd : ℕ} (h : k.openFile limit = some (fd, k'))
    (hcells : Inventory cells k.fds) :
    Inventory (fd :: cells) k'.fds ∧ k'.children = k.children ∧ k'.strays = k.strays := by
  obtain ⟨n, hn, h⟩ := Option.bind_eq_some_iff.mp h
  cases Option.some.inj h
  exact ⟨hcells.fill (lowestFree_eq_some hn) _, rfl, rfl⟩

theorem pipe_spec {limit : ℕ} {room : Bool} {ends : ℕ × ℕ} (h : pipe limit room k = some (ends, k'))
    (hcells : Inventory cells k.fds) :
    Inventory (ends.1 :: ends.2 :: cells) k'.fds ∧ k'.children = k.children ∧
      k'.strays = k.strays := by
  rw [pipe] at h
  split at h
  case isTrue => cases h
  case isFalse =>
    obtain ⟨⟨readEnd, k1⟩, h1, h⟩ := Option.bind_eq_some_iff.mp h
    obtain ⟨⟨writeEnd, k2⟩, h2, h⟩ := Option.bind_eq_some_iff.mp h
    cases Option.some.inj h
    obtain ⟨hread, hchildren1, hstrays1⟩ := openFile_spec h1 hcells
    obtain ⟨hwrite, hchildren2, hstrays2⟩ := openFile_spec h2 hread
    exact ⟨hwrite.perm (List.Perm.swap _ _ _), hchildren2.trans hchildren1,
      hstrays2.trans hstrays1⟩

theorem finish_isSome (k : Kernel) (pid status a : ℤ) :
    ((k.finish pid status).children a).isSome = (k.children a).isSome := by
  rw [Kernel.finish]
  split
  · next hrunning =>
    by_cases ha : a = pid
    · subst ha
      simp [hrunning]
    · simp [ha]
  · rfl

/-- A child that ends changes nothing else. -/
theorem finish_eq (k : Kernel) (pid status : ℤ) :
    k.finish pid status = { k with children := (k.finish pid status).children } := by
  rw [Kernel.finish]
  split <;> rfl

theorem at_eq (k : Kernel) (pid : ℤ) (look : Look) :
    k.at pid look = { k with children := (k.at pid look).children } := by
  rw [Kernel.at]
  split
  · exact finish_eq k pid _
  · rfl

theorem at_isSome (k : Kernel) (pid : ℤ) (look : Look) (a : ℤ) :
    ((k.at pid look).children a).isSome = (k.children a).isSome := by
  rw [Kernel.at]
  split
  · exact finish_isSome k pid _ a
  · rfl

/-- A child that has not been waited for is waited for, or it is still there. -/
theorem waitpidNohang_spec (look : Look) (h : Inventory (pid :: others) k.children) :
    ∃ r children, waitpidNohang pid look k = (r, { k with children }) ∧
      ((∃ status, r = .child status ∧ Inventory others children) ∨
        (r = .nothing ∨ r = .error .eintr) ∧ Inventory (pid :: others) children) := by
  have hat : Inventory (pid :: others) (k.at pid look).children :=
    h.congr fun a ↦ at_isSome k pid look a
  rw [waitpidNohang]
  rw [at_eq] at hat ⊢
  dsimp only at hat ⊢
  split
  · exact ⟨_, _, rfl, .inr ⟨.inr rfl, hat⟩⟩
  · have hsome := hat.isSome List.mem_cons_self
    split
    · next hnone =>
      rw [hnone] at hsome
      cases hsome
    · exact ⟨_, _, rfl, .inr ⟨.inl rfl, hat⟩⟩
    · exact ⟨_, _, rfl, .inl ⟨_, rfl, hat.empty⟩⟩

theorem waitLoop_spec (looks : List Look) (h : Inventory (pid :: others) k.children) :
    ∃ waited children, waitLoop pid looks k = (waited, { k with children }) ∧
      (waited = .gone ∧ Inventory others children ∨
        waited = .tooLong ∧ Inventory (pid :: others) children) := by
  induction looks generalizing k with
  | nil => exact ⟨_, k.children, rfl, .inr ⟨rfl, h⟩⟩
  | cons look looks ih =>
    rw [waitLoop]
    obtain ⟨r, children, hwait, ⟨status, rfl, hothers⟩ | ⟨rfl | rfl, hstill⟩⟩ :=
      waitpidNohang_spec look h
    · rw [hwait]
      exact ⟨_, children, rfl, .inl ⟨rfl, hothers⟩⟩
    all_goals
      rw [hwait]
      exact ih (k := { k with children }) hstill

/-- A child can be signalled if this is permitted. -/
theorem kill_child (permitted : Bool) (h : (k.children pid).isSome) :
    kill permitted pid k = (if permitted then none else some .eperm, k) := by
  obtain ⟨state, hstate⟩ := Option.isSome_iff_exists.mp h
  rw [kill, hstate]

/-- A child that has been killed is waited for. -/
theorem waitKilled_spec {status : ℤ} (interrupts : ℕ) (h : Inventory (pid :: others) k.children)
    (hended : k.children pid = some (.ended status)) :
    ∃ children, waitKilled pid interrupts k = some { k with children } ∧
      Inventory others children := by
  induction interrupts with
  | zero => exact ⟨_, by simp [waitKilled, waitpid, hended], h.empty⟩
  | succ interrupts ih => exact ih

theorem finish_ended (h : (k.children pid).isSome) (status : ℤ) :
    ∃ status', (k.finish pid status).children pid = some (.ended status') := by
  rw [Kernel.finish]
  obtain ⟨state, hstate⟩ := Option.isSome_iff_exists.mp h
  rw [hstate]
  cases state with
  | running => exact ⟨status, Function.update_self _ _ _⟩
  | ended status' => exact ⟨status', hstate⟩

/-! ## Calls on a handle -/

theorem subprocClose_spec (h : Inventory (p.descriptors ++ cells) k.fds) :
    ∃ fds, subprocClose p k =
        ({ p with input := none, output := none, errorFd := -1 }, { k with fds }) ∧
      Inventory cells fds := by
  obtain ⟨pid, input, output, errorFd, running⟩ := p
  have hclose : ∀ {fd : Option ℕ} {cells : List ℕ} {k : Kernel},
      Inventory (fd.toList ++ cells) k.fds →
      ∃ fds, fd.elim k k.close = { k with fds } ∧ Inventory cells fds := by
    rintro (_ | fd) cells k h
    · exact ⟨k.fds, rfl, h⟩
    · exact ⟨_, rfl, h.empty⟩
  rw [Process.descriptors, List.append_assoc, List.append_assoc] at h
  obtain ⟨fds1, h1, hcells1⟩ := hclose h
  obtain ⟨fds2, h2, hcells2⟩ := hclose (k := { k with fds := fds1 }) hcells1
  rw [subprocClose]
  dsimp only at h1 h2 hcells2 ⊢
  rw [h1, h2]
  split
  · next hpos =>
    rw [if_pos hpos] at hcells2
    exact ⟨_, rfl, hcells2.empty⟩
  · next hneg =>
    rw [if_neg hneg] at hcells2
    exact ⟨_, rfl, hcells2⟩

theorem child_of_pos (h : 0 < p.pid) : p.child = [p.pid] := if_pos h

theorem child_of_not_pos (h : ¬ 0 < p.pid) : p.child = [] := if_neg h

/-- **Stopping** comes back: the descriptors are closed, and the child has been waited for, unless
it was not permitted to signal it. -/
theorem subprocStop_spec (w : StopWorld) (hfds : Inventory (p.descriptors ++ cells) k.fds)
    (hchildren : Inventory (p.child ++ others) k.children) :
    ∃ ok p' fds children, subprocStop w p k = some (ok, p', { k with fds, children }) ∧
      Inventory cells fds ∧ Inventory (p'.child ++ others) children ∧ p'.descriptors = [] ∧
      (ok = true → p' = subprocReset) ∧
      (ok = false → w.permitted = false ∨ w.permittedKill = false) := by
  obtain ⟨fds, hclose, hcells⟩ := subprocClose_spec hfds
  rw [subprocStop]
  rw [hclose]
  simp only [Option.bind_eq_bind, Option.pure_def]
  split
  case isTrue hpid =>
    rw [child_of_not_pos (Int.not_lt.mpr hpid)] at hchildren
    exact ⟨_, _, fds, k.children, rfl, hcells, hchildren, rfl, fun _ ↦ rfl, Bool.noConfusion⟩
  case isFalse hpid =>
  have hpos : 0 < p.pid := Int.not_le.mp hpid
  rw [child_of_pos hpos, List.singleton_append] at hchildren
  have hsignal : kill w.permitted p.pid { k with fds } = _ :=
    kill_child _ (hchildren.isSome List.mem_cons_self)
  rw [hsignal]
  dsimp only
  cases hpermitted : w.permitted with
  | false =>
    refine ⟨false, _, fds, k.children, if_pos ⟨by simp, by simp⟩, hcells, ?_, rfl,
      Bool.noConfusion, fun _ ↦ .inl rfl⟩
    rw [child_of_pos (by exact hpos), List.singleton_append]
    exact hchildren
  | true =>
  obtain ⟨waited, children, hwaited, ⟨rfl, hothers⟩ | ⟨rfl, hstill⟩⟩ :=
    waitLoop_spec (k := { k with fds }) w.looks.toList hchildren
  · rw [if_neg (by simp), hwaited]
    exact ⟨_, _, fds, children, if_pos rfl, hcells, hothers, rfl, fun _ ↦ rfl, Bool.noConfusion⟩
  rw [if_neg (by simp), hwaited]
  dsimp only
  have hsigkill : kill w.permittedKill p.pid { k with fds, children } = _ :=
    kill_child _ (hstill.isSome List.mem_cons_self)
  rw [if_neg (by decide), killSigkill, hsigkill]
  cases hkill : w.permittedKill with
  | false =>
    refine ⟨false, _, fds, children, if_pos ⟨by simp, by simp⟩, hcells, ?_, rfl,
      Bool.noConfusion, fun _ ↦ .inr rfl⟩
    rw [child_of_pos (by exact hpos), List.singleton_append]
    exact hstill
  | true =>
    rw [if_neg (by simp)]
    obtain ⟨status, hended⟩ := finish_ended (k := { k with fds, children })
      (hstill.isSome List.mem_cons_self) 9
    obtain ⟨children', hgone, hothers⟩ := waitKilled_spec w.interrupts
      (hstill.congr fun a ↦ finish_isSome { k with fds, children } p.pid 9 a) hended
    simp only [if_true, hgone, Option.bind_some]
    refine ⟨true, subprocReset, fds, children', ?_, hcells, hothers, rfl, fun _ ↦
      rfl, Bool.noConfusion⟩
    rw [finish_eq]

theorem subprocReap_spec (look : Look) (h : Inventory (p.child ++ others) k.children) :
    ∃ r p' children, subprocReap look p k = (r, p', { k with children }) ∧
      p'.descriptors = p.descriptors ∧ Inventory (p'.child ++ others) children := by
  rw [subprocReap]
  split
  case isTrue => exact ⟨_, _, k.children, rfl, rfl, h⟩
  case isFalse hpid =>
  have hpos : 0 < p.pid := Int.not_le.mp hpid
  have hchild := h
  rw [child_of_pos hpos, List.singleton_append] at hchild
  obtain ⟨r, children, hwait, ⟨status, rfl, hothers⟩ | ⟨rfl | rfl, hstill⟩⟩ :=
    waitpidNohang_spec look hchild
  · rw [hwait]
    exact ⟨_, _, children, rfl, rfl, hothers⟩
  all_goals
    rw [hwait]
    refine ⟨_, p, children, rfl, rfl, ?_⟩
    rw [child_of_pos hpos]
    exact hstill

/-! ## Spawning -/

/-- A handle that has a child is refused. -/
theorem subprocSpawnFdsImpl_pid {w : SpawnWorld} {t : FdTable} {a : SpawnArgs}
    (h : (subprocSpawnFdsImpl w t { a with process := some pid }).ok = true) : ¬ 0 < pid := by
  rw [subprocSpawnFdsImpl] at h
  split at h
  case h_2 => cases h
  case h_1 _ _ _ _ _ _ _ _ hprocess _ _ _ _ =>
    cases Option.some.inj hprocess
    split at h
    case isTrue => cases h
    case isFalse hargs => exact fun hpos ↦ hargs (.inl hpos)

theorem spawnFds_spec (w : SpawnWorld) (pid : ℤ) (a : SpawnArgs) (p : Process) (k : Kernel) :
    (Subproc.spawnFds w pid a p k).ok = true ∧ ¬ 0 < p.pid ∧
        (Subproc.spawnFds w pid a p k).process = { subprocReset with pid, running := true } ∧
        (Subproc.spawnFds w pid a p k).kernel =
          { k with children := Function.update k.children pid (some .running) } ∨
      (Subproc.spawnFds w pid a p k).ok = false ∧
        (Subproc.spawnFds w pid a p k).process = p ∧
        (Subproc.spawnFds w pid a p k).kernel = k := by
  rw [Subproc.spawnFds]
  dsimp only
  rw [subprocSpawnFdsImpl_parent]
  split
  case isTrue hok => exact .inl ⟨rfl, subprocSpawnFdsImpl_pid hok, rfl, rfl⟩
  case isFalse => exact .inr ⟨rfl, rfl, rfl⟩

theorem closeEnds_spec {childInput childOutput : ℕ × ℕ} {childError : Option (ℕ × ℕ)}
    (h : Inventory (endsOf childInput childOutput childError ++ cells) k.fds) :
    ∃ fds, closeEnds (pipeEnds childInput childOutput childError) k = { k with fds } ∧
      Inventory cells fds := by
  cases childError with
  | none => exact ⟨_, rfl, h.empty.empty.empty.empty⟩
  | some e => exact ⟨_, rfl, h.empty.empty.empty.empty.empty.empty⟩

theorem makePipes_spec (w : PipesWorld) (mergeStderr : Bool) (h : Inventory cells k.fds) :
    (∃ k', makePipes w mergeStderr k = (none, k') ∧ Inventory cells k'.fds ∧
        k'.children = k.children ∧ k'.strays = k.strays) ∨
      ∃ childInput childOutput childError k',
        makePipes w mergeStderr k = (some (childInput, childOutput, childError), k') ∧
        Inventory (endsOf childInput childOutput childError ++ cells) k'.fds ∧
        k'.children = k.children ∧ k'.strays = k.strays := by
  rw [makePipes]
  cases h1 : pipe w.spawn.limit w.pipes[0] k with
  | none => exact .inl ⟨k, rfl, h, rfl, rfl⟩
  | some r1 =>
  obtain ⟨childInput, k1⟩ := r1
  obtain ⟨hcells1, hchildren1, hstrays1⟩ := pipe_spec h1 h
  dsimp only
  cases h2 : pipe w.spawn.limit w.pipes[1] k1 with
  | none => exact .inl ⟨_, rfl, hcells1.empty.empty, hchildren1, hstrays1⟩
  | some r2 =>
  obtain ⟨childOutput, k2⟩ := r2
  obtain ⟨hcells2, hchildren2, hstrays2⟩ := pipe_spec h2 hcells1
  have hfour : Inventory (endsOf childInput childOutput none ++ cells) k2.fds :=
    hcells2.perm (by
      simp only [endsOf, Option.elim_none, List.append_nil, List.cons_append, List.nil_append]
      exact List.perm_append_comm_assoc [_, _] [_, _] cells)
  dsimp only
  split
  · exact .inr ⟨_, _, _, _, rfl, hfour, hchildren2.trans hchildren1, hstrays2.trans hstrays1⟩
  cases h3 : pipe w.spawn.limit w.pipes[2] k2 with
  | none =>
    exact .inl ⟨_, rfl, hfour.empty.empty.empty.empty, hchildren2.trans hchildren1,
      hstrays2.trans hstrays1⟩
  | some r3 =>
    obtain ⟨childError, k3⟩ := r3
    obtain ⟨hcells3, hchildren3, hstrays3⟩ := pipe_spec h3 hfour
    refine .inr ⟨_, _, _, _, rfl, hcells3.perm ?_, hchildren3.trans (hchildren2.trans hchildren1),
      hstrays3.trans (hstrays2.trans hstrays1)⟩
    simp only [endsOf, Option.elim_none, Option.elim_some, List.append_nil, List.append_assoc]
    exact (List.perm_append_comm_assoc [_, _] [_, _, _, _] cells)

theorem prepareFds_isSome (ends : List ℤ) (calls : ℕ) (t : FdTable) (fd : ℕ) :
    ((prepareFds ends calls t).2 fd).isSome = (t fd).isSome := by
  induction ends generalizing calls t with
  | nil => rfl
  | cons e ends ih =>
    rw [prepareFds]
    split
    · exact ih calls t
    split
    · rfl
    · rw [ih, setCloexec, Function.update_apply]
      split
      · next heq => rw [heq, Option.isSome_map]
      · rfl

/-- What is left when the child has been made: its ends of the pipes are closed, and the others are
the streams of the handle, unless a stream cannot be made. -/
theorem takeStreams_spec (w : PipesWorld) {childInput childOutput : ℕ × ℕ}
    {childError : Option (ℕ × ℕ)} {s : Spawned}
    (hfds : Inventory (endsOf childInput childOutput childError ++ cells) s.kernel.fds)
    (hchildren : Inventory (s.process.child ++ others) s.kernel.children) :
    ∃ ok p' fds children, takeStreams w childInput childOutput childError s =
        some ⟨ok, p', { s.kernel with fds, children }, s.child⟩ ∧
      Inventory (p'.descriptors ++ cells) fds ∧ Inventory (p'.child ++ others) children := by
  obtain ⟨fds, hclosed, hopen⟩ : ∃ fds,
      childError.elim ((s.kernel.close childInput.1).close childOutput.2)
        (fun e ↦ ((s.kernel.close childInput.1).close childOutput.2).close e.2) =
          { s.kernel with fds } ∧
      Inventory (childInput.2 :: childOutput.1 :: ((childError.map Prod.fst).toList ++ cells))
        fds := by
    have hends : ∀ {a b c d : ℕ} {l : List ℕ}, Inventory ([a, b, c, d] ++ l) s.kernel.fds →
        Inventory (b :: c :: l) ((s.kernel.close a).close d).fds := fun {a b c d l} h ↦
      (h.empty.perm (List.perm_append_comm_assoc [b, c] [d] l)).empty
    cases childError with
    | none => exact ⟨_, rfl, hends hfds⟩
    | some e =>
      exact ⟨_, rfl, ((hends hfds).perm
        (List.perm_append_comm_assoc [_, _, _] [e.2] _)).empty⟩
  have herror : (if (0 : ℤ) ≤ childError.elim (-1) fun e ↦ (e.1 : ℤ) then
      [(childError.elim (-1) fun e ↦ (e.1 : ℤ)).toNat] else []) =
      (childError.map Prod.fst).toList := by
    cases childError with
    | none => rfl
    | some e => simp
  -- a stream cannot be made: what is open is closed, and the child is stopped
  have hfail : ∀ (p2 : Process) (fds2 : FdTable), p2.child = s.process.child →
      Inventory (p2.descriptors ++ cells) fds2 → ∃ ok p' fds children,
        ((subprocStop w.stop p2 { s.kernel with fds := fds2 }).bind fun r ↦
          some { s with ok := false, process := r.2.1, kernel := r.2.2 }) =
          some ⟨ok, p', { s.kernel with fds, children }, s.child⟩ ∧
        Inventory (p'.descriptors ++ cells) fds ∧ Inventory (p'.child ++ others) children := by
    intro p2 fds2 hchild hfds2
    obtain ⟨ok, p', fds', children', hstop, hcells', hchildren', hnone, -, -⟩ :=
      subprocStop_spec (k := { s.kernel with fds := fds2 }) w.stop hfds2
        (by rw [hchild]; exact hchildren)
    refine ⟨false, p', fds', children', by rw [hstop, Option.bind_some], ?_, hchildren'⟩
    rw [hnone]
    exact hcells'
  have hdescriptors : ∀ input output running,
      Process.descriptors { s.process with
        input, output, errorFd := childError.elim (-1) fun e ↦ (e.1 : ℤ), running } =
      input.toList ++ output.toList ++ (childError.map Prod.fst).toList := fun _ _ _ ↦
    congrArg (_ ++ ·) herror
  rw [takeStreams]
  dsimp only
  rw [hclosed]
  cases hin : w.inputStream with
  | true =>
    cases hout : w.outputStream with
    | true =>
      refine ⟨_, _, fds, s.kernel.children, if_pos rfl, ?_, hchildren⟩
      rw [hdescriptors]
      exact hopen
    | false =>
      refine hfail _ (closeFd fds childOutput.1) rfl ?_
      rw [hdescriptors]
      exact (hopen.perm (List.Perm.swap _ _ _)).empty
  | false =>
    cases hout : w.outputStream with
    | true =>
      refine hfail _ (closeFd fds childInput.2) rfl ?_
      rw [hdescriptors]
      exact hopen.empty
    | false =>
      refine hfail _ (closeFd (closeFd fds childInput.2) childOutput.1) rfl ?_
      rw [hdescriptors]
      exact hopen.empty.empty

/-- **Spawning with pipes** comes back, and gives the handle its child and its streams, or leaves
everything closed. -/
theorem subprocSpawnPipes_spec (w : PipesWorld) (path : Option CStr) (argv : Option (List CStr))
    (mergeStderr group : Bool) (hfresh : k.Fresh w.pid)
    (hfds : Inventory (p.descriptors ++ cells) k.fds)
    (hchildren : Inventory (p.child ++ others) k.children) :
    ∃ r, subprocSpawnPipes w path argv mergeStderr group p k = some r ∧
      r.kernel.strays = k.strays ∧
      Inventory (r.process.descriptors ++
        ((if resets path argv p then p.descriptors else []) ++ cells)) r.kernel.fds ∧
      Inventory (r.process.child ++ others) r.kernel.children := by
  -- a path or an `argv[0]` that is not there is refused
  rcases path with _ | _ | ⟨c, path⟩
  · exact ⟨_, rfl, rfl, hfds, hchildren⟩
  · exact ⟨_, rfl, rfl, hfds, hchildren⟩
  rcases argv with _ | _ | ⟨arg, argv⟩
  · exact ⟨_, rfl, rfl, hfds, hchildren⟩
  · exact ⟨_, rfl, rfl, hfds, hchildren⟩
  rw [subprocSpawnPipes, resets]
  dsimp only
  split
  case isTrue hpid =>
    rw [decide_eq_false (Int.not_le.mpr hpid)]
    exact ⟨_, rfl, rfl, hfds, hchildren⟩
  case isFalse hpid =>
  rw [decide_eq_true (Int.not_lt.mp hpid), if_pos rfl]
  rw [child_of_not_pos hpid, List.nil_append] at hchildren
  obtain ⟨k1, hpipes, hfds1, hchildren1, hstrays1⟩ |
    ⟨childInput, childOutput, childError, k1, hpipes, hfds1, hchildren1, hstrays1⟩ :=
    makePipes_spec w mergeStderr hfds
  · rw [hpipes]
    exact ⟨_, rfl, hstrays1, hfds1, hchildren1 ▸ hchildren⟩
  rw [hpipes]
  dsimp only
  have hprepared := hfds1.congr
    (prepareFds_isSome (pipeEnds childInput childOutput childError) w.setfd k1.fds)
  have hclosed (children : ℤ → Option ChildState) := closeEnds_spec
    (k := { k1 with
      fds := (prepareFds (pipeEnds childInput childOutput childError) w.setfd k1.fds).2
      children }) hprepared
  split
  case isTrue =>
    obtain ⟨fds, hends, hcells⟩ := hclosed k1.children
    exact ⟨_, rfl, by rw [hends]; exact hstrays1, by rw [hends]; exact hcells,
      by rw [hends]; exact hchildren1 ▸ hchildren⟩
  case isFalse =>
  obtain ⟨hok, -, hprocess, hkernel⟩ | ⟨hok, hprocess, hkernel⟩ := spawnFds_spec w.spawn w.pid
    (pipesArgs (some (c :: path)) (some (arg :: argv)) group childInput childOutput childError)
    subprocReset
    { k1 with fds := (prepareFds (pipeEnds childInput childOutput childError) w.setfd k1.fds).2 }
  · rw [hok, if_neg Bool.noConfusion]
    obtain ⟨ok, p', fds, children, htake, hcells', hchildren'⟩ :=
      takeStreams_spec w (s := Subproc.spawnFds w.spawn w.pid (pipesArgs (some (c :: path))
          (some (arg :: argv)) group childInput childOutput childError) subprocReset _)
        (by rw [hkernel]; exact hprepared)
        (by
          rw [hprocess, hkernel, child_of_pos hfresh.1, hchildren1]
          exact hchildren.fill hfresh.2 _)
    rw [hkernel] at htake
    exact ⟨_, htake, hstrays1, hcells', hchildren'⟩
  · rw [hok, if_pos rfl, hprocess, hkernel]
    obtain ⟨fds, hends, hcells⟩ := hclosed k1.children
    exact ⟨_, rfl, by rw [hends]; exact hstrays1, by rw [hends]; exact hcells,
      by rw [hends]; exact hchildren1 ▸ hchildren⟩

/-- A call on the handle `p` leaves `p'`: whatever else there is, it goes on with the part of it
that belongs to the handle, and `gone` is what it has given up. -/
def Keeps (p : Process) (k : Kernel) (gone : List ℕ) (p' : Process) (k' : Kernel) : Prop :=
  ∀ cells others, Inventory (p.descriptors ++ cells) k.fds →
    Inventory (p.child ++ others) k.children →
    Inventory (p'.descriptors ++ (gone ++ cells)) k'.fds ∧
      Inventory (p'.child ++ others) k'.children ∧ k'.strays = k.strays

theorem subprocSpawnPipes_keeps {w : PipesWorld} {path : Option CStr} {argv : Option (List CStr)}
    {mergeStderr group : Bool} {r : Spawned} (hfresh : k.Fresh w.pid)
    (hr : subprocSpawnPipes w path argv mergeStderr group p k = some r) :
    Keeps p k (if resets path argv p then p.descriptors else []) r.process r.kernel := by
  intro cells others hfds hchildren
  obtain ⟨r', hr', hstrays, hfds', hchildren'⟩ :=
    subprocSpawnPipes_spec w path argv mergeStderr group hfresh hfds hchildren
  cases Option.some.inj (hr.symm.trans hr')
  exact ⟨hfds', hchildren', hstrays⟩

theorem spawnFds_keeps (w : SpawnWorld) (a : SpawnArgs) (hfresh : k.Fresh pid) :
    Keeps p k (if (Subproc.spawnFds w pid a p k).ok then p.descriptors else [])
      (Subproc.spawnFds w pid a p k).process (Subproc.spawnFds w pid a p k).kernel := by
  intro cells others hfds hchildren
  obtain ⟨hok, hpid, hprocess, hkernel⟩ | ⟨hok, hprocess, hkernel⟩ := spawnFds_spec w pid a p k
  · rw [hok, hprocess, hkernel, child_of_pos hfresh.1]
    rw [child_of_not_pos hpid] at hchildren
    exact ⟨hfds, hchildren.fill hfresh.2 _, rfl⟩
  · rw [hok, hprocess, hkernel]
    exact ⟨hfds, hchildren, rfl⟩

theorem subprocReap_keeps (look : Look) (p : Process) (k : Kernel) :
    Keeps p k [] (subprocReap look p k).2.1 (subprocReap look p k).2.2 := by
  intro cells others hfds hchildren
  obtain ⟨r, p', children, hreap, hdescriptors, hchildren'⟩ := subprocReap_spec look hchildren
  rw [hreap, hdescriptors]
  exact ⟨hfds, hchildren', rfl⟩

theorem subprocStop_keeps {w : StopWorld} {ok : Bool} (hstop : subprocStop w p k = some (ok, p', k')) :
    Keeps p k [] p' k' := by
  intro cells others hfds hchildren
  obtain ⟨ok', p1, fds, children, hstop', hcells, hothers, hnone, -, -⟩ :=
    subprocStop_spec w hfds hchildren
  cases Option.some.inj (hstop.symm.trans hstop')
  rw [hnone]
  exact ⟨hcells, hothers, rfl⟩

theorem subprocClose_keeps (p : Process) (k : Kernel) :
    Keeps p k [] (subprocClose p k).1 (subprocClose p k).2 := by
  intro cells others hfds hchildren
  obtain ⟨fds, hclose, hcells⟩ := subprocClose_spec hfds
  rw [hclose]
  exact ⟨hcells, hchildren, rfl⟩

/-! ## Steps -/

variable {s s' : Session} {i : ℕ} {e : Event}

/-- What is done with one handle concerns only what belongs to it. -/
theorem Accounts.put {gone : List ℕ} (h : Accounts s) (hi : s.handles[i]? = some p)
    (hstep : Keeps p s.kernel gone p' k') :
    Accounts (s.put i gone p' k') := by
  obtain ⟨cells, hcells, hcells'⟩ := List.exists_flatMap_set Process.descriptors hi
  obtain ⟨others, hothers, hothers'⟩ := List.exists_flatMap_set Process.child hi
  have hbefore : (s.own ++ s.lost ++ s.handles.flatMap Process.descriptors).Perm
      (p.descriptors ++ (s.own ++ s.lost ++ cells)) :=
    (hcells.append_left _).trans (List.perm_append_comm_assoc _ _ _)
  obtain ⟨hfds, hchildren, hstrays⟩ :=
    hstep _ _ (h.descriptors.perm hbefore) (h.children.perm hothers)
  refine ⟨hfds.perm ?_, hchildren.perm (hothers' p').symm, hstrays.trans h.strays⟩
  have hmoved : (p'.descriptors ++ (gone ++ (s.own ++ s.lost ++ cells))).Perm
      (s.own ++ s.lost ++ (gone ++ (p'.descriptors ++ cells))) :=
    ((List.perm_append_comm_assoc _ _ _).append_left _).trans
      ((List.perm_append_comm_assoc _ _ _).trans
        ((List.perm_append_comm_assoc _ _ _).append_left _))
  have hafter := (hcells' p').append_left (s.own ++ (s.lost ++ gone))
  refine hmoved.trans (List.Perm.trans ?_ hafter.symm)
  rw [← List.append_assoc s.own, List.append_assoc _ gone]

/-- A handle that still has streams is used for another child. -/
def Session.Reuses (s : Session) : Event → Prop
  | .spawn i w path argv _ _ => ∃ p, s.handles[i]? = some p ∧ s.kernel.Fresh w.pid ∧
      resets path argv p = true ∧ p.descriptors ≠ []
  | .spawnFds i w pid a => ∃ p, s.handles[i]? = some p ∧ s.kernel.Fresh pid ∧
      (Subproc.spawnFds w pid a p s.kernel).ok = true ∧ p.descriptors ≠ []
  | _ => False

/-- **What a step does**: a call on a handle keeps what belongs to the handle, and gives streams up
exactly if it uses the handle again; anything else has nothing to do with the handles. -/
inductive Session.Effect (s : Session) (e : Event) : Session → Prop where
  | used {i : ℕ} {p p' : Process} {gone : List ℕ} {k' : Kernel} : s.handles[i]? = some p →
      Keeps p s.kernel gone p' k' → (gone = [] ↔ ¬ s.Reuses e) → s.Effect e (s.put i gone p' k')
  | apart {s' : Session} : s'.lost = s.lost → ¬ s.Reuses e → (Accounts s → Accounts s') →
      s.Effect e s'

theorem Session.effect_spawn {w : PipesWorld} {path : Option CStr} {argv : Option (List CStr)}
    {mergeStderr group : Bool} (hstep : s.step (.spawn i w path argv mergeStderr group) = some s') :
    s.Effect (.spawn i w path argv mergeStderr group) s' := by
  obtain ⟨p, hi, hstep⟩ := Option.bind_eq_some_iff.mp hstep
  split at hstep
  case isFalse => cases hstep
  case isTrue hfresh =>
  obtain ⟨r, hr, hstep⟩ := Option.bind_eq_some_iff.mp hstep
  cases Option.some.inj hstep
  refine .used hi (subprocSpawnPipes_keeps hfresh hr) ?_
  simp [Session.Reuses, hi, hfresh]

theorem Session.effect_spawnFds {w : SpawnWorld} {a : SpawnArgs}
    (hstep : s.step (.spawnFds i w pid a) = some s') : s.Effect (.spawnFds i w pid a) s' := by
  obtain ⟨p, hi, hstep⟩ := Option.bind_eq_some_iff.mp hstep
  split at hstep
  case isFalse => cases hstep
  case isTrue hfresh =>
  cases Option.some.inj hstep
  refine .used hi (spawnFds_keeps w a hfresh) ?_
  simp [Session.Reuses, hi, hfresh]

theorem Session.effect (hstep : s.step e = some s') : s.Effect e s' := by
  cases e with
  | spawn i w path argv mergeStderr group => exact effect_spawn hstep
  | spawnFds i w pid a => exact effect_spawnFds hstep
  | reap i look =>
    obtain ⟨p, hi, hstep⟩ := Option.bind_eq_some_iff.mp hstep
    cases Option.some.inj hstep
    exact .used hi (subprocReap_keeps look p s.kernel) (iff_of_true rfl not_false)
  | stop i w =>
    obtain ⟨p, hi, hstep⟩ := Option.bind_eq_some_iff.mp hstep
    obtain ⟨⟨ok, p', k'⟩, hstop, hstep⟩ := Option.bind_eq_some_iff.mp hstep
    cases Option.some.inj hstep
    exact .used hi (subprocStop_keeps hstop) (iff_of_true rfl not_false)
  | close i =>
    obtain ⟨p, hi, hstep⟩ := Option.bind_eq_some_iff.mp hstep
    cases Option.some.inj hstep
    exact .used hi (subprocClose_keeps p s.kernel) (iff_of_true rfl not_false)
  | finish pid status =>
    cases Option.some.inj hstep
    refine .apart rfl not_false fun h ↦
      ⟨?_, h.children.congr fun a ↦ finish_isSome s.kernel pid status a, ?_⟩
    · rw [finish_eq]
      exact h.descriptors
    · rw [finish_eq]
      exact h.strays
  | openOwn limit =>
    obtain ⟨⟨fd, kernel⟩, hopen, hstep⟩ := Option.bind_eq_some_iff.mp hstep
    cases Option.some.inj hstep
    refine .apart rfl not_false fun h ↦ ?_
    obtain ⟨hfds, hchildren, hstrays⟩ := openFile_spec hopen h.descriptors
    exact ⟨hfds, hchildren ▸ h.children, hstrays.trans h.strays⟩
  | closeOwn fd =>
    rw [Session.step] at hstep
    split at hstep
    case isFalse => cases hstep
    case isTrue hmem =>
    cases Option.some.inj hstep
    refine .apart rfl not_false fun h ↦ ⟨(h.descriptors.perm ?_).empty, h.children, h.strays⟩
    exact (((List.perm_cons_erase hmem).append_right _).append_right _)

/-- **Every step keeps the accounts.** -/
theorem Accounts.step (h : Accounts s) (hstep : s.step e = some s') : Accounts s' := by
  cases Session.effect hstep with
  | used hi hkeeps _ => exact h.put hi hkeeps
  | apart _ _ hkeep => exact hkeep h

/-- A program that has not used its handles yet. -/
def start (k : Kernel) (own : List ℕ) (count : ℕ) : Session :=
  ⟨{ k with children := fun _ ↦ none, strays := [] }, List.replicate count subprocReset, own, []⟩

theorem accounts_start {own : List ℕ} (hown : Inventory own k.fds) (count : ℕ) :
    Accounts (start k own count) := by
  have hnone {α : Type} (f : Process → List α) (hf : f subprocReset = []) :
      (List.replicate count subprocReset).flatMap f = [] := by
    rw [List.flatMap_replicate, hf]
    simp
  refine ⟨?_, ?_, rfl⟩
  · rw [Session.descriptors]
    simp only [start, hnone Process.descriptors rfl, List.append_nil]
    exact hown
  · simp only [start, hnone Process.child rfl]
    exact .nil

/-! ## Calls that can be made -/

/-- What can happen next: a handle that is used is there, and the system gives a child a number that
is free. -/
def Session.Possible (s : Session) : Event → Prop
  | .spawn i w _ _ _ _ => i < s.handles.length ∧ s.kernel.Fresh w.pid
  | .spawnFds i _ pid _ => i < s.handles.length ∧ s.kernel.Fresh pid
  | .reap i _ => i < s.handles.length
  | .stop i _ => i < s.handles.length
  | .close i => i < s.handles.length
  | .finish _ _ => True
  | .openOwn limit => (lowestFree limit s.kernel.fds).isSome
  | .closeOwn fd => fd ∈ s.own

/-- What belongs to one handle and what belongs to nothing else. -/
theorem Accounts.handle (h : Accounts s) (hi : s.handles[i]? = some p) : ∃ cells others,
    Inventory (p.descriptors ++ cells) s.kernel.fds ∧
      Inventory (p.child ++ others) s.kernel.children := by
  obtain ⟨cells, hcells, -⟩ := List.exists_flatMap_set Process.descriptors hi
  obtain ⟨others, hothers, -⟩ := List.exists_flatMap_set Process.child hi
  refine ⟨s.own ++ s.lost ++ cells, others, h.descriptors.perm ?_, h.children.perm hothers⟩
  exact (hcells.append_left _).trans (List.perm_append_comm_assoc _ _ _)

/-- Every call comes back. -/
theorem Accounts.exists_step (h : Accounts s) (he : s.Possible e) :
    ∃ s', s.step e = some s' := by
  have hhandle : ∀ {i : ℕ}, i < s.handles.length → ∃ p, s.handles[i]? = some p := fun hi ↦
    ⟨_, List.getElem?_eq_getElem hi⟩
  cases e with
  | spawn i w path argv mergeStderr group =>
    obtain ⟨p, hi⟩ := hhandle he.1
    obtain ⟨cells, others, hfds, hchildren⟩ := h.handle hi
    obtain ⟨r, hr, -⟩ :=
      subprocSpawnPipes_spec w path argv mergeStderr group he.2 hfds hchildren
    rw [Session.step, hi, Option.bind_eq_bind, Option.bind_some, if_pos he.2, hr]
    exact ⟨_, rfl⟩
  | spawnFds i w pid a =>
    obtain ⟨p, hi⟩ := hhandle he.1
    rw [Session.step, hi, Option.bind_eq_bind, Option.bind_some, if_pos he.2]
    exact ⟨_, rfl⟩
  | reap i look =>
    obtain ⟨p, hi⟩ := hhandle he
    rw [Session.step, hi]
    exact ⟨_, rfl⟩
  | stop i w =>
    obtain ⟨p, hi⟩ := hhandle he
    obtain ⟨cells, others, hfds, hchildren⟩ := h.handle hi
    obtain ⟨ok, p', fds, children, hstop, -⟩ := subprocStop_spec w hfds hchildren
    rw [Session.step, hi, Option.bind_eq_bind, Option.bind_some, hstop]
    exact ⟨_, rfl⟩
  | close i =>
    obtain ⟨p, hi⟩ := hhandle he
    rw [Session.step, hi]
    exact ⟨_, rfl⟩
  | finish pid status => exact ⟨_, rfl⟩
  | openOwn limit =>
    obtain ⟨fd, hfd⟩ := Option.isSome_iff_exists.mp he
    rw [Session.step, Kernel.openFile, hfd]
    exact ⟨_, rfl⟩
  | closeOwn fd => exact ⟨_, if_pos he⟩

/-- **Whatever a program does, everything is accounted for**, and it can always go on, if it starts
with descriptors of its own. -/
theorem accounts_of_run {own : List ℕ} (hown : Inventory own k.fds) (count : ℕ)
    (events : List Event) (s : Session)
    (hrun : runSteps Session.step (start k own count) events = some s) :
    Accounts s ∧ ∀ e, s.Possible e → ∃ s', s.step e = some s' := by
  have h := inv_of_runSteps (accounts_start hown count) (fun _ _ _ h hstep ↦ h.step hstep) events
    s hrun
  exact ⟨h, fun _ he ↦ h.exists_step he⟩

theorem inventory_threeOpen : Inventory [0, 1, 2] threeOpen.fds := by
  refine ⟨by decide, fun fd ↦ ?_⟩
  rw [threeOpen]
  dsimp only
  split
  · next hlt => exact iff_of_true (by simp; omega) rfl
  · next hge => exact iff_of_false (by simp; omega) Bool.noConfusion

/-- A child is spawned, it ends, and it is reaped. -/
def shortLife : List Event :=
  [.spawn 0 allSucceed (some (lit "/bin/cat")) (some [lit "cat"]) false false, .finish 100 0,
    .reap 0 ⟨none, false⟩]

theorem exists_shortLife : ∃ s, runSteps Session.step (start threeOpen [0, 1, 2] 1) shortLife =
    some s :=
  Option.isSome_iff_exists.mp (by decide +kernel)

theorem accounts_of_run_shortLife : ∃ s,
    runSteps Session.step (start threeOpen [0, 1, 2] 1) shortLife = some s ∧ Accounts s := by
  obtain ⟨s, hs⟩ := exists_shortLife
  exact ⟨s, hs, (accounts_of_run inventory_threeOpen 1 shortLife s hs).1⟩

/-! ## What gets lost -/

/-- A handle that is used again can be used. -/
theorem Session.Reuses.possible (h : s.Reuses e) : s.Possible e := by
  cases e with
  | spawn i w path argv mergeStderr group =>
    obtain ⟨p, hi, hfresh, -⟩ := h
    exact ⟨(List.getElem?_eq_some_iff.mp hi).1, hfresh⟩
  | spawnFds i w pid a =>
    obtain ⟨p, hi, hfresh, -⟩ := h
    exact ⟨(List.getElem?_eq_some_iff.mp hi).1, hfresh⟩
  | _ => cases h

/-- A descriptor is open, and neither the program's own nor a stream of a handle. -/
def Session.Leaks (s : Session) (fd : ℕ) : Prop :=
  (s.kernel.fds fd).isSome ∧ fd ∉ s.own ∧ ∀ p ∈ s.handles, fd ∉ p.descriptors

/-- The descriptors that leak are those that have been given up. -/
theorem Accounts.leaks_iff (h : Accounts s) (fd : ℕ) : s.Leaks fd ↔ fd ∈ s.lost := by
  have hopen := h.descriptors.mem_iff fd
  have hapart := h.descriptors.nodup
  simp only [Session.descriptors, List.mem_append, List.mem_flatMap] at hopen
  rw [Session.descriptors, List.nodup_append, List.nodup_append] at hapart
  obtain ⟨⟨-, -, hown⟩, -, hhandles⟩ := hapart
  rw [Session.Leaks, ← hopen]
  constructor
  · rintro ⟨(hfd | hfd) | ⟨p, hp, hfd⟩, hnotOwn, hnone⟩
    · exact absurd hfd hnotOwn
    · exact hfd
    · exact absurd hfd (hnone p hp)
  · intro hfd
    refine ⟨.inl (.inr hfd), fun hmine ↦ hown fd hmine fd hfd rfl, fun p hp hmine ↦ ?_⟩
    exact hhandles fd (List.mem_append_right _ hfd) fd (List.mem_flatMap_of_mem hp hmine) rfl

/-- A handle that is used again gives its streams up. -/
theorem Accounts.exists_leak (h : Accounts s) (hreuse : s.Reuses e) :
    ∃ s', s.step e = some s' ∧ ∃ fd, s'.Leaks fd := by
  obtain ⟨s', hstep⟩ := h.exists_step hreuse.possible
  refine ⟨s', hstep, ?_⟩
  cases Session.effect hstep with
  | @used i p p' gone k' hi hkeeps hgone =>
    obtain ⟨fd, hfd⟩ := List.exists_mem_of_ne_nil gone fun hnil ↦ hgone.mp hnil hreuse
    exact ⟨fd, ((h.put hi hkeeps).leaks_iff fd).mpr (List.mem_append_right _ hfd)⟩
  | apart _ hno _ => exact absurd hreuse hno

/-- Anything else gives nothing up. -/
theorem Accounts.no_leak (h : Accounts s) (hno : ¬ s.Reuses e) (hstep : s.step e = some s')
    (hnone : ∀ fd, ¬ s.Leaks fd) (fd : ℕ) : ¬ s'.Leaks fd := by
  rw [(h.step hstep).leaks_iff]
  have hold := mt (h.leaks_iff fd).mpr (hnone fd)
  cases Session.effect hstep with
  | @used i p p' gone k' hi hkeeps hgone =>
    rw [hgone.mpr hno]
    exact fun hfd ↦ hold ((List.append_nil s.lost) ▸ hfd)
  | apart hlost _ _ => rwa [hlost]

/-- **No descriptor leaks exactly if no handle is used again** before its streams are closed. -/
theorem noLeak_iff {own : List ℕ} (hown : Inventory own k.fds) (count : ℕ) (events : List Event) :
    Always Session.step (start k own count) events (fun s ↦ ∀ fd, ¬ s.Leaks fd) ↔
      NoStep Session.step (start k own count) events Session.Reuses := by
  have hstart := accounts_start hown count
  refine always_iff_noStep (I := Accounts) (P := fun s ↦ ∀ fd, ¬ s.Leaks fd) (B := Session.Reuses)
    hstart (fun fd ↦ mt (hstart.leaks_iff fd).mp List.not_mem_nil)
    (fun _ _ _ h hstep ↦ h.step hstep)
    (fun s e s' h hnone hno hstep ↦ h.no_leak hno hstep hnone)
    (fun s e h _ hreuse ↦ ?_) events
  obtain ⟨s', hstep, fd, hfd⟩ := h.exists_leak hreuse
  exact ⟨s', hstep, fun hnone ↦ hnone fd hfd⟩

/-- A handle is used again after its child has been reaped. -/
def secondLife : List Event :=
  shortLife ++ [.spawn 0 allSucceed (some (lit "/bin/cat")) (some [lit "cat"]) false false]

theorem noLeak_iff_secondLife :
    ¬ Always Session.step (start threeOpen [0, 1, 2] 1) secondLife (fun s ↦ ∀ fd, ¬ s.Leaks fd) := by
  rw [noLeak_iff inventory_threeOpen]
  intro hno
  have hreuse : (runSteps Session.step (start threeOpen [0, 1, 2] 1) shortLife).any fun s ↦
      s.handles[0]?.any fun p ↦ s.kernel.Fresh allSucceed.pid &&
        resets (some (lit "/bin/cat")) (some [lit "cat"]) p && p.descriptors != [] := by
    decide +kernel
  obtain ⟨s, hs, hreuse⟩ := (Option.any_eq_true _ _).mp hreuse
  obtain ⟨p, hp, hreuse⟩ := (Option.any_eq_true _ _).mp hreuse
  simp only [Bool.and_eq_true, decide_eq_true_eq, bne_iff_ne] at hreuse
  exact hno shortLife _ s (List.prefix_refl _) hs ⟨p, hp, hreuse.1.1, hreuse.1.2, hreuse.2⟩

/-! ## Stopping -/

end Rustyaxe.Subproc
