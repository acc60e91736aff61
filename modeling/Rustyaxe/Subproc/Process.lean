import Rustyaxe.Subproc.Kernel

/-!
# Handles of child processes

`subproc_spawn`, `subproc_spawn_fds`, `subproc_reap`, `subproc_stop` and `subproc_close` of
`subproc.c`.  A stream of a handle is the descriptor under it.

`none` is a call that does not come back.
-/

set_option autoImplicit false

namespace Rustyaxe.Subproc

/-- `subproc_t` -/
structure Process where
  pid : ℤ
  input : Option ℕ
  output : Option ℕ
  errorFd : ℤ
  running : Bool
  deriving DecidableEq

/-- `SUBPROC_INIT`, which is also what `subproc_reset` leaves. -/
def subprocReset : Process := ⟨-1, none, none, -1, false⟩

/-- `subproc_close` -/
def subprocClose (process : Process) (k : Kernel) : Process × Kernel :=
  let k := process.input.elim k k.close
  let k := process.output.elim k k.close
  let k := if 0 ≤ process.errorFd then k.close process.errorFd.toNat else k
  ({ process with input := none, output := none, errorFd := -1 }, k)

/-! ## Stopping -/

/-- What becomes of the loop that waits for a child that has been signalled. -/
inductive Waited where
  | gone
  | tooLong
  deriving DecidableEq

/-- The loop: it goes round 20 times, once for each look. -/
def waitLoop (pid : ℤ) : List Look → Kernel → Waited × Kernel
  | [], k => (.tooLong, k)
  | look :: looks, k =>
    match waitpidNohang pid look k with
    | (.child _, k) => (.gone, k)
    | (.error .echild, k) => (.gone, k)
    | (.error .eintr, k) => waitLoop pid looks k
    | (.error _, k) => (.tooLong, k)
    | (.nothing, k) => waitLoop pid looks k

/-- The loop that waits for a child that has been killed, when `waitpid` is interrupted so many
times. -/
def waitKilled (pid : ℤ) : (interrupts : ℕ) → Kernel → Option Kernel
  | 0, k => (waitpid pid false k).map Prod.snd
  | interrupts + 1, k =>
    match waitpid pid true k with
    | some (.error .eintr, k) => waitKilled pid interrupts k
    | some (_, k) => some k
    | none => none

/-- What the system decides while a child is stopped. -/
structure StopWorld where
  permitted : Bool
  looks : Vector Look 20
  permittedKill : Bool
  interrupts : ℕ

/-- `subproc_stop`.  Which signal is sent makes no difference here: what it does to the child is
seen at the looks. -/
def subprocStop (w : StopWorld) (process : Process) (k : Kernel) :
    Option (Bool × Process × Kernel) := do
  let (process, k) := subprocClose process k
  if process.pid ≤ 0 then return (true, subprocReset, k)
  let (failure, k) := kill w.permitted process.pid k
  if failure ≠ none ∧ failure ≠ some .esrch then return (false, process, k)
  let (waited, k) := waitLoop process.pid w.looks.toList k
  if waited = .gone then return (true, subprocReset, k)
  let (failure, k) := killSigkill w.permittedKill process.pid k
  if failure ≠ none ∧ failure ≠ some .esrch then return (false, process, k)
  let k ← waitKilled process.pid w.interrupts k
  return (true, subprocReset, k)

/-- `subproc_reap`, with the status it hands out if it is asked for one. -/
def subprocReap (look : Look) (process : Process) (k : Kernel) : Option ℤ × Process × Kernel :=
  if process.pid ≤ 0 then (none, process, k)
  else
    match waitpidNohang process.pid look k with
    | (.nothing, k) => (none, process, k)
    | (.error e, k) =>
      if e = .echild then (none, { process with pid := -1, running := false }, k)
      else (none, process, k)
    | (.child status, k) => (some status, { process with pid := -1, running := false }, k)

/-! ## Spawning -/

/-- What comes of a call that spawns: whether it succeeds, and the child, if there is one. -/
structure Spawned where
  ok : Bool
  process : Process
  kernel : Kernel
  child : Option ChildEnd

/-- `subproc_spawn_fds_impl` on a handle: a child gets the number `pid`. -/
def spawnFds (w : SpawnWorld) (pid : ℤ) (a : SpawnArgs) (process : Process) (k : Kernel) :
    Spawned :=
  let r := subprocSpawnFdsImpl w k.fds { a with process := some process.pid }
  if r.ok then
    ⟨true, { subprocReset with pid, running := true },
      { k with fds := r.parent, children := Function.update k.children pid (some .running) },
      r.child⟩
  else ⟨false, process, { k with fds := r.parent }, r.child⟩

/-- What the system decides in `subproc_spawn_pipes`. -/
structure PipesWorld where
  spawn : SpawnWorld
  pid : ℤ
  pipes : Vector Bool 3
  /-- How many calls of `fcntl` succeed before the first one that does not. -/
  setfd : ℕ
  inputStream : Bool
  outputStream : Bool
  stop : StopWorld

/-- The loop that sets `FD_CLOEXEC`, and whether all calls succeed. -/
def prepareFds : List ℤ → (calls : ℕ) → FdTable → Bool × FdTable
  | [], _, t => (true, t)
  | fd :: fds, calls, t =>
    if fd < 0 then prepareFds fds calls t
    else if calls = 0 then (false, t)
    else prepareFds fds (calls - 1) (setCloexec t fd.toNat)

/-- The pipes that `subproc_spawn_pipes` makes, the last one of them only if the output and the
errors of the child are kept apart; if one cannot be made, those that have been made are closed.
-/
def makePipes (w : PipesWorld) (mergeStderr : Bool) (k : Kernel) :
    Option ((ℕ × ℕ) × (ℕ × ℕ) × Option (ℕ × ℕ)) × Kernel :=
  match pipe w.spawn.limit w.pipes[0] k with
  | none => (none, k)
  | some (childInput, k1) =>
    match pipe w.spawn.limit w.pipes[1] k1 with
    | none => (none, (k1.close childInput.1).close childInput.2)
    | some (childOutput, k2) =>
      if mergeStderr then (some (childInput, childOutput, none), k2)
      else
        match pipe w.spawn.limit w.pipes[2] k2 with
        | none => (none, (((k2.close childInput.1).close childInput.2).close childOutput.1).close
            childOutput.2)
        | some (childError, k3) => (some (childInput, childOutput, some childError), k3)

/-- The members of `close_fds`: all ends of the pipes, with `-1` for those that are not there. -/
def pipeEnds (childInput childOutput : ℕ × ℕ) (childError : Option (ℕ × ℕ)) : List ℤ :=
  [childInput.1, childInput.2, childOutput.1, childOutput.2,
    childError.elim (-1) fun e ↦ e.1, childError.elim (-1) fun e ↦ e.2]

/-- The loop that closes the ends of the pipes. -/
def closeEnds (ends : List ℤ) (k : Kernel) : Kernel :=
  ends.foldl (fun k fd ↦ if 0 ≤ fd then k.close fd.toNat else k) k

/-- The arguments with which `subproc_spawn_pipes` calls `subproc_spawn_fds_impl`. -/
def pipesArgs (path : Option CStr) (argv : Option (List CStr)) (group : Bool)
    (childInput childOutput : ℕ × ℕ) (childError : Option (ℕ × ℕ)) : SpawnArgs where
  process := none
  path
  argv
  mappings := some [⟨childInput.1, 0⟩, ⟨childOutput.2, 1⟩,
    ⟨childError.elim childOutput.2 fun e ↦ e.2, 2⟩]
  closeFds := some (pipeEnds childInput childOutput childError)
  group

/-- `subproc_spawn_pipes` from where the child has been made. -/
def takeStreams (w : PipesWorld) (childInput childOutput : ℕ × ℕ) (childError : Option (ℕ × ℕ))
    (s : Spawned) : Option Spawned := do
  let k := (s.kernel.close childInput.1).close childOutput.2
  let k := childError.elim k fun e ↦ k.close e.2
  let process := { s.process with
    input := if w.inputStream then some childInput.2 else none
    output := if w.outputStream then some childOutput.1 else none
    errorFd := childError.elim (-1) fun e ↦ e.1
    running := w.inputStream && w.outputStream }
  if process.running then return { s with process, kernel := k }
  else
    let k := if process.input = none then k.close childInput.2 else k
    let k := if process.output = none then k.close childOutput.1 else k
    let (_, process, k) ← subprocStop w.stop process k
    return { s with ok := false, process, kernel := k }

/-- `subproc_spawn_pipes`.  A path and an `argv[0]` are not `NULL` and not empty in what `none` and
empty ones stand for. -/
def subprocSpawnPipes (w : PipesWorld) (path : Option CStr) (argv : Option (List CStr))
    (mergeStderr group : Bool) (process : Process) (k : Kernel) : Option Spawned :=
  match path, argv with
  | some (_ :: _), some (_ :: _) =>
    if 0 < process.pid then some ⟨false, process, k, none⟩
    else
      match makePipes w mergeStderr k with
      | (none, k) => some ⟨false, subprocReset, k, none⟩
      | (some (childInput, childOutput, childError), k) =>
        let ends := pipeEnds childInput childOutput childError
        let (prepared, fds) := prepareFds ends w.setfd k.fds
        let k := { k with fds }
        if prepared = false then some ⟨false, subprocReset, closeEnds ends k, none⟩
        else
          let s := spawnFds w.spawn w.pid
            (pipesArgs path argv group childInput childOutput childError)
            subprocReset k
          if s.ok = false then some { s with kernel := closeEnds ends s.kernel }
          else takeStreams w childInput childOutput childError s
  | _, _ => some ⟨false, process, k, none⟩

end Rustyaxe.Subproc
