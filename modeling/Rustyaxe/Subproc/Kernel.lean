import Rustyaxe.Subproc

/-!
# What the system does for a program with children

The calls `subproc.c` makes: `pipe`, `fcntl`, `fork`, `kill` and `waitpid`.  What the system decides
is given with each call: whether there is room, which number a process gets, what becomes of a child
meanwhile.

A child is there until it has been waited for; then its number may be given to any other process.
A signal that is sent to a number that is no child is noted (`Kernel.strays`), as it may hit any
process.
-/

set_option autoImplicit false

namespace Rustyaxe.Subproc

/-! ## Descriptors -/

/-- A child that has not been waited for. -/
inductive ChildState where
  | running
  /-- It has ended, with this status. -/
  | ended (status : ℤ)
  deriving DecidableEq

/-- What the system keeps for the program.  Open files are numbered; `files` is the next number. -/
structure Kernel where
  fds : FdTable
  files : ℕ
  children : ℤ → Option ChildState
  strays : List ℤ

/-- The lowest number that is free. -/
def lowestFree (limit : ℕ) (t : FdTable) : Option ℕ :=
  (List.range limit).find? fun n ↦ (t n).isNone

/-- A descriptor of a new file. -/
def Kernel.openFile (limit : ℕ) (k : Kernel) : Option (ℕ × Kernel) := do
  let fd ← lowestFree limit k.fds
  return (fd, { k with
    fds := Function.update k.fds fd (some ⟨k.files, false⟩), files := k.files + 1 })

/-- `close` -/
def Kernel.close (fd : ℕ) (k : Kernel) : Kernel := { k with fds := closeFd k.fds fd }

/-- `pipe`: the end that is read is a file, and the end that is written is the next one.  There has
to be room for both of them; `room` is whether the system has room for a pipe at all. -/
def pipe (limit : ℕ) (room : Bool) (k : Kernel) : Option ((ℕ × ℕ) × Kernel) := do
  if room = false then none
  else
    let (readEnd, k) ← k.openFile limit
    let (writeEnd, k) ← k.openFile limit
    return ((readEnd, writeEnd), k)

/-- `fcntl(fd, F_SETFD, FD_CLOEXEC)` on a descriptor that is open. -/
def setCloexec (t : FdTable) (fd : ℕ) : FdTable :=
  Function.update t fd ((t fd).map fun d ↦ ⟨d.file, true⟩)

/-! ## Children -/

/-- The values of `errno` that `kill` and `waitpid` are asked for, and any other one. -/
inductive Errno where
  | eintr
  | echild
  | esrch
  | eperm
  | other
  deriving DecidableEq

/-- `kill`, with `errno` if it fails.  A child that has not been waited for can be signalled, if
this is permitted. -/
def kill (permitted : Bool) (pid : ℤ) (k : Kernel) : Option Errno × Kernel :=
  match k.children pid with
  | some _ => (if permitted then none else some .eperm, k)
  | none => (if permitted then some .esrch else some .eperm, { k with strays := pid :: k.strays })

/-- The child ends, if it has not. -/
def Kernel.finish (pid status : ℤ) (k : Kernel) : Kernel :=
  match k.children pid with
  | some .running =>
    { k with children := Function.update k.children pid (some (.ended status)) }
  | _ => k

/-- What `waitpid` comes back with. -/
inductive Wait where
  | nothing
  | child (status : ℤ)
  | error (e : Errno)

/-- What happens at a look for the child: it may have ended meanwhile, and the call may be
interrupted. -/
structure Look where
  ended : Option ℤ
  interrupted : Bool

/-- The child as it is when `waitpid` looks for it. -/
def Kernel.at (k : Kernel) (pid : ℤ) (look : Look) : Kernel :=
  match look.ended with
  | some status => k.finish pid status
  | none => k

/-- `waitpid(pid, &status, WNOHANG)` -/
def waitpidNohang (pid : ℤ) (look : Look) (k : Kernel) : Wait × Kernel :=
  let k := k.at pid look
  if look.interrupted then (.error .eintr, k)
  else
    match k.children pid with
    | none => (.error .echild, k)
    | some .running => (.nothing, k)
    | some (.ended status) =>
      (.child status, { k with children := Function.update k.children pid none })

/-- `waitpid(pid, &status, 0)`, which does not come back as long as the child runs. -/
def waitpid (pid : ℤ) (interrupted : Bool) (k : Kernel) : Option (Wait × Kernel) :=
  if interrupted then some (.error .eintr, k)
  else
    match k.children pid with
    | none => some (.error .echild, k)
    | some .running => none
    | some (.ended status) =>
      some (.child status, { k with children := Function.update k.children pid none })

/-- `kill(pid, SIGKILL)`: a child that can be signalled ends. -/
def killSigkill (permitted : Bool) (pid : ℤ) (k : Kernel) : Option Errno × Kernel :=
  match kill permitted pid k with
  | (none, k) => (none, k.finish pid 9)
  | (e, k) => (e, k)

end Rustyaxe.Subproc
