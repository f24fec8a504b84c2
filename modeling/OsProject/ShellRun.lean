import OsProject.Runs
import OsProject.ShellParse

/-! `runcmd` of `sh.c`: the processes that it forks, each with its descriptors. The processes take
their system calls in any order. -/

namespace OsProject.Shell

/-- What a descriptor refers to: a file that was open at the start, a file that a redirection has
opened, or an end of a pipe. -/
inductive End
  | orig (fd : Nat)
  | file (name : Word)
  | read (pipe : Nat)
  | write (pipe : Nat)
  deriving DecidableEq, Repr

/-- The array `ofile`. -/
abbrev Fds := List (Option End)

def fdalloc (fds : Fds) (f : End) : Option (Nat × Fds) :=
  (fds.findIdx? Option.isNone).map fun fd => (fd, fds.set fd (some f))

def sysPipe (fds : Fds) (pipe : Nat) : Option (Nat × Nat × Fds) := do
  let (fd0, fds) ← fdalloc fds (.read pipe)
  let (fd1, fds) ← fdalloc fds (.write pipe)
  return (fd0, fd1, fds)

/-- The calls whose result `runcmd` does not look at. -/
inductive Op
  | close (fd : Nat)
  | dup (fd : Nat)
  deriving DecidableEq, Repr

def Op.apply (fds : Fds) : Op → Fds
  | .close fd => fds.set fd none
  | .dup fd =>
    match (fds[fd]?).join with
    | none => fds
    | some f =>
      match fdalloc fds f with
      | none => fds
      | some (_, fds) => fds

/-- Where a process is in `runcmd`, once the calls that are left to do are done. `exec` is the moment
of that call, and an exited process remembers whether it came to it. -/
inductive Next
  | run (cmd : Cmd)
  | opening (cmd : Cmd) (r : Redir)
  | forkLeft (left right : Cmd) (p0 p1 : Nat)
  | forkRight (left right : Cmd) (p0 p1 : Nat) (child : Nat)
  | wait (n : Nat) (children : List Nat) (cmd : Option Cmd)
  | exec (argv : List Word)
  | exited (ran : Bool)
  deriving DecidableEq, Repr

/-- `pos` counts the commands to the left in the pipeline. -/
structure Process where
  pos : Nat
  fds : Fds
  todo : List Op := []
  next : Next
  deriving DecidableEq, Repr

structure Procs where
  proc : List Process
  pipes : Nat := 0
  deriving DecidableEq, Repr

def Cmd.width : Cmd → Nat
  | .exec _ | .list _ _ | .back _ => 1
  | .redir cmd _ => cmd.width
  | .pipe left right => left.width + right.width

/-- `exit` closes all descriptors. -/
def Process.exit (p : Process) (ran : Bool) : Process :=
  { p with fds := p.fds.map fun _ => none, todo := [], next := .exited ran }

def Next.isExited : Next → Bool
  | .exited _ => true
  | _ => false

namespace Procs

variable (s : Procs) (i : Nat)

def put (p : Process) : Procs := { s with proc := s.proc.set i p }

/-- `fork`: the child gets the next place in the list of processes. -/
def fork (p child : Process) : Procs := { s with proc := s.proc.set i p ++ [child] }

def hasExited (child : Nat) : Bool := (s.proc[child]?).any fun c => c.next.isExited

/-- The beginning of `runcmd`, by the type of the command. -/
def run (p : Process) (ok : Bool) : Cmd → Procs
  | .exec argv => s.put i (if argv = [] then p.exit false else { p with next := .exec argv })
  | .redir cmd r => s.put i { p with todo := [.close r.fd], next := .opening cmd r }
  | .list left right =>
    if ok then s.fork i { p with next := .wait 1 [s.proc.length] (some right) }
      { p with next := .run left }
    else s.put i (p.exit false)
  | .pipe left right =>
    match if ok then sysPipe p.fds s.pipes else none with
    | some (p0, p1, fds) => { s.put i { p with fds := fds, next := .forkLeft left right p0 p1 } with
        pipes := s.pipes + 1 }
    | none => s.put i (p.exit false)
  | .back cmd =>
    if ok then s.fork i (p.exit false) { p with next := .run cmd } else s.put i (p.exit false)

def go (p : Process) (ok : Bool) : Procs :=
  match p.next with
  | .run cmd => s.run i p ok cmd
  | .opening cmd r =>
    match if ok then fdalloc p.fds (.file r.file) else none with
    | some (_, fds) => s.put i { p with fds := fds, next := .run cmd }
    | none => s.put i (p.exit false)
  | .forkLeft left right p0 p1 =>
    if ok then s.fork i { p with next := .forkRight left right p0 p1 s.proc.length }
      { p with todo := [.close 1, .dup p1, .close p0, .close p1], next := .run left }
    else s.put i (p.exit false)
  | .forkRight left right p0 p1 child =>
    if ok then
      s.fork i { p with
          todo := [.close p0, .close p1]
          next := .wait 2 [child, s.proc.length] none }
        { p with
          pos := p.pos + left.width
          todo := [.close 0, .dup p0, .close p0, .close p1]
          next := .run right }
    else s.put i (p.exit false)
  | .wait 0 _ none => s.put i (p.exit false)
  | .wait 0 _ (some cmd) => s.put i { p with next := .run cmd }
  | .wait (n + 1) children cmd =>
    match children.find? s.hasExited with
    | some child => s.put i { p with next := .wait n (children.erase child) cmd }
    | none => if children = [] then s.put i { p with next := .wait n [] cmd } else s
  | .exec _ => s.put i (p.exit true)
  | .exited _ => s

end Procs

/-- A step of one process. `ok` tells whether a fork, a pipe or an open succeeds. -/
structure ShEvent where
  pid : Nat
  ok : Bool := true
  deriving DecidableEq, Repr

def shStep (s : Procs) (e : ShEvent) : Procs :=
  match s.proc[e.pid]? with
  | none => s
  | some p =>
    match p.todo with
    | op :: ops => s.put e.pid { p with fds := op.apply p.fds, todo := ops }
    | [] => s.go e.pid p e.ok

def stdFds : Fds := [some (.orig 0), some (.orig 1), some (.orig 2)] ++ List.replicate (NOFILE - 3) none

def shStart (cmd : Cmd) : Procs := ⟨[{ pos := 0, fds := stdFds, next := .run cmd }], 0⟩

end OsProject.Shell
