import OsProject.Exec
import OsProject.ProcessSpec

/-! The system calls of `FileCalls` with the pipes behind the open files and the transactions that are
counted in `log.outstanding`, and those of `pipe.c`. -/

namespace OsProject.Calls

open Vm (PipeEnds)

/-- `pipeOf` has the fields `f->pipe`, and `pipe` the pipes by the address of their page, while the
page is allocated. -/
structure World where
  fs : Fs
  outstanding : Int := 0
  pipe : Nat → Option PipeEnds := fun _ => none
  pipeOf : Fin NFILE → Nat := fun _ => 0

/-- `freedPipe` is an access to the page of a pipe that has been freed. -/
inductive CallPanic
  | fs (e : Panic)
  | vm (e : Vm.VmPanic)
  | freedPipe

abbrev WorldM := StateT World (Except CallPanic)

def onFs {α : Type} (x : FsM α) : WorldM α :=
  zoom World.fs (fun fs w => { w with fs := fs }) .fs x

def beginOp : WorldM Unit := do
  modify fun w => { w with outstanding := w.outstanding + 1 }
  onFs OsProject.beginOp

def endOp : WorldM Unit := do
  modify fun w => { w with outstanding := w.outstanding - 1 }
  onFs OsProject.endOp

variable (sb : Superblock)

section Pipes

def pipeclose (pi : Nat) (writable : Bool) : WorldM Unit := do
  match (← get).pipe pi with
  | none => throw .freedPipe
  | some ends =>
    let ends := ends.close writable
    if ends.readopen = false ∧ ends.writeopen = false then
      modify fun w => { w with pipe := Function.update w.pipe pi none }
    else modify fun w => { w with pipe := Function.update w.pipe pi (some ends) }

instance : MonadLiftT FsM WorldM := ⟨onFs⟩

theorem liftM_world {α : Type} (x : FsM α) : (liftM x : WorldM α) = onFs x := rfl

instance : CallOps WorldM where
  beginOp := beginOp
  endOp := endOp
  closePipe f writable := do pipeclose ((← get).pipeOf f) writable

/-- `page` is what the allocator has, if it is not out of memory. It never gives out a page that is
in use. -/
def kalloc (page : Option Nat) : WorldM (Option Nat) := do
  let w ← get
  return page.filter fun pi => (w.pipe pi).isNone

def setPipe (f : Fin NFILE) (pi : Nat) (writable : Bool) : WorldM Unit := do
  let x := (← get).fs.file f
  onFs (setFile f { x with type := .pipe, readable := !writable, writable := writable })
  modify fun w => { w with pipeOf := Function.update w.pipeOf f pi }

def pipealloc (page : Option Nat) : WorldM (Option (Fin NFILE × Fin NFILE)) := do
  match ← onFs filealloc with
  | none => return none
  | some f0 =>
    match ← onFs filealloc with
    | none =>
      fileclose sb f0
      return none
    | some f1 =>
      match ← kalloc page with
      | none =>
        fileclose sb f0
        fileclose sb f1
        return none
      | some pi =>
        modify fun w => { w with pipe := Function.update w.pipe pi (some {}) }
        setPipe f0 pi false
        setPipe f1 pi true
        return some (f0, f1)

/-- `copyoutOk` tells whether both descriptors could be copied to the user. -/
def sysPipe (me : Fin NPROC) (page : Option Nat) (copyoutOk : Bool) : WorldM Int := do
  match ← pipealloc sb page with
  | none => return -1
  | some (rf, wf) =>
    match ← onFs (fdalloc me rf) with
    | none =>
      fileclose sb rf
      fileclose sb wf
      return -1
    | some fd0 =>
      match ← onFs (fdalloc me wf) with
      | none =>
        dropFd me fd0
        fileclose sb rf
        fileclose sb wf
        return -1
      | some fd1 =>
        if copyoutOk then return 0
        else
          dropFd me fd0
          dropFd me fd1
          fileclose sb rf
          fileclose sb wf
          return -1

end Pipes

def ofKernel : Vm.KernelPanic → CallPanic
  | .vm e => .vm e
  | .fs e => .fs e

/-- `kexec`, in a kernel with the memory `phys` and the address spaces `space`. -/
def sysExec (L : Vm.Layout) (me : Fin NPROC) (phys : Vm.Phys) (space : Fin NPROC → Vm.Process)
    (path : List UInt8) (argv : List (List UInt8)) : WorldM Int :=
  zoom (fun w => { phys := phys, proc := space, fs := w.fs, outstanding := w.outstanding })
    (fun m w => { w with fs := m.fs, outstanding := m.outstanding }) ofKernel
    (Vm.kexec L sb me path argv)

inductive Syscall
  | link (old new : Option (List UInt8))
  | unlink (path : Option (List UInt8))
  | open (path : Option (List UInt8)) (omode : BitVec 32)
  | mkdir (path : Option (List UInt8))
  | mknod (path : Option (List UInt8)) (major minor : Int)
  | chdir (path : Option (List UInt8))
  | dup (fd : Int)
  | close (fd : Int)
  | pipe (page : Option Nat) (copyoutOk : Bool)
  | exec (L : Vm.Layout) (phys : Vm.Phys) (space : Fin NPROC → Vm.Process) (path : List UInt8)
      (argv : List (List UInt8))
  | fork (mem : ForkMem)
  | exit (status : Int)
  | wait (copyoutOk : Bool)

/-- The call of the process in slot `me`. -/
def syscall (me : Fin NPROC) : Syscall → WorldM Int
  | .link old new => sysLink sb me old new
  | .unlink path => sysUnlink sb me path
  | .open path omode => sysOpen sb me path omode
  | .mkdir path => sysMkdir sb me path
  | .mknod path major minor => sysMknod sb me path major minor
  | .chdir path => sysChdir sb me path
  | .dup fd => onFs (sysDup me fd)
  | .close fd => sysClose sb me fd
  | .pipe page copyoutOk => sysPipe sb me page copyoutOk
  | .exec L phys space path argv => sysExec sb L me phys space path argv
  | .fork mem => onFs (sysFork me mem)
  | .exit status => sysExit sb me status
  | .wait copyoutOk => onFs (sysWait me copyoutOk)

/-- A call of the process in slot `e.1`, if it can make one. A panic, or a call that never returns,
ends the run. -/
def callStep (r : Except CallPanic World) (e : Fin NPROC × Syscall) : Except CallPanic World :=
  match r with
  | .error p => .error p
  | .ok w => if (w.fs.kernel.proc e.1).Alive then (syscall sb e.1 e.2 w).map Prod.snd else .ok w

end OsProject.Calls
