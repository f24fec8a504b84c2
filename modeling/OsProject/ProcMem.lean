import OsProject.FileCalls
import OsProject.Hoare
import OsProject.PageTable

/-! The state of the kernel that its processes share, and the page table of a process. -/

namespace OsProject.Vm

/-- The fields of `struct proc` that have to do with memory and with `wait`. A null pointer to a
page is 0. -/
structure Process where
  state : ProcState := .unused
  killed : Int := 0
  xstate : Int := 0
  pid : Int := 0
  parent : Option (Fin NPROC) := none
  sz : Nat := 0
  pagetable : Nat := 0
  trapframe : Nat := 0
  name : List UInt8 := []

/-- The flags of a `struct pipe`. -/
structure PipeEnds where
  readopen : Bool := true
  writeopen : Bool := true

/-- `pipe` has the live pipes by the address of their page, and `disk` the three queue pages.
The files of the processes are in `fs`, with `outstanding` from `log.c`. -/
structure Machine where
  phys : Phys
  proc : Fin NPROC → Process := fun _ => {}
  nextpid : Int := 1
  initproc : Option (Fin NPROC) := none
  kernelPagetable : Nat := 0
  disk : Fin 3 → Nat := fun _ => 0
  pipe : Nat → Option PipeEnds := fun _ => none
  fs : Fs
  outstanding : Int := 0

inductive KernelPanic
  | vm (e : VmPanic)
  | fs (e : Panic)

abbrev KernelM := StateT Machine (Except KernelPanic)

def onPhys {α : Type} (x : VmM α) : KernelM α :=
  zoom Machine.phys (fun m s => { s with phys := m }) .vm x

def onFs {α : Type} (x : FsM α) : KernelM α :=
  zoom Machine.fs (fun f s => { s with fs := f }) .fs x

def getProc (p : Fin NPROC) : KernelM Process := do
  return (← get).proc p

def modProc (p : Fin NPROC) (f : Process → Process) : KernelM Unit :=
  modify fun s => { s with proc := Function.update s.proc p (f (s.proc p)) }

variable (L : Layout)

def procPagetable (trapframe : Nat) : VmM (Option Nat) := do
  match ← uvmcreate with
  | none => return none
  | some pagetable =>
    if (← mappages pagetable TRAMPOLINE PGSIZE L.trampoline (PTE_R ||| PTE_X)) < 0 then
      uvmfree L pagetable 0
      return none
    if (← mappages pagetable TRAPFRAME PGSIZE trapframe (PTE_R ||| PTE_W)) < 0 then
      uvmunmap L pagetable TRAMPOLINE 1 false
      uvmfree L pagetable 0
      return none
    return some pagetable

def procFreepagetable (pagetable sz : Nat) : VmM Unit := do
  uvmunmap L pagetable TRAMPOLINE 1 false
  uvmunmap L pagetable TRAPFRAME 1 false
  uvmfree L pagetable sz

/-- `sz + n`, which wraps. -/
def addInt (sz : Nat) (n : Int) : Nat := (((sz : Int) + n) % 2 ^ 64).toNat

def PipeEnds.close (e : PipeEnds) (writable : Bool) : PipeEnds :=
  if writable then { e with writeopen := false } else { e with readopen := false }

def PipeEnds.isOpen (e : PipeEnds) (writable : Bool) : Bool :=
  if writable then e.writeopen else e.readopen

end OsProject.Vm
