import OsProject.Proc

/-! The process table, and the life of a slot: `allocproc`, `freeproc`, `kexit` and `kfork`. -/

namespace OsProject

structure Kernel where
  proc : Fin NPROC → Proc
  nextpid : Int := 1

/-- `n + 1` in a 32-bit `int`. -/
def intSucc (n : Int) : Int := (n + 1).bmod (2 ^ 32)

def Kernel.setProc (k : Kernel) (i : Fin NPROC) (p : Proc) : Kernel :=
  { k with proc := Function.update k.proc i p }

@[simp] theorem Kernel.setProc_same (k : Kernel) (i : Fin NPROC) (p : Proc) :
    (k.setProc i p).proc i = p := by
  simp [Kernel.setProc]

theorem Kernel.setProc_of_ne (k : Kernel) {i j : Fin NPROC} (h : j ≠ i) (p : Proc) :
    (k.setProc i p).proc j = k.proc j := by
  simp [Kernel.setProc, h]

@[simp] theorem Kernel.setProc_setProc (k : Kernel) (i : Fin NPROC) (p q : Proc) :
    (k.setProc i p).setProc i q = k.setProc i q := by
  simp [Kernel.setProc]

def freeproc (p : Proc) : Proc :=
  { p with
    trapframe := {}
    sz := 0
    pid := 0
    parent := none
    name := []
    chan := 0
    killed := 0
    xstate := 0
    state := .unused }

/-- What `kexit` leaves in the slot of the process that calls it. -/
def Proc.exit (p : Proc) (status : Int) : Proc :=
  { p with ofile := fun _ => none, cwd := none, xstate := status, state := .zombie }

def Kernel.reparent (k : Kernel) (me : Fin NPROC) : Kernel :=
  { k with
    proc := fun i =>
      if (k.proc i).parent = some me then { k.proc i with parent := some 0 } else k.proc i }

/-- The outcome of the memory allocations of one `kfork`: the page that `kalloc` returns for the
trapframe with what is in it, `proc_pagetable` and `uvmcopy`. -/
structure ForkMem where
  page : Option Trapframe := some {}
  pagetableOk : Bool := true
  uvmcopyOk : Bool := true

def unusedSlot (k : Kernel) : Option (Fin NPROC) :=
  (List.finRange NPROC).find? fun i => (k.proc i).state = .unused

def allocproc (k : Kernel) (mem : ForkMem) : Option (Fin NPROC) × Kernel :=
  match unusedSlot k with
  | none => (none, k)
  | some i =>
    let p := { k.proc i with pid := k.nextpid, state := .used }
    let k := { k with nextpid := intSucc k.nextpid }
    match mem.page with
    | none => (none, k.setProc i (freeproc p))
    | some frame =>
      if mem.pagetableOk then (some i, k.setProc i { p with trapframe := frame })
      else (none, k.setProc i (freeproc { p with trapframe := frame }))

/-- The part of `kfork` that fills in the new slot `np` from the caller `p` in slot `me`. -/
def copyProc (me : Fin NPROC) (p np : Proc) : Proc :=
  { np with
    sz := p.sz
    trapframe := { p.trapframe with a0 := 0 }
    ofile := fun fd => if (p.ofile fd).isSome then p.ofile fd else np.ofile fd
    cwd := p.cwd
    name := safestrcpy p.name 16
    parent := some me
    state := .runnable }

/-- `kfork`, with the pids of the line it prints. -/
def kfork (k : Kernel) (me : Fin NPROC) (mem : ForkMem) : Kernel × Int × Option (Int × Int) :=
  match allocproc k mem with
  | (none, k) => (k, -1, none)
  | (some i, k) =>
    let p := k.proc me
    let np := k.proc i
    if mem.uvmcopyOk then
      (k.setProc i (copyProc me p np), np.pid, some (p.pid, np.pid))
    else (k.setProc i (freeproc np), -1, none)

def forkChild (k : Kernel) (me i : Fin NPROC) : Proc :=
  copyProc me (k.proc me) { k.proc i with pid := k.nextpid, state := .used }

/-- The child that a pass of `kwait` finds. -/
def zombieChild (k : Kernel) (me : Fin NPROC) : Option (Fin NPROC) :=
  (List.finRange NPROC).find? fun i => (k.proc i).parent = some me ∧ (k.proc i).state = .zombie

theorem kfork_child {k : Kernel} {me i : Fin NPROC} {mem : ForkMem} (hi : unusedSlot k = some i)
    (hme : (k.proc me).state ≠ .unused) (hok : (kfork k me mem).2.1 ≠ -1) :
    (kfork k me mem).1.proc i = forkChild k me i := by
  have hunused : (k.proc i).state = .unused := by simpa using List.find?_some hi
  have hne : me ≠ i := by
    rintro rfl
    exact hme hunused
  cases hp : mem.page with
  | none => simp [kfork, allocproc, hi, hp] at hok
  | some frame =>
    cases ht : mem.pagetableOk with
    | false => simp [kfork, allocproc, hi, hp, ht] at hok
    | true =>
      cases hc : mem.uvmcopyOk with
      | false => simp [kfork, allocproc, hi, hp, ht, hc] at hok
      | true =>
        simp [kfork, allocproc, hi, hp, ht, hc, forkChild, copyProc, Kernel.setProc_of_ne, hne]

theorem kfork_parent {k : Kernel} {me i : Fin NPROC} (mem : ForkMem) (hi : unusedSlot k = some i)
    (hme : (k.proc me).state ≠ .unused) : (kfork k me mem).1.proc me = k.proc me := by
  have hunused : (k.proc i).state = .unused := by simpa using List.find?_some hi
  have hne : me ≠ i := by
    rintro rfl
    exact hme hunused
  cases hp : mem.page <;> cases ht : mem.pagetableOk <;> cases hc : mem.uvmcopyOk <;>
    simp [kfork, allocproc, hi, hp, ht, hc, Kernel.setProc_of_ne, hne]

theorem kfork_ret {k : Kernel} {me i : Fin NPROC} {mem : ForkMem} (hi : unusedSlot k = some i) :
    (kfork k me mem).2.1 =
      if mem.page.isSome ∧ mem.pagetableOk ∧ mem.uvmcopyOk then k.nextpid else -1 := by
  cases hp : mem.page <;> cases ht : mem.pagetableOk <;> cases hc : mem.uvmcopyOk <;>
    simp [kfork, allocproc, hi, hp, ht, hc]

end OsProject
