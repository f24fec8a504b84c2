import OsProject.Family
import OsProject.Runs
import OsProject.Semaphore

/-! The life of processes in `proc.c`: `kfork`, `kexit` with `reparent`, and `kwait`. A critical
section under `wait_lock` or under the lock of a process is one step, and the steps of the processes
come in any order, with those of the scheduler, `sleep`, `wakeup` and `kkill` between them. -/

namespace OsProject.Life

/-- The address of a slot, as a sleep channel. Only `kwait` sleeps on it. -/
def procAddr (i : Fin NPROC) : Nat := globalSem + 1 + i

/-- The slot of `initproc`. -/
def initproc : Fin NPROC := 0

/-- Where a process is: in `kfork` with a child that is not its own yet or not started yet, in the
loop of `kwait(addr)`, or elsewhere. -/
inductive Phase
  | idle
  | forked (np : Fin NPROC)
  | adopted (np : Fin NPROC)
  | waiting (addr : UInt64)
  deriving DecidableEq, Repr

/-- `inst` numbers the processes, so that the occupants of a slot can be told apart; `exits` and
`reaps` record the calls of `kexit` and the `kwait`s that freed a child. -/
structure LifeState where
  kernel : Kernel
  phase : Fin NPROC → Phase := fun _ => .idle
  inst : Fin NPROC → Nat := fun _ => 0
  mother : Nat → Nat := fun _ => 0
  births : Nat := 1
  exits : List Exit := []
  reaps : List Reap := []
  panic : Bool := false

/-- The part of `kfork` with `np->lock` held, from `allocproc`'s choice of slot `i` on. The `Bool`
tells whether the child was made. -/
def kforkFill (k : Kernel) (me i : Fin NPROC) (mem : ForkMem) : Bool × Kernel :=
  let np := { k.proc i with pid := k.nextpid, state := .used }
  let k := { k with nextpid := intSucc k.nextpid }
  match mem.page with
  | none => (false, k.setProc i (freeproc np))
  | some frame =>
    let np := { np with trapframe := frame }
    if mem.pagetableOk ∧ mem.uvmcopyOk then
      (true, k.setProc i
        { copyProc me (k.proc me) np with parent := np.parent, state := np.state })
    else (false, k.setProc i (freeproc np))

/-- The loop of `reparent` over the slots that are left. -/
def reparentLoop (me : Fin NPROC) : List (Fin NPROC) → Kernel → Kernel
  | [], k => k
  | i :: slots, k =>
    if (k.proc i).parent = some me then
      reparentLoop me slots
        (wakeup (k.setProc i { k.proc i with parent := some initproc }) me (procAddr initproc))
    else reparentLoop me slots k

def reparent (k : Kernel) (me : Fin NPROC) : Kernel := reparentLoop me (List.finRange NPROC) k

/-- The part of `kexit` with `wait_lock` held. A null parent is channel 0. -/
def kexitSection (k : Kernel) (me : Fin NPROC) (status : Int) : Kernel :=
  let k := reparent k me
  let k := wakeup k me ((k.proc me).parent.elim 0 procAddr)
  k.setProc me ((k.proc me).exit status)

def HasKids (k : Kernel) (me : Fin NPROC) : Prop := ∃ i, (k.proc i).parent = some me

instance (k : Kernel) (me : Fin NPROC) : Decidable (HasKids k me) :=
  inferInstanceAs (Decidable (∃ i, (k.proc i).parent = some me))

namespace LifeState

variable (s : LifeState) (p : Fin NPROC)

def setPhase (x : Phase) : LifeState := { s with phase := Function.update s.phase p x }

def setState (x : ProcState) : LifeState :=
  { s with kernel := s.kernel.setProc p { s.kernel.proc p with state := x } }

/-- `kfork` by `p` with the slot `i`. -/
def kfork (i : Fin NPROC) (mem : ForkMem) : LifeState :=
  match kforkFill s.kernel p i mem with
  | (true, k) =>
    { s.setPhase p (.forked i) with
      kernel := k
      inst := Function.update s.inst i s.births
      mother := Function.update s.mother s.births (s.inst p)
      births := s.births + 1 }
  | (false, k) => { s with kernel := k }

/-- `np->parent = p`, under `wait_lock`. -/
def adopt (np : Fin NPROC) : LifeState :=
  { s.setPhase p (.adopted np) with
    kernel := s.kernel.setProc np { s.kernel.proc np with parent := some p } }

/-- `np->state = RUNNABLE`, and the return from `kfork`. -/
def publish (np : Fin NPROC) : LifeState := (s.setPhase p .idle).setState np .runnable

def kexit (status : Int) : LifeState :=
  if p = initproc then { s with panic := true }
  else
    { s with
      kernel := kexitSection s.kernel p status
      exits := s.exits ++ [⟨s.inst p, (s.kernel.proc p).pid, status⟩] }

/-- One pass of the loop of `kwait`; `copied` tells whether the status could be stored. -/
def kwaitPass (addr : UInt64) (copied : Bool) : LifeState :=
  match zombieChild s.kernel p with
  | some c =>
    if addr ≠ 0 ∧ copied = false then s.setPhase p .idle
    else
      { s.setPhase p .idle with
        kernel := s.kernel.setProc c (freeproc (s.kernel.proc c))
        reaps := s.reaps ++ [⟨s.inst c, (s.kernel.proc c).pid, (s.kernel.proc c).xstate, s.inst p⟩] }
  | none =>
    if ¬ HasKids s.kernel p ∨ (s.kernel.proc p).killed ≠ 0 then s.setPhase p .idle
    else
      { s with
        kernel := s.kernel.setProc p
          { s.kernel.proc p with chan := procAddr p, state := .sleeping } }

end LifeState

/-- A step of process `p`, or of the scheduler with it, or an interrupt on a CPU that runs no
process. -/
inductive LifeEvent
  | kfork (p i : Fin NPROC) (mem : ForkMem)
  | adopt (p : Fin NPROC)
  | publish (p : Fin NPROC)
  | kexit (p : Fin NPROC) (status : Int)
  | kwait (p : Fin NPROC) (addr : UInt64)
  | pass (p : Fin NPROC) (copied : Bool)
  | sleep (p : Fin NPROC) (chan : Nat)
  | wakeup (p : Fin NPROC) (chan : Nat)
  | kill (p : Fin NPROC) (pid : Int) (sig : Fin 32)
  | setkilled (p : Fin NPROC)
  | dispatch (p : Fin NPROC)
  | preempt (p : Fin NPROC)
  | interrupt (chan : Nat)

/-- The process of a step; for an interrupt it has no meaning. -/
def LifeEvent.actor : LifeEvent → Fin NPROC
  | .kfork p _ _ | .adopt p | .publish p | .kexit p _ | .kwait p _ | .pass p _ | .sleep p _
  | .wakeup p _ | .kill p _ _ | .setkilled p | .dispatch p | .preempt p => p
  | .interrupt _ => initproc

/-- What a running process does. `allocproc` may find any slot that is unused when it looks at it. -/
def runStep (s : LifeState) : LifeEvent → LifeState
  | .kfork p i mem =>
    if s.phase p = .idle ∧ (s.kernel.proc i).state = .unused then s.kfork p i mem else s
  | .adopt p =>
    match s.phase p with
    | .forked np => s.adopt p np
    | _ => s
  | .publish p =>
    match s.phase p with
    | .adopted np => s.publish p np
    | _ => s
  | .kexit p status => if s.phase p = .idle then s.kexit p status else s
  | .kwait p addr => if s.phase p = .idle then s.setPhase p (.waiting addr) else s
  | .pass p copied =>
    match s.phase p with
    | .waiting addr => s.kwaitPass p addr copied
    | _ => s
  | .sleep p chan =>
    if s.phase p = .idle ∧ ∀ j, chan ≠ procAddr j then
      { s with kernel := s.kernel.setProc p { s.kernel.proc p with chan := chan, state := .sleeping } }
    else s
  | .wakeup p chan => { s with kernel := OsProject.wakeup s.kernel p chan }
  | .kill _ pid sig => { s with kernel := (kkill s.kernel pid sig).1 }
  | .setkilled p =>
    { s with kernel := s.kernel.setProc p { s.kernel.proc p with killed := 1 } }
  | .preempt p => s.setState p .runnable
  | .dispatch _ | .interrupt _ => s

/-- An event that is not possible changes nothing, and nothing happens after a panic. -/
def lifeStep (s : LifeState) (e : LifeEvent) : LifeState :=
  if s.panic then s
  else
    match e with
    | .dispatch p =>
      if (s.kernel.proc p).state = .runnable then
        { s with kernel := s.kernel.setProc p { s.kernel.proc p with chan := 0, state := .running } }
      else s
    | .interrupt chan => { s with kernel := wakeupAll s.kernel chan }
    | e => if (s.kernel.proc e.actor).state = .running then runStep s e else s

/-- After `userinit`: the first process is in slot 0. -/
def lifeBoot : LifeState where
  kernel :=
    { proc := fun i => if i = initproc then { pid := 1, state := .runnable } else {}
      nextpid := 2 }

end OsProject.Life
