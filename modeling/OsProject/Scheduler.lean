import OsProject.ProcLife

/-! The scheduler of `proc.c` on any number of CPUs, with the locks of the processes. A process that
gives up the CPU takes its lock first, and the scheduler it switches to releases it; a process that
gets the CPU finds its lock taken for it by the scheduler. -/

namespace OsProject.Cpus

/-- Why a process takes its own lock before it gives up the CPU. -/
inductive Own
  | yield
  | sleep (chan : Nat)
  | kexit (status : Int)
  deriving DecidableEq, Repr

inductive Visit
  | wakeup (chan : Nat)
  | kkill (pid : Int) (sig : Fin 32)
  | allocproc
  | publish
  | kwait
  deriving DecidableEq, Repr

/-- Where the kernel thread of a process is: it holds no process lock; it has its own lock in
`yield`, `sleep` or `kexit`; it has set its state and is about to `swtch`; `swtch` has returned to it,
or it begins at `forkret`; it has the lock of a slot; it is filling the slot that `allocproc` found;
or it is about to release the lock of a slot. -/
inductive Pos
  | free
  | own (k : Own)
  | swtch (k : Own)
  | resumed (k : Option Own)
  | other (q : Fin NPROC) (v : Visit)
  | fill (q : Fin NPROC)
  | leave (q : Fin NPROC)
  deriving DecidableEq, Repr

/-- Where the scheduler of a CPU is: between two slots, with a lock and about to look at the state,
in the `wakeup` of an interrupt with a lock, in `swtch` while the process runs, back from `swtch`, or
about to release the lock. -/
inductive Thread
  | scan
  | picked (p : Fin NPROC)
  | waking (p : Fin NPROC) (chan : Nat)
  | away (p : Fin NPROC)
  | back (p : Fin NPROC)
  | done (p : Fin NPROC)
  deriving DecidableEq, Repr

/-- `lock` is the CPU that holds the lock of a process, and `current` is `c->proc`. `making` is the
child of a `kfork` that has not been made runnable yet. -/
structure CpuState (κ : Type) where
  kernel : Kernel
  lock : Fin NPROC → Option κ := fun _ => none
  current : κ → Option (Fin NPROC) := fun _ => none
  thread : κ → Thread := fun _ => .scan
  pos : Fin NPROC → Pos := fun _ => .resumed none
  making : Fin NPROC → Option (Fin NPROC) := fun _ => none

/-- A step on CPU `c`: the scheduler takes the lock of a slot, for itself or in the handler of an
interrupt, or goes on; the process that runs there takes its own lock or that of a slot, sets the
parent of its new child, gives a child to init in `reparent`, or goes on. `ok` tells whether the
allocations of `kfork`, or the copyout of `kwait`, succeed. -/
inductive CpuEvent (κ : Type)
  | acquire (c : κ) (q : Fin NPROC)
  | interrupt (c : κ) (q : Fin NPROC) (chan : Nat)
  | sched (c : κ)
  | call (c : κ) (k : Own)
  | visit (c : κ) (q : Fin NPROC) (v : Visit)
  | adopt (c : κ)
  | reparent (c : κ) (q : Fin NPROC)
  | go (c : κ) (ok : Bool)

def Own.leave (x : Proc) : Own → Proc
  | .yield => { x with state := .runnable }
  | .sleep chan => { x with chan := chan, state := .sleeping }
  | .kexit status => x.exit status

/-- What the process does to its slot when `swtch` returns: `sleep` clears the channel. -/
def Own.wake (x : Proc) : Option Own → Proc
  | some (.sleep _) => { x with chan := 0 }
  | _ => x

namespace CpuState

variable {κ : Type} [DecidableEq κ] (s : CpuState κ) (c : κ) (p q : Fin NPROC)

def setThread (t : Thread) : CpuState κ := { s with thread := Function.update s.thread c t }

def setPos (x : Pos) : CpuState κ := { s with pos := Function.update s.pos p x }

def setProc (x : Proc) : CpuState κ := { s with kernel := s.kernel.setProc p x }

def setLock (o : Option κ) : CpuState κ := { s with lock := Function.update s.lock q o }

/-- A step of `scheduler` that is not the taking of a lock. -/
def sched : CpuState κ :=
  match s.thread c with
  | .picked p =>
    if (s.kernel.proc p).state = .runnable then
      { (s.setProc p { s.kernel.proc p with state := .running }).setThread c (.away p) with
        current := Function.update s.current c (some p) }
    else s.setThread c (.done p)
  | .waking p chan =>
    (if (s.kernel.proc p).SleepsOn chan then s.setProc p { s.kernel.proc p with state := .runnable }
      else s).setThread c (.done p)
  | .back p => { s.setThread c (.done p) with current := Function.update s.current c none }
  | .done p => (s.setLock p none).setThread c .scan
  | .scan | .away _ => s

/-- Whether process `p` may take the lock of slot `q` for `v`. -/
def May : Visit → Prop
  | .wakeup _ => q ≠ p
  | .kkill _ _ => True
  | .allocproc => s.making p = none
  | .publish => s.making p = some q ∧ (s.kernel.proc q).parent = some p
  | .kwait => (s.kernel.proc q).parent = some p

instance (v : Visit) : Decidable (s.May p q v) := by
  cases v <;> unfold May <;> infer_instance

/-- Whether process `p` may give up the CPU for `k`: init never exits, and another process only
outside `kfork` and after `reparent`. -/
def MayCall : Own → Prop
  | .kexit _ =>
    p ≠ Life.initproc ∧ s.making p = none ∧ ∀ q, (s.kernel.proc q).parent ≠ some p
  | .yield | .sleep _ => True

instance (k : Own) : Decidable (s.MayCall p k) := by
  cases k <;> unfold MayCall <;> infer_instance

/-- What process `p` does with the lock of slot `q`. -/
def visit (ok : Bool) : Visit → CpuState κ
  | .wakeup chan =>
    (if (s.kernel.proc q).SleepsOn chan then s.setProc q { s.kernel.proc q with state := .runnable }
      else s).setPos p (.leave q)
  | .kkill pid sig =>
    (if (s.kernel.proc q).pid = pid then s.setProc q ((s.kernel.proc q).post sig)
      else s).setPos p (.leave q)
  | .allocproc =>
    if (s.kernel.proc q).state = .unused then
      (({ s with kernel := { s.kernel with nextpid := intSucc s.kernel.nextpid } }.setProc q
        { s.kernel.proc q with pid := s.kernel.nextpid, state := .used }).setPos q
          (.resumed none)).setPos p (.fill q)
    else s.setPos p (.leave q)
  | .publish =>
    { (s.setProc q { s.kernel.proc q with state := .runnable }).setPos p (.leave q) with
      making := Function.update s.making p none }
  | .kwait =>
    (if (s.kernel.proc q).state = .zombie ∧ ok then s.setProc q (freeproc (s.kernel.proc q))
      else s).setPos p (.leave q)

/-- The next step of process `p`, which runs on CPU `c`. -/
def go (ok : Bool) : CpuState κ :=
  match s.pos p with
  | .free => s
  | .own k => (s.setProc p (k.leave (s.kernel.proc p))).setPos p (.swtch k)
  | .swtch k => (s.setPos p (.resumed (some k))).setThread c (.back p)
  | .resumed k => ((s.setProc p (Own.wake (s.kernel.proc p) k)).setLock p none).setPos p .free
  | .other q v => s.visit p q ok v
  | .fill q =>
    if ok then
      { (s.setProc q { copyProc p (s.kernel.proc p) (s.kernel.proc q) with
          parent := (s.kernel.proc q).parent, state := .used }).setPos p (.leave q) with
        making := Function.update s.making p (some q) }
    else (s.setProc q (freeproc (s.kernel.proc q))).setPos p (.leave q)
  | .leave q => (s.setLock q none).setPos p .free

end CpuState

variable {κ : Type} [DecidableEq κ]

/-- An event that is not possible changes nothing; in particular `acquire` waits for the lock. -/
def cpuStep (s : CpuState κ) : CpuEvent κ → CpuState κ
  | .acquire c q =>
    if s.thread c = .scan ∧ s.lock q = none then (s.setLock q (some c)).setThread c (.picked q) else s
  | .interrupt c q chan =>
    if s.thread c = .scan ∧ s.lock q = none then
      (s.setLock q (some c)).setThread c (.waking q chan)
    else s
  | .sched c => s.sched c
  | .call c k =>
    match s.thread c with
    | .away p =>
      if s.pos p = .free ∧ s.lock p = none ∧ s.MayCall p k then
        (s.setLock p (some c)).setPos p (.own k)
      else s
    | _ => s
  | .visit c q v =>
    match s.thread c with
    | .away p =>
      if s.pos p = .free ∧ s.lock q = none ∧ s.May p q v then
        (s.setLock q (some c)).setPos p (.other q v)
      else s
    | _ => s
  | .adopt c =>
    match s.thread c with
    | .away p =>
      match s.pos p, s.making p with
      | .free, some np => s.setProc np { s.kernel.proc np with parent := some p }
      | _, _ => s
    | _ => s
  | .reparent c q =>
    match s.thread c with
    | .away p =>
      if s.pos p = .free ∧ (s.kernel.proc q).parent = some p then
        s.setProc q { s.kernel.proc q with parent := some Life.initproc }
      else s
    | _ => s
  | .go c ok =>
    match s.thread c with
    | .away p => s.go c p ok
    | _ => s

/-- After `userinit`, with every CPU in `scheduler`. -/
def cpuBoot : CpuState κ where
  kernel := Life.lifeBoot.kernel

end OsProject.Cpus
