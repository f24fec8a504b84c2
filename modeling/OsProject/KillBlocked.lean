import OsProject.Semaphore

/-! Signals to a process that is blocked in the kernel. `kkill` sets a bit of `pending_signals` and
wakes the process, but the loops in which it blocks test `killed`, which only `deliver_signals`
sets, on the way back to user space. -/

namespace OsProject

structure Pipe where
  nread : UInt32 := 0
  nwrite : UInt32 := 0
  readopen : Int := 1
  writeopen : Int := 1

def PIPESIZE : UInt32 := 512

/-- What the loops look at besides the process itself: the pipe, the two indices of the console
buffer, the process table, whether `copyout` succeeds, the clock and the semaphore. -/
structure World where
  pipe : Pipe := {}
  consR : UInt32 := 0
  consW : UInt32 := 0
  kernel : Kernel
  copyoutOk : Bool := true
  ticks : UInt32 := 0
  semValue : Int := 0

/-- One pass through a loop: it goes to sleep, returns -1, or does anything else. -/
inductive Pass
  | sleeps | fails | proceeds
  deriving DecidableEq

/-- The pass of a loop `while(cond){ if(killed(p)) return -1; sleep(); }`. -/
def waitWhile (cond : Prop) [Decidable cond] (p : Proc) : Pass :=
  if cond then if p.killed ≠ 0 then .fails else .sleeps else .proceeds

def pipereadPass (w : World) (p : Proc) : Pass :=
  waitWhile (w.pipe.nread = w.pipe.nwrite ∧ w.pipe.writeopen ≠ 0) p

/-- `pipewrite` tests `killed` before it knows whether it has to wait. -/
def pipewritePass (i n : Int) (w : World) (p : Proc) : Pass :=
  if i < n then
    if w.pipe.readopen = 0 ∨ p.killed ≠ 0 then .fails
    else if w.pipe.nwrite = w.pipe.nread + PIPESIZE then .sleeps
    else .proceeds
  else .proceeds

def consolereadPass (w : World) (p : Proc) : Pass := waitWhile (w.consR = w.consW) p

def HasKids (k : Kernel) (me : Fin NPROC) : Prop := ∃ j, (k.proc j).parent = some me

instance (k : Kernel) (me : Fin NPROC) : Decidable (HasKids k me) :=
  inferInstanceAs (Decidable (∃ j, (k.proc j).parent = some me))

def kwaitPass (me : Fin NPROC) (addr : UInt64) (w : World) (p : Proc) : Pass :=
  match zombieChild w.kernel me with
  | some _ => if addr ≠ 0 ∧ w.copyoutOk = false then .fails else .proceeds
  | none => if ¬ HasKids w.kernel me ∨ p.killed ≠ 0 then .fails else .sleeps

/-- The clock and `ticks0` are `uint`, and a negative argument counts as 0. -/
def sysPausePass (ticks0 : UInt32) (x : UInt64) (w : World) (p : Proc) : Pass :=
  waitWhile (w.ticks - ticks0 < UInt32.ofNat (argint x).toNat) p

/-- Here `ticks0` is `uint64`, so the argument is extended with its sign. -/
def sysSleepPass (ticks0 x : UInt64) (w : World) (p : Proc) : Pass :=
  waitWhile (w.ticks.toUInt64 - ticks0 < UInt64.ofInt (argint x)) p

/-- `sys_sem_wait` does not test `killed` at all. -/
def sysSemWaitPass (w : World) : Pass := if w.semValue ≤ 0 then .sleeps else .proceeds

/-- A call that can block, with what it keeps in its own variables. -/
inductive LoopCall
  | piperead
  | pipewrite (i n : Int)
  | consoleread
  | kwait (me : Fin NPROC) (addr : UInt64)
  | sysPause (ticks0 : UInt32) (x : UInt64)
  | sysSleep (ticks0 x : UInt64)
  | sysSemWait

def loopPass : LoopCall → World → Proc → Pass
  | .piperead => pipereadPass
  | .pipewrite i n => pipewritePass i n
  | .consoleread => consolereadPass
  | .kwait me addr => kwaitPass me addr
  | .sysPause ticks0 x => sysPausePass ticks0 x
  | .sysSleep ticks0 x => sysSleepPass ticks0 x
  | .sysSemWait => fun w _ => sysSemWaitPass w

inductive WhileAsleep
  | kill (sig : Fin 32)
  | wakeup
  | send (msg : List UInt8)
  | recv
  | reparent

def whileAsleep (p : Proc) : WhileAsleep → Proc
  | .kill sig => p.post sig
  | .wakeup => if p.state = .sleeping then { p with state := .runnable } else p
  | .send msg => p.putMail msg
  | .recv => p.takeMail.1
  | .reparent => { p with parent := some 0 }

/-- `sleep` up to its `sched`, and what it does when the process runs again. -/
def Proc.sleepOn (p : Proc) (chan : Nat) : Proc := { p with chan := chan, state := .sleeping }

def Proc.awake (p : Proc) : Proc := { p with chan := 0, state := .running }

/-- The process went to sleep in the loop of `call` and has not run since. -/
def AsleepIn (call : LoopCall) (p : Proc) : Prop :=
  ∃ w q chan events, loopPass call w q = .sleeps ∧
    p = List.foldl whileAsleep (Proc.sleepOn q chan) events

/-- After `kkill(pid, sig)` on the process in slot `i` and whatever happens until it runs again, its
next pass through the loop returns -1. -/
def KillInterrupts (k : Kernel) (pid : Int) (sig : Fin 32) (i : Fin NPROC) (call : LoopCall)
    (events : List WhileAsleep) (w : World) : Prop :=
  loopPass call w (events.foldl whileAsleep ((kkill k pid sig).1.proc i)).awake = .fails

/-- The pass returns -1 for a reason that has nothing to do with the signal: the read end of the
pipe is closed, there is no child to wait for, or its status cannot be copied out. -/
def FailsAnyway (w : World) : LoopCall → Prop
  | .pipewrite _ _ => w.pipe.readopen = 0
  | .kwait me addr =>
    if (zombieChild w.kernel me).isSome then addr ≠ 0 ∧ w.copyoutOk = false
    else ¬ HasKids w.kernel me
  | _ => False

theorem killed_whileAsleep (p : Proc) (e : WhileAsleep) : (whileAsleep p e).killed = p.killed := by
  cases e with
  | kill | send | reparent => rfl
  | wakeup => by_cases hs : p.state = .sleeping <;> simp [whileAsleep, hs]
  | recv => by_cases hm : p.hasMessage = 0 <;> simp [whileAsleep, Proc.takeMail, hm]

theorem killed_foldl_whileAsleep (events : List WhileAsleep) (p : Proc) :
    (events.foldl whileAsleep p).killed = p.killed := by
  induction events generalizing p with
  | nil => rfl
  | cons e events ih => rw [List.foldl_cons, ih, killed_whileAsleep]

theorem loopPass_congr {p q : Proc} (h : q.killed = p.killed) (call : LoopCall) (w : World) :
    loopPass call w q = loopPass call w p := by
  cases call <;> simp only [loopPass, pipereadPass, pipewritePass, consolereadPass, kwaitPass,
    sysPausePass, sysSleepPass, waitWhile, h]

theorem waitWhile_sleeps {cond : Prop} [Decidable cond] {p : Proc}
    (h : waitWhile cond p = .sleeps) : p.killed = 0 := by
  rw [waitWhile] at h
  split_ifs at h with _ hk
  exact not_not.mp hk

theorem waitWhile_alive {cond : Prop} [Decidable cond] {p : Proc} (h : p.killed = 0) :
    waitWhile cond p ≠ .fails := by
  rw [waitWhile]
  split_ifs <;> simp_all

theorem killed_of_sleeps {call : LoopCall} {w : World} {p : Proc}
    (h : loopPass call w p = .sleeps) : call = .sysSemWait ∨ p.killed = 0 := by
  cases call with
  | piperead | consoleread | sysPause | sysSleep => exact .inr (waitWhile_sleeps h)
  | pipewrite i n =>
    right
    simp only [loopPass, pipewritePass] at h
    split_ifs at h with _ hk
    exact not_not.mp (not_or.mp hk).2
  | kwait me addr =>
    right
    simp only [loopPass, kwaitPass] at h
    split at h
    · split_ifs at h
    · split_ifs at h with hk
      exact not_not.mp (not_or.mp hk).2
  | sysSemWait => exact .inl rfl

theorem pipewrite_lt {i n : Int} {w : World} {p : Proc}
    (h : loopPass (.pipewrite i n) w p = .sleeps) : i < n := by
  simp only [loopPass, pipewritePass] at h
  split_ifs at h with hi
  exact hi

theorem fails_iff {call : LoopCall} {w0 w : World} {p : Proc}
    (h : loopPass call w0 p = .sleeps) : loopPass call w p = .fails ↔ FailsAnyway w call := by
  have hk := killed_of_sleeps h
  cases call with
  | piperead | consoleread | sysPause | sysSleep =>
    exact iff_of_false (waitWhile_alive (hk.resolve_left (by simp))) id
  | pipewrite i n =>
    have hz : p.killed = 0 := hk.resolve_left (by simp)
    simp only [loopPass, pipewritePass, FailsAnyway, pipewrite_lt h, if_true, hz, ne_eq,
      not_true_eq_false, or_false]
    split_ifs <;> simp_all
  | kwait me addr =>
    have hz : p.killed = 0 := hk.resolve_left (by simp)
    cases hc : zombieChild w.kernel me <;>
      simp [loopPass, kwaitPass, FailsAnyway, hc, hz]
  | sysSemWait =>
    refine iff_of_false ?_ id
    simp only [loopPass, sysSemWaitPass]
    split_ifs <;> simp

theorem kkill_found {k : Kernel} {pid : Int} {i : Fin NPROC} (h : pidSlot k pid = some i)
    (sig : Fin 32) :
    (kkill k pid sig).2 = 0 ∧ (kkill k pid sig).1.proc i = (k.proc i).post sig := by
  simp [kkill, h]

/-- A signal never makes a blocked call return: after `kkill` has returned 0, the next pass returns
-1 exactly if it would have done so without the signal. -/
theorem kill_interrupts_iff {k : Kernel} {pid : Int} {i : Fin NPROC} {call : LoopCall}
    (hpid : pidSlot k pid = some i) (ha : AsleepIn call (k.proc i)) (sig : Fin 32)
    (events : List WhileAsleep) (w : World) :
    (kkill k pid sig).2 = 0 ∧
      (KillInterrupts k pid sig i call events w ↔ FailsAnyway w call) := by
  obtain ⟨w0, q, chan, before, hsleep, hq⟩ := ha
  obtain ⟨hret, hpost⟩ := kkill_found hpid sig
  refine ⟨hret, ?_⟩
  have hkilled : (events.foldl whileAsleep ((kkill k pid sig).1.proc i)).awake.killed =
      q.killed := by
    change (events.foldl whileAsleep _).killed = _
    rw [killed_foldl_whileAsleep, hpost]
    change (k.proc i).killed = _
    rw [hq, killed_foldl_whileAsleep]
    rfl
  rw [KillInterrupts, loopPass_congr hkilled, fails_iff hsleep]

def blockedKernel : Kernel where
  proc i :=
    if i = 1 then Proc.sleepOn { state := .running, pid := 2 } 7
    else if i = 2 then { state := .running, pid := 3, parent := some 1 }
    else {}

/-- An empty pipe, an empty console, a child that runs, the clock at 5 and no free unit. -/
def blockedWorld : World := { kernel := blockedKernel, ticks := 5 }

def fullPipeWorld : World := { blockedWorld with pipe := { nwrite := 512 } }

theorem asleepIn_blocked {call : LoopCall} {w : World}
    (h : loopPass call w { state := .running, pid := 2 } = .sleeps) :
    AsleepIn call (blockedKernel.proc 1) :=
  ⟨w, _, 7, [], h, rfl⟩

theorem kill_interrupts_closed_pipe :
    KillInterrupts blockedKernel 2 9 1 (.pipewrite 3 8) [.wakeup]
      { blockedWorld with pipe := { nwrite := 512, readopen := 0 } } :=
  (kill_interrupts_iff (by decide) (asleepIn_blocked (w := fullPipeWorld) (by decide)) 9 _
    _).2.mpr rfl

theorem killed_sleeps_again :
    (kkill blockedKernel 2 9).2 = 0 ∧ (blockedKernel.proc 1).signalHandlers 9 = 0 ∧
    (∀ call ∈ [LoopCall.piperead, .consoleread, .kwait 1 0, .sysPause 3 10, .sysSleep 3 10,
        .sysSemWait], AsleepIn call (blockedKernel.proc 1) ∧
      ¬ KillInterrupts blockedKernel 2 9 1 call [] blockedWorld ∧
      loopPass call blockedWorld ((kkill blockedKernel 2 9).1.proc 1).awake = .sleeps) ∧
    AsleepIn (.pipewrite 3 8) (blockedKernel.proc 1) ∧
    ¬ KillInterrupts blockedKernel 2 9 1 (.pipewrite 3 8) [] fullPipeWorld ∧
    loopPass (.pipewrite 3 8) fullPipeWorld ((kkill blockedKernel 2 9).1.proc 1).awake =
      .sleeps := by
  have hsleep : ∀ call ∈ [LoopCall.piperead, .consoleread, .kwait 1 0, .sysPause 3 10,
      .sysSleep 3 10, .sysSemWait],
      loopPass call blockedWorld { state := .running, pid := 2 } = .sleeps ∧
        loopPass call blockedWorld ((kkill blockedKernel 2 9).1.proc 1).awake = .sleeps := by
    decide +kernel
  have hwrite : loopPass (.pipewrite 3 8) fullPipeWorld
      ((kkill blockedKernel 2 9).1.proc 1).awake = .sleeps := by
    decide +kernel
  refine ⟨by decide, rfl, fun call hc => ?_, asleepIn_blocked (w := fullPipeWorld) (by decide),
    fun h => ?_, hwrite⟩
  · obtain ⟨hfirst, hagain⟩ := hsleep call hc
    refine ⟨asleepIn_blocked hfirst, fun h => ?_, hagain⟩
    exact absurd (hagain.symm.trans h) (by decide)
  · exact absurd (hwrite.symm.trans h) (by decide)

end OsProject
