import OsProject.Proc

/-! Traps from user space: `usertrap`, `syscall`, `deliver_signals` and the system calls that
touch the signal state or the mailbox of the calling process. -/

namespace OsProject

/-- The pass of `deliver_signals` over the signals that are left. -/
def deliverFrom : List (Fin 32) → Proc → Proc
  | [], p => p
  | sig :: sigs, p =>
    if p.pending sig then
      if p.signalHandlers sig ≠ 0 then
        { p.clearPending sig with
          signalTrapframe := p.trapframe
          inSignalHandler := 1
          trapframe := { p.trapframe with
            a0 := UInt64.ofNat sig.val
            epc := p.signalHandlers sig } }
      else deliverFrom sigs { p.clearPending sig with killed := 1 }
    else deliverFrom sigs p

def deliverSignals (p : Proc) : Proc :=
  if p.inSignalHandler ≠ 0 then p else deliverFrom (List.finRange 32) p

/-- The rest of the system during one trap: the cause, whether `vmfault` finds a page, what a
system call outside this model returns, the new image of a successful `kexec` (entry, stack
pointer and argument count), the `msg` buffer of `sys_send`, whether other slots hold mail, and
the signals that other processes post to this one before `deliver_signals` runs. -/
structure TrapEnv where
  scause : UInt64 := 8
  vmfaultOk : Bool := false
  ret : UInt64 := 0
  image : Option (UInt64 × UInt64 × UInt64) := none
  msg : List UInt8 := []
  mailElsewhere : Bool := false
  posted : List (Fin 32) := []
  satp : UInt64 := 0
  usertrapAddr : UInt64 := 0
  hartid : UInt64 := 0

/-- A system call ends in `kexit(status)` or comes back with the lines it printed. -/
inductive CallEnd
  | exit (status : Int)
  | done (p : Proc) (lines : List MailLine)

def minusOne : UInt64 := 0 - 1

def argint (x : UInt64) : Int := int32 (x.toNat % 2 ^ 32)

theorem argint_range (x : UInt64) : -2 ^ 31 ≤ argint x ∧ argint x < 2 ^ 31 := by
  have hlt := Nat.mod_lt x.toNat (show 2 ^ 32 > 0 by decide)
  rw [argint, int32]
  split_ifs <;> omega

def SYS_fork : Int := 1
def SYS_exit : Int := 2
def SYS_kill : Int := 6
def SYS_exec : Int := 7
def SYS_signal : Int := 23
def SYS_sigreturn : Int := 24
def SYS_send : Int := 32
def SYS_recv : Int := 33

/-- `signum` as an index, when it passes the range check of `sys_signal` and `sys_kill`. -/
def argsig (x : UInt64) : Option (Fin 32) :=
  if h : 0 ≤ argint x ∧ argint x < 32 then some ⟨(argint x).toNat, by omega⟩ else none

def sysSignal (p : Proc) : Proc × UInt64 :=
  match argsig p.trapframe.a0 with
  | none => (p, minusOne)
  | some sig =>
    ({ p with signalHandlers := Function.update p.signalHandlers sig p.trapframe.a1 }, 0)

def sysSigreturn (p : Proc) : Proc × UInt64 :=
  ({ p with trapframe := p.signalTrapframe, inSignalHandler := 0 }, 0)

/-- `sys_kill` as the caller sees it: only a signal to itself changes its own slot. -/
def sysKill (p : Proc) (env : TrapEnv) : Proc × UInt64 :=
  match argsig p.trapframe.a1 with
  | none => (p, minusOne)
  | some sig => if argint p.trapframe.a0 = p.pid then (p.post sig, 0) else (p, env.ret)

/-- `sys_send` as the caller sees it: only a message to itself changes its own slot. -/
def sysSendOwn (p : Proc) (env : TrapEnv) : Proc × UInt64 :=
  if argint p.trapframe.a0 = p.pid then (p.putMail env.msg, 0) else (p, env.ret)

/-- `sys_recv` as far as it concerns the caller's own slot. -/
def sysRecvOwn (p : Proc) (env : TrapEnv) : Proc × UInt64 × List MailLine :=
  (p.takeMail.1,
    if p.takeMail.2.isEmpty ∧ ¬ env.mailElsewhere then minusOne else 0,
    p.takeMail.2)

def execImage (p : Proc) (env : TrapEnv) : Proc × UInt64 :=
  match env.image with
  | none => (p, minusOne)
  | some (entry, sp, argc) =>
    ({ p with trapframe := { p.trapframe with epc := entry, sp := sp, a1 := sp } }, argc)

/-- The dispatch on `a7`. The return value is stored in `a0` of the trapframe as it is after
the call. -/
def syscall (p : Proc) (env : TrapEnv) : CallEnd :=
  let num := argint p.trapframe.a7
  if num = SYS_exit then .exit (argint p.trapframe.a0)
  else if num = SYS_signal then .done ((sysSignal p).1.setA0 (sysSignal p).2) []
  else if num = SYS_sigreturn then .done ((sysSigreturn p).1.setA0 (sysSigreturn p).2) []
  else if num = SYS_kill then .done ((sysKill p env).1.setA0 (sysKill p env).2) []
  else if num = SYS_send then .done ((sysSendOwn p env).1.setA0 (sysSendOwn p env).2) []
  else if num = SYS_recv then
    .done ((sysRecvOwn p env).1.setA0 (sysRecvOwn p env).2.1) (sysRecvOwn p env).2.2
  else if num = SYS_exec then .done ((execImage p env).1.setA0 (execImage p env).2) []
  else if 0 < num ∧ num ≤ SYS_recv then .done (p.setA0 env.ret) []
  else .done (p.setA0 minusOne) []

def devintr (scause : UInt64) : Nat :=
  if scause = 0x8000000000000009 then 1
  else if scause = 0x8000000000000005 then 2
  else 0

/-- `uservec` saves the user registers, and `usertrap` the program counter. -/
def Proc.saveUser (p : Proc) (user : UserFrame) : Proc :=
  { p with trapframe := { p.trapframe with toUserFrame := user } }

/-- `usertrap` up to the check of `killed` that all its branches share. -/
def serveTrap (p : Proc) (user : UserFrame) (env : TrapEnv) : CallEnd :=
  if env.scause = 8 then
    if p.killed ≠ 0 then .exit (-1)
    else syscall (p.saveUser { user with epc := user.epc + 4 }) env
  else if devintr env.scause ≠ 0 then .done (p.saveUser user) []
  else if (env.scause = 15 ∨ env.scause = 13) ∧ env.vmfaultOk then .done (p.saveUser user) []
  else .done { p.saveUser user with killed := 1 } []

def prepareReturn (p : Proc) (env : TrapEnv) : Proc :=
  { p with trapframe := { p.trapframe with
      kernelSatp := env.satp
      kernelSp := p.kstack + PGSIZE
      kernelTrap := env.usertrapAddr
      kernelHartid := env.hartid } }

inductive TrapEnd
  | exit (status : Int)
  | resume (p : Proc) (lines : List MailLine)

def usertrap (p : Proc) (user : UserFrame) (env : TrapEnv) : TrapEnd :=
  match serveTrap p user env with
  | .exit status => .exit status
  | .done p lines =>
    if p.killed ≠ 0 then .exit (-1)
    else .resume (prepareReturn (deliverSignals (env.posted.foldl Proc.post p)) env) lines

end OsProject
