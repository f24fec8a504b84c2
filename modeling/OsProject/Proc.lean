import OsProject.ByteField

/-! The process structure of `proc.h` and the trapframe page. -/

namespace OsProject

def NPROC : Nat := 64
def NOFILE : Nat := 16
def NFILE : Nat := 100
def NINODE : Nat := 50
def PGSIZE : UInt64 := 4096

instance : NeZero NPROC := ⟨by decide⟩
instance : NeZero NFILE := ⟨by decide⟩
instance : NeZero NINODE := ⟨by decide⟩

/-- What user code can see of a trapframe: the program counter and the 31 registers. -/
structure UserFrame where
  epc : UInt64 := 0
  ra : UInt64 := 0
  sp : UInt64 := 0
  gp : UInt64 := 0
  tp : UInt64 := 0
  t0 : UInt64 := 0
  t1 : UInt64 := 0
  t2 : UInt64 := 0
  s0 : UInt64 := 0
  s1 : UInt64 := 0
  a0 : UInt64 := 0
  a1 : UInt64 := 0
  a2 : UInt64 := 0
  a3 : UInt64 := 0
  a4 : UInt64 := 0
  a5 : UInt64 := 0
  a6 : UInt64 := 0
  a7 : UInt64 := 0
  s2 : UInt64 := 0
  s3 : UInt64 := 0
  s4 : UInt64 := 0
  s5 : UInt64 := 0
  s6 : UInt64 := 0
  s7 : UInt64 := 0
  s8 : UInt64 := 0
  s9 : UInt64 := 0
  s10 : UInt64 := 0
  s11 : UInt64 := 0
  t3 : UInt64 := 0
  t4 : UInt64 := 0
  t5 : UInt64 := 0
  t6 : UInt64 := 0
  deriving DecidableEq, Repr

structure Trapframe extends UserFrame where
  kernelSatp : UInt64 := 0
  kernelSp : UInt64 := 0
  kernelTrap : UInt64 := 0
  kernelHartid : UInt64 := 0
  deriving DecidableEq, Repr

inductive ProcState
  | unused | used | sleeping | runnable | running | zombie
  deriving DecidableEq, Repr

/-- `trapframe` is the page that `p->trapframe` points to. Strings are the bytes before the
terminating NUL, and a null pointer is `none`, or 0 for `chan`. -/
structure Proc where
  state : ProcState := .unused
  chan : Nat := 0
  killed : Int := 0
  xstate : Int := 0
  pid : Int := 0
  parent : Option (Fin NPROC) := none
  kstack : UInt64 := 0
  sz : UInt64 := 0
  trapframe : Trapframe := {}
  ofile : Fin NOFILE → Option (Fin NFILE) := fun _ => none
  cwd : Option (Fin NINODE) := none
  name : List UInt8 := []
  signalHandlers : Fin 32 → UInt64 := fun _ => 0
  pendingSignals : BitVec 32 := 0
  signalTrapframe : Trapframe := {}
  inSignalHandler : Int := 0
  message : List UInt8 := []
  hasMessage : Int := 0

/-- The string that `safestrcpy(s, t, n)` leaves in `s`. -/
def safestrcpy (t : List UInt8) (n : Nat) : List UInt8 :=
  (t.take (n - 1)).takeWhile (· ≠ 0)

def Proc.pending (p : Proc) (sig : Fin 32) : Bool := p.pendingSignals.getLsbD sig

def Proc.setA0 (p : Proc) (v : UInt64) : Proc :=
  { p with trapframe := { p.trapframe with a0 := v } }

def Proc.clearPending (p : Proc) (sig : Fin 32) : Proc :=
  { p with pendingSignals := p.pendingSignals &&& ~~~(1#32 <<< sig.val) }

/-- The line `sys_recv` prints for one mailbox: the pid and the text. -/
abbrev MailLine := Int × List UInt8

/-- What `sys_send` does to the process it has found. -/
def Proc.putMail (p : Proc) (msg : List UInt8) : Proc :=
  { p with message := safestrcpy msg 64, hasMessage := 1 }

/-- What `sys_recv` does to each slot it passes, and the line it prints there. -/
def Proc.takeMail (p : Proc) : Proc × List MailLine :=
  if p.hasMessage ≠ 0 then ({ p with hasMessage := 0 }, [(p.pid, p.message)]) else (p, [])

/-- What `kkill` does to the process it has found. -/
def Proc.post (p : Proc) (sig : Fin 32) : Proc :=
  { p with
    pendingSignals := p.pendingSignals ||| (1#32 <<< sig.val)
    state := if p.state = .sleeping then .runnable else p.state }

theorem getLsbD_one_shiftLeft (sig s : Fin 32) :
    (1#32 <<< sig.val).getLsbD s.val = decide (s = sig) := by
  simp only [BitVec.getLsbD_shiftLeft, BitVec.getLsbD_one]
  by_cases h : s = sig
  · subst h
    simp
  · have hv : s.val ≠ sig.val := fun he => h (Fin.ext he)
    rcases Nat.lt_or_gt_of_ne hv with hlt | hgt
    · simp [hlt, h]
    · have hz : ¬ s.val - sig.val = 0 := by omega
      simp [h, hz]

@[simp] theorem Proc.pending_clearPending (p : Proc) (sig s : Fin 32) :
    (p.clearPending sig).pending s = (p.pending s && decide (s ≠ sig)) := by
  simp only [pending, clearPending, BitVec.getLsbD_and, BitVec.getLsbD_not, getLsbD_one_shiftLeft]
  simp

@[simp] theorem Proc.pending_post (p : Proc) (sig s : Fin 32) :
    (p.post sig).pending s = (p.pending s || decide (s = sig)) := by
  simp only [pending, post, BitVec.getLsbD_or, getLsbD_one_shiftLeft]

end OsProject
