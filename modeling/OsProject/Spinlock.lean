import OsProject.Signal

/-! Spinlocks and the nesting of `push_off` on each CPU, and the table of locks that user programs
can create. -/

namespace OsProject

def NCPU : Nat := 8
def MAX_LOCKS : Nat := 10

instance : NeZero NCPU := ⟨by decide⟩

/-- `intr` is the interrupt enable bit of the hart. -/
structure Cpu where
  noff : Int := 0
  intena : Bool := false
  intr : Bool := false
  deriving DecidableEq

structure Spinlock where
  locked : Bool := false
  cpu : Option (Fin NCPU) := none
  deriving DecidableEq

inductive LockPanic
  | acquire | release | popOff | popOffInterruptible | schedLocks | schedInterruptible
  deriving DecidableEq

def pushOff (c : Cpu) : Cpu :=
  { intr := false
    intena := if c.noff = 0 then c.intr else c.intena
    noff := c.noff + 1 }

def popOff (c : Cpu) : Except LockPanic Cpu :=
  if c.intr then .error .popOffInterruptible
  else if c.noff < 1 then .error .popOff
  else .ok { c with noff := c.noff - 1, intr := decide (c.noff - 1 = 0) && c.intena }

def holding (lk : Spinlock) (me : Fin NCPU) : Bool := lk.locked && lk.cpu == some me

/-- `acquire` up to its loop. -/
def acquireStart (lk : Spinlock) (me : Fin NCPU) (c : Cpu) : Except LockPanic Cpu :=
  if holding lk me then .error .acquire else .ok (pushOff c)

/-- One turn of the loop of `acquire`. -/
def testAndSet (lk : Spinlock) (me : Fin NCPU) : Option Spinlock :=
  if lk.locked then none else some { locked := true, cpu := some me }

def release (lk : Spinlock) (me : Fin NCPU) (c : Cpu) : Except LockPanic (Spinlock × Cpu) :=
  if holding lk me then (popOff c).map fun c => ({}, c) else .error .release

/-- `userlocks` and `lock_used`. -/
structure LockTable where
  lock : Fin MAX_LOCKS → Spinlock := fun _ => {}
  used : Fin MAX_LOCKS → Bool := fun _ => false

/-- The lock with this id, if it passes the check of `sys_lock_acquire` and `sys_lock_release`. -/
def LockTable.find (t : LockTable) (id : Int) : Option (Fin MAX_LOCKS) :=
  if h : 0 ≤ id ∧ id < MAX_LOCKS then
    if t.used ⟨id.toNat, by omega⟩ then some ⟨id.toNat, by omega⟩ else none
  else none

def LockTable.set (t : LockTable) (l : Fin MAX_LOCKS) (lk : Spinlock) : LockTable :=
  { t with lock := Function.update t.lock l lk }

def sysLockCreate (t : LockTable) : LockTable × Int :=
  match (List.finRange MAX_LOCKS).find? fun l => t.used l = false with
  | some l => ({ t.set l {} with used := Function.update t.used l true }, l.val)
  | none => (t, -1)

/-- `intr_on` in `usertrap` and the call of `myproc` in `syscall`. -/
def enterSyscall (c : Cpu) : Except LockPanic Cpu := popOff (pushOff { c with intr := true })

theorem popOff_eq {c : Cpu} (hi : c.intr = false) (hn : 1 ≤ c.noff) :
    popOff c = .ok { c with noff := c.noff - 1, intr := decide (c.noff - 1 = 0) && c.intena } := by
  rw [popOff, hi, if_neg Bool.false_ne_true, if_neg (not_lt.mpr hn)]

theorem enterSyscall_spec {c : Cpu} (h : 0 ≤ c.noff) :
    ∃ c', enterSyscall c = .ok c' ∧ c'.noff = c.noff ∧ (1 ≤ c.noff → c'.intr = false) := by
  refine ⟨_, popOff_eq rfl (by simpa [pushOff] using h), by simp [pushOff], fun hn => ?_⟩
  have hz : ¬ c.noff = 0 := by omega
  simp [pushOff, hz]

end OsProject
