import OsProject.Runs
import OsProject.Spinlock

/-! User locks and the scheduler. The path of a process through the kernel is the list of what it
does to the `push_off` nesting of its CPU. `sched` wants a nesting of 1, but a process that returns
from `lock_acquire` leaves the nesting of the user lock behind. -/

namespace OsProject

/-- `push` and `pop` are `acquire` and `release` of a kernel lock, or the two halves of `myproc`.
`exit` is the `sched` at the end of `kexit`. The process loops in `acquire` at `lockSpin`. -/
inductive KernelOp
  | push | pop | intrOn | intrOff | sched | exit
  | lockCreate
  | lockAcquire (x : UInt64)
  | lockSpin (l : Fin MAX_LOCKS)
  | lockRelease (x : UInt64)
  deriving DecidableEq

/-- From nesting `n` the path ends with nesting 0, each `sched` on it has nesting 1, and no lock is
taken for good. -/
def Closes : Int → List KernelOp → Prop
  | n, [] => n = 0
  | n, .push :: ops => Closes (n + 1) ops
  | n, .pop :: ops => 1 ≤ n ∧ Closes (n - 1) ops
  | n, .intrOn :: ops => n = 0 ∧ Closes n ops
  | n, .sched :: ops => n = 1 ∧ Closes n ops
  | n, .exit :: _ => n = 1
  | _, .lockSpin _ :: _ => False
  | n, .intrOff :: ops | n, .lockCreate :: ops | n, .lockAcquire _ :: ops
  | n, .lockRelease _ :: ops => Closes n ops

instance decidableCloses : ∀ n ops, Decidable (Closes n ops)
  | n, [] => inferInstanceAs (Decidable (n = 0))
  | n, .push :: ops => decidableCloses (n + 1) ops
  | n, .pop :: ops =>
    have := decidableCloses (n - 1) ops
    inferInstanceAs (Decidable (1 ≤ n ∧ Closes (n - 1) ops))
  | n, .intrOn :: ops =>
    have := decidableCloses n ops
    inferInstanceAs (Decidable (n = 0 ∧ Closes n ops))
  | n, .sched :: ops =>
    have := decidableCloses n ops
    inferInstanceAs (Decidable (n = 1 ∧ Closes n ops))
  | n, .exit :: _ => inferInstanceAs (Decidable (n = 1))
  | _, .lockSpin _ :: _ => inferInstanceAs (Decidable False)
  | n, .intrOff :: ops => decidableCloses n ops
  | n, .lockCreate :: ops => decidableCloses n ops
  | n, .lockAcquire _ :: ops => decidableCloses n ops
  | n, .lockRelease _ :: ops => decidableCloses n ops

theorem Closes.append {n : Int} {a b : List KernelOp} (ha : Closes n a) (hb : Closes 0 b) :
    Closes n (a ++ b) := by
  induction a generalizing n with
  | nil =>
    rw [show n = 0 from ha]
    exact hb
  | cons op a ih =>
    cases op with
    | push | intrOff | lockCreate | lockAcquire | lockRelease => exact ih ha
    | pop | intrOn | sched => exact ⟨ha.1, ih ha.2⟩
    | exit => exact ha
    | lockSpin => exact ha.elim

/-- The code of a system call or a device interrupt, with its locks and sleeps matched. -/
structure KernelPath where
  ops : List KernelOp
  closes : Closes 0 ops

def myprocOps : List KernelOp := [.push, .pop]

/-- `killed` holds `p->lock`. -/
def killedOps : List KernelOp := [.push, .pop]

def yieldOps : List KernelOp := myprocOps ++ [.push, .sched, .pop]

/-- `sleep(chan, lk)`, called with `lk` held. -/
def sleepOps : List KernelOp := myprocOps ++ [.push, .pop, .sched, .pop, .push]

def prepareReturnOps : List KernelOp := myprocOps ++ [.intrOff]

/-- A lock call or any other system call, or an interrupt, by the clock if `timer`. -/
inductive UserTrap
  | lockCreate
  | lockAcquire (x : UInt64)
  | lockRelease (x : UInt64)
  | syscall (path : KernelPath)
  | interrupt (timer : Bool) (path : KernelPath)

/-- `usertrap` for a system call with this body. `deliver_signals` calls `myproc`. -/
def syscallOps (body : List KernelOp) : List KernelOp :=
  myprocOps ++ (killedOps ++ ([.intrOn] ++ (myprocOps ++ (body ++ (killedOps ++
    (myprocOps ++ prepareReturnOps))))))

def UserTrap.ops : UserTrap → List KernelOp
  | .lockCreate => syscallOps [.lockCreate]
  | .lockAcquire x => syscallOps (myprocOps ++ [.lockAcquire x])
  | .lockRelease x => syscallOps (myprocOps ++ [.lockRelease x])
  | .syscall path => syscallOps path.ops
  | .interrupt timer path =>
    myprocOps ++ (path.ops ++ (killedOps ++ ((if timer then yieldOps else []) ++
      (myprocOps ++ prepareReturnOps))))

/-- `kerneltrap`, which puts `sstatus` back at its end. -/
def kerneltrapOps (timer : Bool) (path : KernelPath) : List KernelOp :=
  path.ops ++ ((if timer then myprocOps ++ yieldOps else []) ++ [.intrOn])

/-- A new process starts in `forkret` with its own lock held by the scheduler. The path is the
work of the very first process. -/
def forkretOps (path : KernelPath) : List KernelOp :=
  myprocOps ++ (.pop :: (path.ops ++ prepareReturnOps))

/-- A process that has given up the CPU, with the `intena` that `sched` has saved. -/
structure Parked where
  ops : List KernelOp
  intena : Option Bool

/-- `job c` is the process that runs on CPU `c` and the rest of its path, empty in user mode. A CPU
without one is in the scheduler. -/
structure SchedSys where
  cpu : Fin NCPU → Cpu := fun _ => {}
  job : Fin NCPU → Option (Fin NPROC × List KernelOp) := fun _ => none
  parked : Fin NPROC → Option Parked := fun _ => none
  table : LockTable := {}
  panic : Option LockPanic := none

/-- Kernel locks other than the user locks only delay a process, so they need no steps. -/
inductive SchedEvent
  | run (c : Fin NCPU)
  | trap (c : Fin NCPU) (t : UserTrap)
  | kerneltrap (c : Fin NCPU) (timer : Bool) (path : KernelPath)
  | dispatch (c : Fin NCPU) (p : Fin NPROC)
  | spawn (p : Fin NPROC)

def SchedSys.goOn (s : SchedSys) (c : Fin NCPU) (p : Fin NPROC) (cpu : Cpu)
    (ops : List KernelOp) : SchedSys :=
  { s with cpu := Function.update s.cpu c cpu, job := Function.update s.job c (some (p, ops)) }

def SchedSys.panics (s : SchedSys) (e : LockPanic) : SchedSys := { s with panic := some e }

/-- `sched` and the release of `p->lock` by the scheduler. -/
def SchedSys.giveUp (s : SchedSys) (c : Fin NCPU) (parked : Fin NPROC → Option Parked) :
    SchedSys :=
  if (s.cpu c).noff ≠ 1 then s.panics .schedLocks
  else if (s.cpu c).intr then s.panics .schedInterruptible
  else
    match popOff (s.cpu c) with
    | .error e => s.panics e
    | .ok cpu =>
      { s with
        cpu := Function.update s.cpu c cpu
        job := Function.update s.job c none
        parked := parked }

def SchedSys.exec (s : SchedSys) (c : Fin NCPU) (p : Fin NPROC) (ops : List KernelOp) :
    KernelOp → SchedSys
  | .push => s.goOn c p (pushOff (s.cpu c)) ops
  | .pop =>
    match popOff (s.cpu c) with
    | .error e => s.panics e
    | .ok cpu => s.goOn c p cpu ops
  | .intrOn => s.goOn c p { s.cpu c with intr := true } ops
  | .intrOff => s.goOn c p { s.cpu c with intr := false } ops
  | .sched => s.giveUp c (Function.update s.parked p (some ⟨ops, some (s.cpu c).intena⟩))
  | .exit => s.giveUp c s.parked
  | .lockCreate => { s.goOn c p (s.cpu c) ops with table := (sysLockCreate s.table).1 }
  | .lockAcquire x =>
    match s.table.find (argint x) with
    | none => s.goOn c p (s.cpu c) ops
    | some l =>
      match acquireStart (s.table.lock l) c (s.cpu c) with
      | .error e => s.panics e
      | .ok cpu => s.goOn c p cpu (.lockSpin l :: ops)
  | .lockSpin l =>
    match testAndSet (s.table.lock l) c with
    | none => s
    | some lk => { s.goOn c p (s.cpu c) ops with table := s.table.set l lk }
  | .lockRelease x =>
    match s.table.find (argint x) with
    | none => s.goOn c p (s.cpu c) ops
    | some l =>
      match release (s.table.lock l) c (s.cpu c) with
      | .error e => s.panics e
      | .ok (lk, cpu) => { s.goOn c p cpu ops with table := s.table.set l lk }

/-- An event that is not possible in `s` changes nothing. A trap turns the interrupts off. -/
def schedStep (s : SchedSys) (e : SchedEvent) : SchedSys :=
  if s.panic ≠ none then s
  else
    match e with
    | .run c =>
      match s.job c with
      | some (p, op :: ops) => s.exec c p ops op
      | _ => s
    | .trap c t =>
      match s.job c with
      | some (p, []) => s.goOn c p { s.cpu c with intr := false } t.ops
      | _ => s
    | .kerneltrap c timer path =>
      match s.job c with
      | some (p, op :: ops) =>
        if (s.cpu c).intr then
          s.goOn c p { s.cpu c with intr := false } (kerneltrapOps timer path ++ op :: ops)
        else s
      | _ => s
    | .dispatch c p =>
      match s.job c, s.parked p with
      | none, some ctx =>
        let cpu := pushOff { s.cpu c with intr := false }
        { s.goOn c p { cpu with intena := ctx.intena.getD cpu.intena } ctx.ops with
          parked := Function.update s.parked p none }
      | _, _ => s
    | .spawn p =>
      if s.parked p = none ∧ ∀ c, (s.job c).map Prod.fst ≠ some p then
        { s with parked := Function.update s.parked p (some ⟨forkretOps ⟨[], rfl⟩, none⟩) }
      else s

/-- Nesting 0 in user mode, nesting 1 on entry to `sched`, and no `panic("sched locks")`. -/
structure SchedSound (s : SchedSys) : Prop where
  user : ∀ c p, s.job c = some (p, []) → (s.cpu c).noff = 0
  sched : ∀ c p op ops, s.job c = some (p, op :: ops) → op = .sched ∨ op = .exit →
    (s.cpu c).noff = 1
  panic : s.panic ≠ some .schedLocks

/-- The step is a call `lock_acquire(id)` with the id of a created lock. -/
def takesLock (s : SchedSys) : SchedEvent → Bool
  | .run c =>
    match s.job c with
    | some (_, .lockAcquire x :: _) => (s.table.find (argint x)).isSome
    | _ => false
  | _ => false

structure SchedInv (s : SchedSys) : Prop where
  idle : ∀ c, s.job c = none → (s.cpu c).noff = 0
  runs : ∀ c p ops, s.job c = some (p, ops) → Closes (s.cpu c).noff ops
  intr : ∀ c, (s.cpu c).intr = true → (s.cpu c).noff = 0
  parked : ∀ p ctx, s.parked p = some ctx → Closes 1 ctx.ops
  free : ∀ l, (s.table.lock l).locked = false
  panic : s.panic ≠ some .schedLocks

theorem SchedInv.sound {s : SchedSys} (h : SchedInv s) : SchedSound s where
  user c p hj := h.runs c p [] hj
  sched c p op ops hj hop := by
    have hc := h.runs c p _ hj
    rcases hop with rfl | rfl
    · exact hc.1
    · exact hc
  panic := h.panic

theorem SchedInv.goOn {s : SchedSys} (h : SchedInv s) (c : Fin NCPU) (p : Fin NPROC) {cpu : Cpu}
    {ops : List KernelOp} (hops : Closes cpu.noff ops) (hi : cpu.intr = true → cpu.noff = 0) :
    SchedInv (s.goOn c p cpu ops) := by
  refine ⟨fun d hd => ?_, fun d q rest hd => ?_, fun d hd => ?_, h.parked, h.free, h.panic⟩
  · by_cases hdc : d = c
    · simp [SchedSys.goOn, hdc] at hd
    · simp only [SchedSys.goOn, Function.update_of_ne hdc] at hd ⊢
      exact h.idle d hd
  · by_cases hdc : d = c
    · subst hdc
      simp only [SchedSys.goOn, Function.update_self, Option.some.injEq, Prod.mk.injEq] at hd ⊢
      exact hd.2 ▸ hops
    · simp only [SchedSys.goOn, Function.update_of_ne hdc] at hd ⊢
      exact h.runs d q rest hd
  · by_cases hdc : d = c
    · subst hdc
      simp only [SchedSys.goOn, Function.update_self] at hd ⊢
      exact hi hd
    · simp only [SchedSys.goOn, Function.update_of_ne hdc] at hd ⊢
      exact h.intr d hd

theorem SchedInv.panics {s : SchedSys} (h : SchedInv s) {e : LockPanic} (he : e ≠ .schedLocks) :
    SchedInv (s.panics e) :=
  ⟨h.idle, h.runs, h.intr, h.parked, h.free, fun hp => he (Option.some.inj hp)⟩

theorem SchedInv.withTable {s : SchedSys} (h : SchedInv s) {t : LockTable}
    (ht : ∀ l, (t.lock l).locked = false) : SchedInv { s with table := t } :=
  ⟨h.idle, h.runs, h.intr, h.parked, ht, h.panic⟩

theorem SchedInv.withParked {s : SchedSys} (h : SchedInv s) {parked : Fin NPROC → Option Parked}
    (hp : ∀ p ctx, parked p = some ctx → Closes 1 ctx.ops) : SchedInv { s with parked := parked } :=
  ⟨h.idle, h.runs, h.intr, hp, h.free, h.panic⟩

theorem SchedInv.giveUp {s : SchedSys} (h : SchedInv s) {c : Fin NCPU}
    (hn : (s.cpu c).noff = 1) {parked : Fin NPROC → Option Parked}
    (hp : ∀ p ctx, parked p = some ctx → Closes 1 ctx.ops) : SchedInv (s.giveUp c parked) := by
  have hi : (s.cpu c).intr = false := by
    by_contra ht
    have hz := h.intr c (Bool.eq_true_of_not_eq_false ht)
    omega
  simp only [SchedSys.giveUp, hn, hi, ne_eq, not_true_eq_false, if_false, Bool.false_eq_true,
    popOff_eq hi (le_of_eq hn.symm)]
  refine ⟨fun d hd => ?_, fun d q rest hd => ?_, fun d hd => ?_, hp, h.free, h.panic⟩
  · by_cases hdc : d = c
    · simp [hdc]
    · simp only [Function.update_of_ne hdc] at hd ⊢
      exact h.idle d hd
  · by_cases hdc : d = c
    · simp [hdc] at hd
    · simp only [Function.update_of_ne hdc] at hd ⊢
      exact h.runs d q rest hd
  · by_cases hdc : d = c
    · simp [hdc]
    · simp only [Function.update_of_ne hdc] at hd ⊢
      exact h.intr d hd

theorem parked_update {s : SchedSys} (h : SchedInv s) {p : Fin NPROC} {x : Option Parked}
    (hx : ∀ ctx, x = some ctx → Closes 1 ctx.ops) :
    ∀ q ctx, Function.update s.parked p x q = some ctx → Closes 1 ctx.ops := by
  intro q ctx hq
  by_cases hqp : q = p
  · rw [hqp, Function.update_self] at hq
    exact hx ctx hq
  · rw [Function.update_of_ne hqp] at hq
    exact h.parked q ctx hq

theorem sysLockCreate_free {t : LockTable} (h : ∀ l, (t.lock l).locked = false)
    (l : Fin MAX_LOCKS) : (((sysLockCreate t).1).lock l).locked = false := by
  cases hf : (List.finRange MAX_LOCKS).find? fun l => t.used l = false with
  | none => simpa only [sysLockCreate, hf] using h l
  | some m =>
    simp only [sysLockCreate, hf, LockTable.set]
    by_cases hl : l = m
    · rw [hl, Function.update_self]
    · rw [Function.update_of_ne hl]
      exact h l

theorem SchedInv.exec {s : SchedSys} (h : SchedInv s) {c : Fin NCPU} {p : Fin NPROC}
    {op : KernelOp} {ops : List KernelOp} (hc : Closes (s.cpu c).noff (op :: ops))
    (hl : ∀ x, op = .lockAcquire x → s.table.find (argint x) = none) :
    SchedInv (s.exec c p ops op) := by
  have hintr := h.intr c
  cases op with
  | push =>
    refine h.goOn c p hc ?_
    simp [pushOff]
  | pop =>
    have hi : (s.cpu c).intr = false := by
      by_contra ht
      have hz := hintr (Bool.eq_true_of_not_eq_false ht)
      have := hc.1
      omega
    simp only [SchedSys.exec, popOff_eq hi hc.1]
    refine h.goOn c p hc.2 ?_
    simp only [Bool.and_eq_true, decide_eq_true_eq]
    exact And.left
  | intrOn => exact h.goOn c p hc.2 fun _ => hc.1
  | intrOff => exact h.goOn c p hc (by simp)
  | sched =>
    refine h.giveUp hc.1 (parked_update h fun ctx hctx => ?_)
    rw [← Option.some.inj hctx]
    exact hc.1 ▸ hc.2
  | exit => exact h.giveUp hc h.parked
  | lockCreate =>
    have hgo : SchedInv (s.goOn c p (s.cpu c) ops) := h.goOn c p hc hintr
    exact hgo.withTable (sysLockCreate_free h.free)
  | lockAcquire x =>
    simp only [SchedSys.exec, hl x rfl]
    exact h.goOn c p hc hintr
  | lockSpin l => exact hc.elim
  | lockRelease x =>
    cases hf : s.table.find (argint x) with
    | none =>
      simp only [SchedSys.exec, hf]
      exact h.goOn c p hc hintr
    | some l =>
      -- No user lock is ever held, so this is `panic("release")`.
      simp only [SchedSys.exec, hf, release, holding, h.free l, Bool.false_and,
        Bool.false_eq_true, if_false]
      exact h.panics (by decide)

theorem syscallOps_closes {body : List KernelOp} (h : Closes 0 body) :
    Closes 0 (syscallOps body) := by
  have hend : Closes 0 (killedOps ++ (myprocOps ++ prepareReturnOps)) := by decide
  have hstart : Closes 0 (myprocOps ++ (body ++ (killedOps ++ (myprocOps ++ prepareReturnOps)))) :=
    Closes.append (by decide) (h.append hend)
  exact Closes.append (by decide) (Closes.append (by decide) (Closes.append (by decide) hstart))

theorem UserTrap.closes (t : UserTrap) : Closes 0 t.ops := by
  cases t with
  | lockCreate => exact syscallOps_closes rfl
  | lockAcquire x | lockRelease x => exact syscallOps_closes (Closes.append (by decide) rfl)
  | syscall path => exact syscallOps_closes path.closes
  | interrupt timer path =>
    have hend : Closes 0 (killedOps ++ ((if timer then yieldOps else []) ++
        (myprocOps ++ prepareReturnOps))) := by
      cases timer <;> decide
    exact Closes.append (by decide) (path.closes.append hend)

theorem kerneltrapOps_closes (timer : Bool) (path : KernelPath) :
    Closes 0 (kerneltrapOps timer path) := by
  have hend : Closes 0 ((if timer then myprocOps ++ yieldOps else []) ++ [.intrOn]) := by
    cases timer <;> decide
  exact path.closes.append hend

theorem forkretOps_closes (path : KernelPath) : Closes 1 (forkretOps path) := by
  have hend : Closes 0 prepareReturnOps := by decide
  exact ⟨by decide, by decide, path.closes.append hend⟩

theorem schedInv_step (s : SchedSys) (e : SchedEvent) (h : SchedInv s)
    (hl : takesLock s e = false) : SchedInv (schedStep s e) := by
  by_cases hp : s.panic = none
  · rw [schedStep.eq_def, if_neg (not_not.mpr hp)]
    cases e with
    | run c =>
      simp only
      split
      · next p op ops hj =>
        refine h.exec (h.runs c p _ hj) fun x hx => ?_
        simp only [takesLock, hj, hx, Option.isSome_eq_false_iff, Option.isNone_iff_eq_none] at hl
        exact hl
      · exact h
    | trap c t =>
      simp only
      split
      · next p hj =>
        refine h.goOn c p ?_ (by simp)
        have hz : (s.cpu c).noff = 0 := h.runs c p [] hj
        simpa only [hz] using t.closes
      · exact h
    | kerneltrap c timer path =>
      simp only
      split
      · next p op ops hj =>
        split_ifs with hi
        · have hz := h.intr c hi
          have hrest := h.runs c p _ hj
          rw [hz] at hrest
          refine h.goOn c p ?_ (by simp)
          simpa only [hz] using (kerneltrapOps_closes timer path).append hrest
        · exact h
      · exact h
    | dispatch c p =>
      simp only
      split
      · next ctx hj hpk =>
        refine SchedInv.withParked (h.goOn c p ?_ (by simp [pushOff]))
          (parked_update h (by simp))
        have hz := h.idle c hj
        simpa only [pushOff, hz, zero_add] using h.parked p ctx hpk
      · exact h
    | spawn p =>
      simp only
      split_ifs
      · refine h.withParked (parked_update h fun ctx hctx => ?_)
        rw [← Option.some.inj hctx]
        exact forkretOps_closes _
      · exact h
  · simpa only [schedStep, ne_eq, hp, not_false_eq_true, if_true] using h

/-- All CPUs are in the scheduler and the first process is about to start. -/
def schedBoot (init : KernelPath) : SchedSys where
  parked p := if p = 0 then some ⟨forkretOps init, none⟩ else none

theorem schedInv_boot (init : KernelPath) : SchedInv (schedBoot init) := by
  refine ⟨fun _ _ => rfl, by simp [schedBoot], by simp [schedBoot], fun p ctx hp => ?_,
    fun _ => rfl, by simp [schedBoot]⟩
  simp only [schedBoot, Option.ite_none_right_eq_some, Option.some.injEq] at hp
  rw [← hp.2]
  exact forkretOps_closes init

/-- As long as no created lock is acquired, processes return to user mode with nesting 0 and enter
`sched` with nesting 1. -/
theorem sched_sound (init : KernelPath) {es : List SchedEvent}
    (h : Meets schedStep (fun s e => takesLock s e = false) (schedBoot init) es) :
    Always schedStep SchedSound (schedBoot init) es :=
  always_of_meets schedInv_step (fun _ hi => hi.sound) (schedInv_boot init) h

def runs (c : Fin NCPU) (n : Nat) : List SchedEvent := List.replicate n (.run c)

def sleepPath : KernelPath := ⟨.push :: (sleepOps ++ [.pop]), by decide⟩

theorem sched_sound_sleep : Always schedStep SchedSound (schedBoot ⟨[], rfl⟩)
    (.dispatch 0 0 :: runs 0 6 ++ .trap 0 .lockCreate :: runs 0 20 ++
      .trap 0 (.syscall sleepPath) :: runs 0 16 ++ .dispatch 1 0 :: runs 1 20 ++
      .trap 1 (.interrupt true ⟨[], rfl⟩) :: runs 1 20) :=
  sched_sound _ (by decide +kernel)

theorem lock_acquire_breaks_sched :
    ¬ Always schedStep SchedSound (schedBoot ⟨[], rfl⟩)
      (.dispatch 0 0 :: runs 0 6 ++ .trap 0 .lockCreate :: runs 0 20 ++
        .trap 0 (.lockAcquire 0) :: runs 0 20) ∧
    ((.dispatch 0 0 :: runs 0 6 ++ .trap 0 .lockCreate :: runs 0 20 ++
        .trap 0 (.lockAcquire 0) :: runs 0 20 ++
        SchedEvent.trap 0 (.interrupt true ⟨[], rfl⟩) :: runs 0 20).foldl schedStep
      (schedBoot ⟨[], rfl⟩)).panic = some .schedLocks := by
  refine ⟨fun h => ?_, by decide +kernel⟩
  have hnoff := h.last.user 0 0 (by decide +kernel)
  revert hnoff
  decide +kernel

end OsProject
