import OsProject.Counting
import OsProject.Runs
import OsProject.Spinlock

/-! The calls `lock_create`, `lock_acquire` and `lock_release`. They check the id and `lock_used`,
but the panics of `acquire` and `release` depend on the CPU that holds the lock. -/

namespace OsProject

/-- `owner` records the process whose `lock_acquire` took the lock, and `spin` the call that loops
in `acquire` on a CPU. -/
structure LockSys where
  cpu : Fin NCPU → Cpu := fun _ => {}
  table : LockTable := {}
  owner : Fin MAX_LOCKS → Option (Fin NPROC) := fun _ => none
  spin : Fin NCPU → Option (Fin NPROC × Fin MAX_LOCKS) := fun _ => none
  panic : Option LockPanic := none

inductive LockCall
  | create
  | acquire (x : UInt64)
  | release (x : UInt64)

/-- A call of process `p` on CPU `c`, or a turn of the loop in which that CPU spins. -/
inductive LockMove
  | call (c : Fin NCPU) (p : Fin NPROC) (f : LockCall)
  | spin (c : Fin NCPU)

def LockSys.setCpu (s : LockSys) (c : Fin NCPU) (cpu : Cpu) : LockSys :=
  { s with cpu := Function.update s.cpu c cpu }

@[simp] theorem LockSys.setCpu_same (s : LockSys) (c : Fin NCPU) (cpu : Cpu) :
    (s.setCpu c cpu).cpu c = cpu :=
  Function.update_self ..

theorem LockSys.setCpu_of_ne (s : LockSys) {c d : Fin NCPU} (h : d ≠ c) (cpu : Cpu) :
    (s.setCpu c cpu).cpu d = s.cpu d :=
  Function.update_of_ne h ..

/-- A turn of the loop of `acquire`, with the call's return value if it gets the lock. -/
def LockSys.trySet (s : LockSys) (c : Fin NCPU) (p : Fin NPROC) (l : Fin MAX_LOCKS) :
    LockSys × Option Int :=
  match testAndSet (s.table.lock l) c with
  | none => ({ s with spin := Function.update s.spin c (some (p, l)) }, none)
  | some lk =>
    ({ s with
        table := s.table.set l lk
        owner := Function.update s.owner l (some p)
        spin := Function.update s.spin c none }, some 0)

/-- The body of the call, after `enterSyscall`. -/
def LockSys.body (s : LockSys) (c : Fin NCPU) (p : Fin NPROC) :
    LockCall → Except LockPanic (LockSys × Option Int)
  | .create =>
    .ok ({ s with table := (sysLockCreate s.table).1 }, some (sysLockCreate s.table).2)
  | .acquire x =>
    match s.table.find (argint x) with
    | none => .ok (s, some (-1))
    | some l =>
      (acquireStart (s.table.lock l) c (s.cpu c)).map fun cpu => (s.setCpu c cpu).trySet c p l
  | .release x =>
    match s.table.find (argint x) with
    | none => .ok (s, some (-1))
    | some l =>
      (release (s.table.lock l) c (s.cpu c)).map fun r =>
        ({ s.setCpu c r.2 with
            table := s.table.set l r.1
            owner := Function.update s.owner l none }, some 0)

def LockSys.call (s : LockSys) (c : Fin NCPU) (p : Fin NPROC) (f : LockCall) :
    Except LockPanic (LockSys × Option Int) :=
  match enterSyscall (s.cpu c) with
  | .error e => .error e
  | .ok cpu => (s.setCpu c cpu).body c p f

/-- Process `p` can make a call on CPU `c`. -/
def LockSys.Ready (s : LockSys) (c : Fin NCPU) (p : Fin NPROC) : Prop :=
  s.panic = none ∧ s.spin c = none ∧ ∀ d l, s.spin d ≠ some (p, l)

instance (s : LockSys) (c : Fin NCPU) (p : Fin NPROC) : Decidable (s.Ready c p) :=
  inferInstanceAs (Decidable (s.panic = none ∧ s.spin c = none ∧ ∀ d l, s.spin d ≠ some (p, l)))

def lockStep (s : LockSys) : LockMove → LockSys
  | .call c p f =>
    if s.Ready c p then
      match s.call c p f with
      | .ok r => r.1
      | .error e => { s with panic := some e }
    else s
  | .spin c =>
    if s.panic = none then
      match s.spin c with
      | none => s
      | some (p, l) => (s.trySet c p l).1
    else s

/-- The call releases a lock that its process does not hold, or acquires one that it holds. -/
def Misuses (s : LockSys) (p : Fin NPROC) : LockCall → Prop
  | .create => False
  | .acquire x => ∃ l, s.table.find (argint x) = some l ∧ s.owner l = some p
  | .release x => ∃ l, s.table.find (argint x) = some l ∧ s.owner l ≠ some p

def LockLaw (s : LockSys) : LockMove → Prop
  | .call c p f => s.Ready c p →
    ∃ t r, s.call c p f = .ok (t, r) ∧ (Misuses s p f → r = some (-1))
  | .spin _ => True

/-- A created lock is acquired only if neither the caller nor another process on its CPU holds it,
and released only by the process that holds it and on the CPU on which it was acquired. -/
def ProperUse (s : LockSys) : LockMove → Prop
  | .call _ _ .create => True
  | .call c p (.acquire x) => s.Ready c p → ∀ l, s.table.find (argint x) = some l →
    s.owner l ≠ some p ∧ holding (s.table.lock l) c = false
  | .call c p (.release x) => s.Ready c p → ∀ l, s.table.find (argint x) = some l →
    s.owner l = some p ∧ holding (s.table.lock l) c = true
  | .spin _ => True

def heldBy (t : LockTable) (c : Fin NCPU) : Nat :=
  ∑ l, if holding (t.lock l) c = true then 1 else 0

def LockSys.spins (s : LockSys) (c : Fin NCPU) : Nat := (s.spin c).elim 0 fun _ => 1

structure LockInv (s : LockSys) : Prop where
  noff : ∀ c, (s.cpu c).noff = heldBy s.table c + s.spins c
  unused : ∀ l, s.table.used l = false → (s.table.lock l).locked = false
  spinUsed : ∀ c p l, s.spin c = some (p, l) → s.table.used l = true

theorem heldBy_set (t : LockTable) (l : Fin MAX_LOCKS) (lk : Spinlock) (c : Fin NCPU) :
    heldBy (t.set l lk) c + (if holding (t.lock l) c = true then 1 else 0) =
      heldBy t c + if holding lk c = true then 1 else 0 :=
  sum_update_add t.lock (fun lk => if holding lk c = true then 1 else 0) l lk

theorem heldBy_set_of_not {t : LockTable} {l : Fin MAX_LOCKS} {lk : Spinlock} {c : Fin NCPU}
    (ho : holding (t.lock l) c = false) (hn : holding lk c = false) :
    heldBy (t.set l lk) c = heldBy t c := by
  simpa [ho, hn] using heldBy_set t l lk c

theorem LockTable.find_used {t : LockTable} {id : Int} {l : Fin MAX_LOCKS}
    (h : t.find id = some l) : t.used l = true := by
  rw [LockTable.find] at h
  split_ifs at h with hr hu
  rw [← Option.some.inj h]
  exact hu

theorem holding_of_free {lk : Spinlock} (h : lk.locked = false) (c : Fin NCPU) :
    holding lk c = false := by
  simp [holding, h]

theorem holding_of_ne {lk : Spinlock} {c d : Fin NCPU} (h : holding lk c = true) (hd : d ≠ c) :
    holding lk d = false := by
  simp only [holding, Bool.and_eq_true, beq_iff_eq] at h
  simp [holding, h.2, Ne.symm hd]

theorem LockInv.one_le {s : LockSys} (h : LockInv s) {c : Fin NCPU} {l : Fin MAX_LOCKS}
    (hl : holding (s.table.lock l) c = true) : 1 ≤ (s.cpu c).noff := by
  have hset := heldBy_set s.table l {} c
  rw [if_pos hl, if_neg (by simp [holding])] at hset
  have := h.noff c
  omega

theorem LockInv.setCpu {s : LockSys} (h : LockInv s) {c : Fin NCPU} {cpu : Cpu}
    (hn : cpu.noff = (s.cpu c).noff) : LockInv (s.setCpu c cpu) where
  noff d := by
    by_cases hd : d = c
    · subst hd
      rw [s.setCpu_same, hn]
      exact h.noff d
    · rw [s.setCpu_of_ne hd]
      exact h.noff d
  unused := h.unused
  spinUsed := h.spinUsed

theorem LockInv.enter {s : LockSys} (h : LockInv s) (c : Fin NCPU) :
    ∃ cpu, enterSyscall (s.cpu c) = .ok cpu ∧ LockInv (s.setCpu c cpu) ∧
      (1 ≤ (s.cpu c).noff → cpu.intr = false) := by
  have hnn : 0 ≤ (s.cpu c).noff := by
    have := h.noff c
    omega
  obtain ⟨cpu, he, hn, hi⟩ := enterSyscall_spec hnn
  exact ⟨cpu, he, h.setCpu hn, hi⟩

structure Acquiring (s : LockSys) (c : Fin NCPU) : Prop where
  self : (s.cpu c).noff = heldBy s.table c + 1
  others : ∀ d, d ≠ c → (s.cpu d).noff = heldBy s.table d + s.spins d
  unused : ∀ l, s.table.used l = false → (s.table.lock l).locked = false
  spinUsed : ∀ c p l, s.spin c = some (p, l) → s.table.used l = true

theorem LockInv.acquiring {s : LockSys} (h : LockInv s) {c : Fin NCPU} (hs : s.spin c = none) :
    Acquiring (s.setCpu c (pushOff (s.cpu c))) c where
  self := by
    have hn := h.noff c
    simp only [LockSys.spins, hs, Option.elim_none] at hn
    rw [s.setCpu_same]
    change (s.cpu c).noff + 1 = heldBy s.table c + 1
    omega
  others d hd := by
    rw [s.setCpu_of_ne hd]
    exact h.noff d
  unused := h.unused
  spinUsed := h.spinUsed

theorem LockInv.acquiring_of_spin {s : LockSys} (h : LockInv s) {c : Fin NCPU}
    {x : Fin NPROC × Fin MAX_LOCKS} (hs : s.spin c = some x) : Acquiring s c where
  self := by
    have hn := h.noff c
    simp only [LockSys.spins, hs, Option.elim_some] at hn
    exact hn
  others d _ := h.noff d
  unused := h.unused
  spinUsed := h.spinUsed

theorem Acquiring.trySet {s : LockSys} {c : Fin NCPU} (h : Acquiring s c) (p : Fin NPROC)
    {l : Fin MAX_LOCKS} (hl : s.table.used l = true) : LockInv (s.trySet c p l).1 := by
  by_cases hlk : (s.table.lock l).locked = true
  · have hset : testAndSet (s.table.lock l) c = none := by simp [testAndSet, hlk]
    simp only [LockSys.trySet, hset]
    refine ⟨fun d => ?_, h.unused, fun d q m hd => ?_⟩
    · by_cases hd : d = c
      · subst hd
        simpa [LockSys.spins] using h.self
      · simpa [LockSys.spins, hd] using h.others d hd
    · by_cases hdc : d = c
      · simp only [hdc, Function.update_self, Option.some.injEq, Prod.mk.injEq] at hd
        exact hd.2 ▸ hl
      · simp only [Function.update_of_ne hdc] at hd
        exact h.spinUsed d q m hd
  · rw [Bool.not_eq_true] at hlk
    have hset : testAndSet (s.table.lock l) c = some { locked := true, cpu := some c } := by
      simp [testAndSet, hlk]
    simp only [LockSys.trySet, hset]
    refine ⟨fun d => ?_, fun m hm => ?_, fun d q m hd => ?_⟩
    · by_cases hd : d = c
      · subst hd
        have hheld := heldBy_set s.table l { locked := true, cpu := some d } d
        have hself := h.self
        rw [if_neg (by simp [holding_of_free hlk]), if_pos (by simp [holding])] at hheld
        simp only [LockSys.spins, Function.update_self, Option.elim_none]
        omega
      · have hkeep : heldBy (s.table.set l { locked := true, cpu := some c }) d =
            heldBy s.table d :=
          heldBy_set_of_not (holding_of_free hlk d) (by simp [holding, Ne.symm hd])
        have hother := h.others d hd
        simp only [LockSys.spins, Function.update_of_ne hd] at hother ⊢
        rw [hkeep]
        exact hother
    · change s.table.used m = false at hm
      have hne : m ≠ l := by
        rintro rfl
        simp [hl] at hm
      simpa [LockTable.set, hne] using h.unused m hm
    · change s.table.used m = true
      by_cases hdc : d = c
      · simp [hdc] at hd
      · simp only [Function.update_of_ne hdc] at hd
        exact h.spinUsed d q m hd

theorem LockInv.create {s : LockSys} (h : LockInv s) :
    LockInv { s with table := (sysLockCreate s.table).1 } := by
  cases hf : (List.finRange MAX_LOCKS).find? fun l => s.table.used l = false with
  | none => simpa only [sysLockCreate, hf] using h
  | some l =>
    have hl : s.table.used l = false := by simpa using List.find?_some hf
    have hfree := h.unused l hl
    simp only [sysLockCreate, hf]
    refine ⟨fun d => ?_, fun m hm => ?_, fun d q m hd => ?_⟩
    · change (s.cpu d).noff = heldBy (s.table.set l {}) d + s.spins d
      rw [heldBy_set_of_not (holding_of_free hfree d) (by simp [holding])]
      exact h.noff d
    · by_cases hml : m = l
      · simp [hml] at hm
      · simp only [Function.update_of_ne hml] at hm
        simpa [LockTable.set, hml] using h.unused m hm
    · by_cases hml : m = l
      · simp [hml]
      · simp only [Function.update_of_ne hml]
        exact h.spinUsed d q m hd

theorem LockInv.release {s : LockSys} (h : LockInv s) {c : Fin NCPU} {l : Fin MAX_LOCKS}
    (hl : holding (s.table.lock l) c = true) {cpu : Cpu} (hn : cpu.noff = (s.cpu c).noff - 1)
    (owner : Fin MAX_LOCKS → Option (Fin NPROC)) :
    LockInv { s.setCpu c cpu with table := s.table.set l {}, owner := owner } := by
  refine ⟨fun d => ?_, fun m hm => ?_, h.spinUsed⟩
  · change ((s.setCpu c cpu).cpu d).noff = heldBy (s.table.set l {}) d + s.spins d
    have hd := h.noff d
    by_cases hdc : d = c
    · subst hdc
      have hset := heldBy_set s.table l {} d
      rw [if_pos hl, if_neg (by simp [holding])] at hset
      rw [s.setCpu_same]
      omega
    · rw [s.setCpu_of_ne hdc, heldBy_set_of_not (holding_of_ne hl hdc) (by simp [holding])]
      exact hd
  · by_cases hml : m = l
    · simp [LockTable.set, hml]
    · simpa [LockTable.set, hml] using h.unused m hm

theorem release_eq {lk : Spinlock} {me : Fin NCPU} {c : Cpu} (hl : holding lk me = true)
    (hi : c.intr = false) (hn : 1 ≤ c.noff) :
    ∃ c', release lk me c = .ok ({}, c') ∧ c'.noff = c.noff - 1 := by
  rw [release, if_pos hl, popOff_eq hi hn]
  exact ⟨_, rfl, rfl⟩

inductive CallEffect (t : LockTable) (c : Fin NCPU) :
    LockCall → Except LockPanic (LockSys × Option Int) → Prop
  | create {s : LockSys} {v : Int} (hs : LockInv s) : CallEffect t c .create (.ok (s, some v))
  | refused {s : LockSys} {f : LockCall} (hs : LockInv s)
      (hf : ∀ x, f = .acquire x ∨ f = .release x → t.find (argint x) = none) :
      CallEffect t c f (.ok (s, some (-1)))
  | acquires {s : LockSys} {x : UInt64} {l : Fin MAX_LOCKS} {r : Option Int} (hs : LockInv s)
      (hl : t.find (argint x) = some l) (hh : holding (t.lock l) c = false)
      (hr : r ≠ some (-1)) : CallEffect t c (.acquire x) (.ok (s, r))
  | reacquires {x : UInt64} {l : Fin MAX_LOCKS} (hl : t.find (argint x) = some l)
      (hh : holding (t.lock l) c = true) : CallEffect t c (.acquire x) (.error .acquire)
  | releases {s : LockSys} {x : UInt64} {l : Fin MAX_LOCKS} (hs : LockInv s)
      (hl : t.find (argint x) = some l) (hh : holding (t.lock l) c = true) :
      CallEffect t c (.release x) (.ok (s, some 0))
  | misreleases {x : UInt64} {l : Fin MAX_LOCKS} (hl : t.find (argint x) = some l)
      (hh : holding (t.lock l) c = false) : CallEffect t c (.release x) (.error .release)

theorem trySet_ne (s : LockSys) (c : Fin NCPU) (p : Fin NPROC) (l : Fin MAX_LOCKS) :
    (s.trySet c p l).2 ≠ some (-1) := by
  cases ht : testAndSet (s.table.lock l) c <;> simp [LockSys.trySet, ht]

theorem acquire_effect {s : LockSys} (h : LockInv s) {c : Fin NCPU} (hs : s.spin c = none)
    (p : Fin NPROC) (x : UInt64) : CallEffect s.table c (.acquire x) (s.body c p (.acquire x)) := by
  cases hl : s.table.find (argint x) with
  | none =>
    simp only [LockSys.body, hl]
    exact .refused h (by simpa using hl)
  | some l =>
    cases hh : holding (s.table.lock l) c with
    | true =>
      simp only [LockSys.body, hl, acquireStart, hh, if_true]
      exact .reacquires hl hh
    | false =>
      simp only [LockSys.body, hl, acquireStart, hh, Bool.false_eq_true, if_false]
      exact .acquires ((h.acquiring hs).trySet p (LockTable.find_used hl)) hl hh
        (trySet_ne _ c p l)

theorem release_effect {s : LockSys} (h : LockInv s) {c : Fin NCPU}
    (hi : 1 ≤ (s.cpu c).noff → (s.cpu c).intr = false) (p : Fin NPROC) (x : UInt64) :
    CallEffect s.table c (.release x) (s.body c p (.release x)) := by
  cases hl : s.table.find (argint x) with
  | none =>
    simp only [LockSys.body, hl]
    exact .refused h (by simpa using hl)
  | some l =>
    cases hh : holding (s.table.lock l) c with
    | true =>
      have hn := h.one_le hh
      obtain ⟨cpu, hr, hcpu⟩ := release_eq hh (hi hn) hn
      simp only [LockSys.body, hl, hr]
      exact .releases (h.release hh hcpu _) hl hh
    | false =>
      simp only [LockSys.body, hl, release, hh, Bool.false_eq_true, if_false]
      exact .misreleases hl hh

theorem call_effect {s : LockSys} (h : LockInv s) {c : Fin NCPU} (hs : s.spin c = none)
    (p : Fin NPROC) (f : LockCall) : CallEffect s.table c f (s.call c p f) := by
  obtain ⟨cpu, he, hinv, hintr⟩ := h.enter c
  rw [LockSys.call, he]
  cases f with
  | create => exact .create hinv.create
  | acquire x => exact acquire_effect hinv hs p x
  | release x =>
    refine release_effect hinv (fun hn => ?_) p x
    rw [s.setCpu_same] at hn ⊢
    have hsame : cpu.noff = (s.cpu c).noff := by
      have hc := hinv.noff c
      rw [s.setCpu_same] at hc
      exact hc.trans (h.noff c).symm
    exact hintr (hsame ▸ hn)

theorem lockInv_step (s : LockSys) (e : LockMove) (h : LockInv s) : LockInv (lockStep s e) := by
  cases e with
  | call c p f =>
    by_cases hr : s.Ready c p
    · have heff := call_effect h hr.2.1 p f
      simp only [lockStep, hr, if_true]
      generalize s.call c p f = r at heff
      cases heff with
      | create ht | refused ht | acquires ht | releases ht => exact ht
      | reacquires | misreleases => exact ⟨h.noff, h.unused, h.spinUsed⟩
    · simpa only [lockStep, hr, if_false] using h
  | spin c =>
    by_cases hp : s.panic = none
    · simp only [lockStep, hp, if_true]
      cases hs : s.spin c with
      | none => exact h
      | some x => exact (h.acquiring_of_spin hs).trySet x.1 (h.spinUsed c x.1 x.2 hs)
    · simpa only [lockStep, hp, if_false] using h

theorem lockLaw_iff (s : LockSys) (e : LockMove) (h : LockInv s) : LockLaw s e ↔ ProperUse s e := by
  cases e with
  | spin c => rfl
  | call c p f =>
    by_cases hr : s.Ready c p
    · have heff := call_effect h hr.2.1 p f
      simp only [LockLaw, hr, true_imp_iff]
      generalize s.call c p f = r at heff
      cases heff with
      | @create t v =>
        exact iff_of_true ⟨t, some v, rfl, False.elim⟩ trivial
      | @refused t f _ hf =>
        refine iff_of_true ⟨t, some (-1), rfl, fun _ => rfl⟩ ?_
        cases f with
        | create => trivial
        | acquire x | release x => simp [ProperUse, hf x]
      | @acquires t x l r _ hl hh hne =>
        simp only [ProperUse, hr, true_imp_iff, hl, Option.some.injEq, forall_eq', hh, and_true,
          Misuses, Except.ok.injEq, Prod.mk.injEq, exists_eq_left']
        constructor
        · rintro ⟨t', r', ⟨rfl, rfl⟩, hm⟩ ho
          exact hne (hm ho)
        · intro ho
          exact ⟨t, r, ⟨rfl, rfl⟩, fun hm => absurd hm ho⟩
      | @reacquires x l hl hh =>
        refine iff_of_false (by simp) fun hu => ?_
        have := (hu hr l hl).2
        simp [hh] at this
      | @releases t x l _ hl hh =>
        simp only [ProperUse, hr, true_imp_iff, hl, Option.some.injEq, forall_eq', hh, and_true,
          Misuses, Except.ok.injEq, Prod.mk.injEq, exists_eq_left']
        constructor
        · rintro ⟨t', r', ⟨rfl, rfl⟩, hm⟩
          by_contra ho
          exact absurd (hm ho) (by decide)
        · intro ho
          exact ⟨t, some 0, ⟨rfl, rfl⟩, fun hm => absurd ho hm⟩
      | @misreleases x l hl hh =>
        refine iff_of_false (by simp) fun hu => ?_
        have := (hu hr l hl).2
        simp [hh] at this
    · cases f <;> simp [LockLaw, ProperUse, hr]

theorem lockInv_boot : LockInv {} := ⟨fun _ => rfl, fun _ _ => rfl, by simp⟩

/-- In every run of lock calls from boot, no call panics and every misuse returns -1 exactly when
every call is a proper use of the lock. -/
theorem lock_calls_safe_iff (es : List LockMove) :
    Meets lockStep LockLaw {} es ↔ Meets lockStep ProperUse {} es :=
  meets_iff_of_inv lockInv_step lockLaw_iff lockInv_boot es

theorem lock_calls_panic :
    ¬ Meets lockStep LockLaw {} [.call 0 0 .create, .call 0 0 (.release 0)] ∧
    ([LockMove.call 0 0 .create, .call 0 0 (.release 0)].foldl lockStep {}).panic =
      some .release ∧
    ¬ Meets lockStep LockLaw {} [.call 0 0 .create, .call 0 0 (.acquire 0),
      .call 0 0 (.acquire 0)] ∧
    ([LockMove.call 0 0 .create, .call 0 0 (.acquire 0), .call 0 0 (.acquire 0)].foldl lockStep
      {}).panic = some .acquire := by
  refine ⟨fun h => ?_, by decide +kernel, fun h => ?_, by decide +kernel⟩
  · obtain ⟨t, r, hr, -⟩ := h.2.1 (by decide +kernel)
    have herr : ((lockStep {} (.call 0 0 .create)).call 0 0 (.release 0)).toOption.isSome =
        false := by
      decide +kernel
    rw [hr] at herr
    cases herr
  · obtain ⟨t, r, hr, -⟩ := h.2.2.1 (by decide +kernel)
    have herr : ((lockStep (lockStep {} (.call 0 0 .create)) (.call 0 0 (.acquire 0))).call 0 0
        (.acquire 0)).toOption.isSome = false := by
      decide +kernel
    rw [hr] at herr
    cases herr

end OsProject
