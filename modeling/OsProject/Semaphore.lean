import OsProject.Mailbox
import OsProject.Signal

/-! The kernel semaphore `global_sem`. Each critical section under its lock is one step, so the
lock is free between steps. `sys_sem_post` wakes the sleepers and `sys_sem_init` does not. -/

namespace OsProject

/-- The address of `global_sem`, as a sleep channel. -/
def globalSem : Nat := 1

/-- `waiting` marks the processes that are in the loop of `sys_sem_wait`. -/
structure SemState where
  kernel : Kernel
  value : Int := 1
  waiting : Fin NPROC → Bool := fun _ => false

/-- A step of process `i`: a call with the register argument `x`, a call of `kill`, or the
scheduler giving it the CPU or taking it away. -/
inductive SemEvent
  | init (i : Fin NPROC) (x : UInt64)
  | wait (i : Fin NPROC)
  | post (i : Fin NPROC)
  | kill (i : Fin NPROC) (pid : Int) (sig : Fin 32)
  | dispatch (i : Fin NPROC)
  | preempt (i : Fin NPROC)

def Proc.SleepsOn (p : Proc) (chan : Nat) : Prop := p.state = .sleeping ∧ p.chan = chan

instance (p : Proc) (chan : Nat) : Decidable (p.SleepsOn chan) :=
  inferInstanceAs (Decidable (p.state = .sleeping ∧ p.chan = chan))

/-- `wakeup(chan)`, called by the process in slot `me`. -/
def wakeup (k : Kernel) (me : Fin NPROC) (chan : Nat) : Kernel :=
  { k with proc := fun j =>
      if j ≠ me ∧ (k.proc j).SleepsOn chan then { k.proc j with state := .runnable }
      else k.proc j }

/-- `wakeup` on a CPU that runs no process. -/
def wakeupAll (k : Kernel) (chan : Nat) : Kernel :=
  { k with proc := fun j =>
      if (k.proc j).SleepsOn chan then { k.proc j with state := .runnable } else k.proc j }

def kkill (k : Kernel) (pid : Int) (sig : Fin 32) : Kernel × Int :=
  match pidSlot k pid with
  | some i => (k.setProc i ((k.proc i).post sig), 0)
  | none => (k, -1)

/-- One pass of the loop of `sys_sem_wait` with the lock held. -/
def semTry (s : SemState) (i : Fin NPROC) : SemState :=
  if s.value ≤ 0 then
    { s with
      kernel := s.kernel.setProc i
        { s.kernel.proc i with chan := globalSem, state := .sleeping }
      waiting := Function.update s.waiting i true }
  else { s with value := s.value - 1, waiting := Function.update s.waiting i false }

def SemState.setState (s : SemState) (i : Fin NPROC) (state : ProcState) : SemState :=
  { s with kernel := s.kernel.setProc i { s.kernel.proc i with state := state } }

def SemState.Runs (s : SemState) (i : Fin NPROC) : Prop :=
  (s.kernel.proc i).state = .running ∧ s.waiting i = false

instance (s : SemState) (i : Fin NPROC) : Decidable (s.Runs i) :=
  inferInstanceAs (Decidable ((s.kernel.proc i).state = .running ∧ s.waiting i = false))

/-- An event that is not possible in `s` changes nothing. A waiter that gets the CPU clears its
channel, takes the lock again and tests the value. -/
def semStep (s : SemState) : SemEvent → SemState
  | .init i x => if s.Runs i then { s with value := argint x } else s
  | .wait i => if s.Runs i then semTry s i else s
  | .post i =>
    if s.Runs i then
      { s with
        value := (s.value + 1).bmod (2 ^ 32)
        kernel := wakeup s.kernel i globalSem }
    else s
  | .kill i pid sig => if s.Runs i then { s with kernel := (kkill s.kernel pid sig).1 } else s
  | .dispatch i =>
    if (s.kernel.proc i).state = .runnable then
      if s.waiting i then
        semTry { s with
          kernel := s.kernel.setProc i { s.kernel.proc i with state := .running, chan := 0 } } i
      else s.setState i .running
    else s
  | .preempt i => if s.Runs i then s.setState i .runnable else s

def Sleeper (s : SemState) (i : Fin NPROC) : Prop := (s.kernel.proc i).SleepsOn globalSem

instance (s : SemState) (i : Fin NPROC) : Decidable (Sleeper s i) :=
  inferInstanceAs (Decidable ((s.kernel.proc i).SleepsOn globalSem))

def Stranded (s : SemState) : Prop := 0 < s.value ∧ ∃ i, Sleeper s i

/-- What `sem_init` would need: a value that wakes nobody, or nobody to wake. -/
def InitFindsNoSleeper (s : SemState) : SemEvent → Prop
  | .init i x => s.Runs i → argint x ≤ 0 ∨ ∀ j, ¬ Sleeper s j
  | _ => True

theorem semTry_not_stranded {s : SemState} (h : ¬ Stranded s) (i : Fin NPROC) :
    ¬ Stranded (semTry s i) := by
  by_cases hv : s.value ≤ 0
  · rintro ⟨hpos, -⟩
    simp only [semTry, hv, if_true] at hpos
    omega
  · rintro ⟨-, j, hj⟩
    simp only [semTry, hv, if_false] at hj
    exact h ⟨by omega, j, hj⟩

theorem not_stranded_of_le {s t : SemState} (h : ¬ Stranded s) (hv : t.value = s.value)
    (hs : ∀ i, Sleeper t i → Sleeper s i) : ¬ Stranded t := by
  rintro ⟨hpos, i, hi⟩
  exact h ⟨hv ▸ hpos, i, hs i hi⟩

section Sleepers

variable {k : Kernel} {me q : Fin NPROC} {chan chan' : Nat}

theorem sleepsOn_of_setProc {i : Fin NPROC} {x : Proc} (hx : ¬ x.SleepsOn chan)
    (h : ((k.setProc i x).proc q).SleepsOn chan) : (k.proc q).SleepsOn chan := by
  by_cases hq : q = i
  · subst hq
    rw [k.setProc_same] at h
    exact absurd h hx
  · rwa [k.setProc_of_ne hq] at h

theorem wakeup_proc (k : Kernel) (me q : Fin NPROC) (chan : Nat) :
    (wakeup k me chan).proc q =
      if q ≠ me ∧ (k.proc q).SleepsOn chan then { k.proc q with state := .runnable }
      else k.proc q := rfl

theorem wakeup_none (hme : (k.proc me).state ≠ .sleeping) :
    ¬ ((wakeup k me chan).proc q).SleepsOn chan := by
  rw [wakeup_proc]
  split_ifs with hq
  · rintro ⟨hs, -⟩
    cases hs
  · intro hs
    have hqm : q = me := by
      by_contra hne
      exact hq ⟨hne, hs⟩
    exact hme (hqm ▸ hs.1)

theorem sleepsOn_of_wakeup (h : ((wakeup k me chan).proc q).SleepsOn chan') :
    (k.proc q).SleepsOn chan' := by
  rw [wakeup_proc] at h
  split_ifs at h
  · cases h.1
  · exact h

theorem Proc.post_not_sleeping (p : Proc) (sig : Fin 32) : (p.post sig).state ≠ .sleeping := by
  by_cases hs : p.state = .sleeping <;> simp [post, hs]

theorem sleepsOn_of_kkill {pid : Int} {sig : Fin 32}
    (h : ((kkill k pid sig).1.proc q).SleepsOn chan) : (k.proc q).SleepsOn chan := by
  unfold kkill at h
  split at h
  · exact sleepsOn_of_setProc (fun hs => Proc.post_not_sleeping _ sig hs.1) h
  · exact h

end Sleepers

theorem semStep_iff {s : SemState} (h : ¬ Stranded s) (e : SemEvent) :
    ¬ Stranded (semStep s e) ↔ InitFindsNoSleeper s e := by
  cases e with
  | init i x =>
    by_cases hr : s.Runs i
    · simp only [semStep, InitFindsNoSleeper, hr, if_true, true_imp_iff, Stranded, not_and_or,
        not_lt, not_exists]
      rfl
    · simp only [semStep, InitFindsNoSleeper, hr, if_false, false_imp_iff, h, not_false_eq_true]
  | wait i =>
    refine iff_of_true ?_ trivial
    by_cases hr : s.Runs i
    · simpa only [semStep, hr, if_true] using semTry_not_stranded h i
    · simpa only [semStep, hr, if_false] using h
  | post i =>
    refine iff_of_true ?_ trivial
    by_cases hr : s.Runs i
    · simp only [semStep, hr, if_true]
      rintro ⟨-, j, hj⟩
      exact wakeup_none (by simp [hr.1]) hj
    · simpa only [semStep, hr, if_false] using h
  | kill i pid sig =>
    refine iff_of_true ?_ trivial
    by_cases hr : s.Runs i
    · simp only [semStep, hr, if_true]
      exact not_stranded_of_le h rfl fun j hj => sleepsOn_of_kkill hj
    · simpa only [semStep, hr, if_false] using h
  | dispatch i =>
    refine iff_of_true ?_ trivial
    by_cases hr : (s.kernel.proc i).state = .runnable
    · by_cases hw : s.waiting i
      · simp only [semStep, hr, hw, if_true]
        apply semTry_not_stranded
        exact not_stranded_of_le h rfl fun j hj => sleepsOn_of_setProc (by simp [Proc.SleepsOn]) hj
      · simp only [semStep, hr, hw, if_true]
        exact not_stranded_of_le h rfl fun j hj => sleepsOn_of_setProc (by simp [Proc.SleepsOn]) hj
    · simpa only [semStep, hr, if_false] using h
  | preempt i =>
    refine iff_of_true ?_ trivial
    by_cases hr : s.Runs i
    · simp only [semStep, hr, if_true]
      exact not_stranded_of_le h rfl fun j hj => sleepsOn_of_setProc (by simp [Proc.SleepsOn]) hj
    · simpa only [semStep, hr, if_false] using h

/-- No waiter is stranded in exactly those runs in which `sem_init` sets a positive value only
while nobody sleeps on the semaphore. -/
theorem never_stranded_iff {s : SemState} (h : ¬ Stranded s) (events : List SemEvent) :
    Always semStep (fun t => ¬ Stranded t) s events ↔ Meets semStep InitFindsNoSleeper s events :=
  always_iff_meets (P := fun t => ¬ Stranded t) (fun _ e ht => semStep_iff ht e) h events

/-- Three running processes and the value that `procinit` sets. -/
def semBoot : SemState where
  kernel := { proc := fun i => if i.val < 3 then { state := .running, pid := i.val + 1 } else {} }

theorem semBoot_not_stranded : ¬ Stranded semBoot := by
  rintro ⟨-, i, hi⟩
  by_cases h : i.val < 3 <;> simp [Sleeper, Proc.SleepsOn, semBoot, h] at hi

theorem never_stranded_post : Always semStep (fun t => ¬ Stranded t) semBoot
    [.init 0 1, .wait 0, .wait 1, .wait 2, .kill 0 3 9, .dispatch 2, .post 0, .dispatch 1] :=
  (never_stranded_iff semBoot_not_stranded _).mpr
    ⟨fun _ => .inr fun i hi => by
      by_cases h : i.val < 3 <;> simp [Sleeper, Proc.SleepsOn, semBoot, h] at hi,
      trivial, trivial, trivial, trivial, trivial, trivial, trivial, trivial⟩

theorem sem_init_strands :
    ¬ Stranded semBoot ∧
    ¬ Always semStep (fun t => ¬ Stranded t) semBoot [.wait 0, .wait 1, .init 0 1] := by
  refine ⟨semBoot_not_stranded, fun h => ?_⟩
  exact h.2.2.2 ⟨by decide, 1, by decide⟩

end OsProject
