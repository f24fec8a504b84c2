import OsProject.WaitLoop

/-! Sleep-locks, as `bio.c` and `fs.c` use them: a process that does not hold the lock and gives it
back panics in `bwrite`, `brelse` or `iunlock`. -/

namespace OsProject.Waits

/-- `holds` marks the processes whose `acquiresleep` has returned and that have not given the lock
back. -/
structure Sleeplock where
  locked : Bool := false
  pid : Int := 0
  panicked : Bool := false
  holds : Fin NPROC → Bool := fun _ => false

variable (lk : Nat)

def acquiresleep : Loop Sleeplock Unit where
  chan := lk
  enter r k p _ :=
    if r.locked then (r, some ())
    else ({ r with locked := true, pid := (k.proc p).pid, holds := Function.update r.holds p true }, none)
  Blocked r := r.locked = true
  sleeps r k p x h := by
    by_cases hl : r.locked = true
    · simp [hl]
    · simp [hl] at h
  stays r k p x h := by simp [h]

def holdingsleep (r : Sleeplock) (k : Kernel) (p : Fin NPROC) : Bool :=
  r.locked && r.pid == (k.proc p).pid

def releasesleep (r : Sleeplock) (p : Fin NPROC) : Sleeplock :=
  { r with locked := false, pid := 0, holds := Function.update r.holds p false }

/-- The lock is given back, or anything else happens to a process: it sleeps elsewhere, also with the
lock, or without it exits, or its slot gets another process with a pid of its own. -/
inductive LockUse
  | release (p : Fin NPROC)
  | other (p : Fin NPROC) (x : Proc)

def lockAct (s : WaitState Sleeplock Unit) : LockUse → WaitState Sleeplock Unit
  | .release p =>
    if s.Runs p then
      if holdingsleep s.res s.kernel p then s.signal (acquiresleep lk) p (releasesleep s.res p)
      else { s with res := { s.res with panicked := true } }
    else s
  | .other p x =>
    if s.left p = none ∧ ¬ x.SleepsOn lk ∧
        (x.pid = (s.kernel.proc p).pid ∧ (x.state = .unused ↔ (s.kernel.proc p).state = .unused) ∨
          s.res.holds p = false ∧ (x.state = .unused ∨ ∀ q, q ≠ p → ids s.kernel q ≠ some x.pid)) then
      { s with kernel := s.kernel.setProc p x }
    else s

/-- The pids are distinct, and the holder is the process whose pid is in the lock. -/
structure LockOk (r : Sleeplock) (f : Fin NPROC → Option Int) : Prop where
  unique : ∀ i j v, f i = some v → f j = some v → i = j
  holder : ∀ i, r.holds i = true → r.locked = true ∧ f i = some r.pid
  held : r.locked = true → ∃ i, r.holds i = true

variable {lk} {r : Sleeplock} {s : WaitState Sleeplock Unit}

theorem LockOk.acquire {k : Kernel} {p : Fin NPROC} (h : LockOk r (ids k)) (hp : ids k p ≠ none) :
    LockOk ((acquiresleep lk).enter r k p ()).1 (ids k) := by
  by_cases hl : r.locked = true
  · simpa [acquiresleep, hl] using h
  · have hnone : ∀ i, r.holds i ≠ true := fun i hi => hl (h.holder i hi).1
    simp only [acquiresleep, hl, Bool.false_eq_true, if_false]
    refine ⟨h.unique, fun i hi => ⟨rfl, ?_⟩, fun _ => ⟨p, by simp⟩⟩
    obtain rfl : i = p := by
      by_contra hne
      exact hnone i (by simpa [hne] using hi)
    rw [ids] at hp ⊢
    split_ifs with hu
    · simp [hu] at hp
    · rfl

/-- Only the holder passes the test of `holdingsleep`. -/
theorem LockOk.holdingsleep_iff {p : Fin NPROC} (h : LockOk s.res (ids s.kernel))
    (hp : (s.kernel.proc p).state ≠ .unused) :
    holdingsleep s.res s.kernel p = true ↔ s.res.holds p = true := by
  have hid : ids s.kernel p = some (s.kernel.proc p).pid := by rw [ids, if_neg hp]
  rw [holdingsleep, Bool.and_eq_true, beq_iff_eq]
  constructor
  · rintro ⟨hl, hpid⟩
    obtain ⟨i, hi⟩ := h.held hl
    rwa [h.unique p i _ (hid.trans (congrArg some hpid.symm)) (h.holder i hi).2]
  · intro hh
    obtain ⟨hl, hpid⟩ := h.holder p hh
    exact ⟨hl, Option.some.inj (hpid.symm.trans hid)⟩

theorem LockOk.act (h : LockOk s.res (ids s.kernel)) (a : LockUse) :
    LockOk (lockAct lk s a).res (ids (lockAct lk s a).kernel) := by
  cases a with
  | release p =>
    rw [lockAct]
    split_ifs with hr hh
    · have hp := (h.holdingsleep_iff (by simp [hr.1])).mp hh
      simp only [WaitState.signal, ids_wakeup]
      refine ⟨h.unique, fun i hi => ?_, fun hl => by simp [releasesleep] at hl⟩
      by_cases hip : i = p
      · simp [releasesleep, hip] at hi
      · have hi' : s.res.holds i = true := by simpa [releasesleep, hip] using hi
        exact absurd (h.unique i p _ (h.holder i hi').2 (h.holder p hp).2) hip
    · exact ⟨h.unique, h.holder, h.held⟩
    · exact h
  | other p x =>
    rw [lockAct]
    split_ifs with hg
    · obtain ⟨-, -, ⟨hpid, hu⟩ | ⟨hhold, hx⟩⟩ := hg
      · rwa [ids_setProc hpid hu]
      have hne : ∀ i, i ≠ p → ids (s.kernel.setProc p x) i = ids s.kernel i := fun i hi => by
        rw [ids, ids, s.kernel.setProc_of_ne hi]
      have hself : ∀ v, ids (s.kernel.setProc p x) p = some v → ∀ q, q ≠ p → ids s.kernel q ≠ some v := by
        intro v hv
        rw [ids, s.kernel.setProc_same] at hv
        split_ifs at hv with hu
        exact Option.some.inj hv ▸ hx.resolve_left hu
      refine ⟨fun i j v hi hj => ?_, fun i hi => ?_, h.held⟩
      · by_cases hip : i = p <;> by_cases hjp : j = p
        · rw [hip, hjp]
        · subst hip
          exact absurd ((hne j hjp).symm.trans hj) (hself v hi j hjp)
        · subst hjp
          exact absurd ((hne i hip).symm.trans hi) (hself v hj i hip)
        · exact h.unique i j v ((hne i hip).symm.trans hi) ((hne j hjp).symm.trans hj)
      · have hip : i ≠ p := by
          rintro rfl
          exact Bool.false_ne_true (hhold.symm.trans hi)
        exact ⟨(h.holder i hi).1, (hne i hip).trans (h.holder i hi).2⟩
    · exact h

theorem Awake.lockAct (h : Awake (acquiresleep lk) s) (a : LockUse) :
    Awake (acquiresleep lk) (lockAct lk s a) := by
  cases a with
  | release p =>
    rw [Waits.lockAct]
    split_ifs with hr
    · exact awake_signal (by simp [hr.1]) _
    · exact h
    · exact h
  | other p x =>
    rw [Waits.lockAct]
    split_ifs with hg
    · exact h.mono rfl fun q hq => sleepsOn_of_setProc hg.2.1 hq
    · exact h

/-- One process at most holds the lock, `holdingsleep` tells it from the others, and whoever sleeps
on the lock waits for it. -/
structure SleeplockLaw (lk : Nat) (s : WaitState Sleeplock Unit) : Prop where
  one : ∀ i j, s.res.holds i = true → s.res.holds j = true → i = j
  known : ∀ i, (s.kernel.proc i).state ≠ .unused →
    (holdingsleep s.res s.kernel i = true ↔ s.res.holds i = true)
  awaited : ∀ i, (s.kernel.proc i).SleepsOn lk → ∃ j, s.res.holds j = true

/-- However the calls, the scheduler, signals and the rest of the kernel interleave, a sleep-lock
excludes and strands nobody. -/
theorem sleeplock_excludes {k : Kernel} (hids : ∀ i j v, ids k i = some v → ids k j = some v → i = j)
    (hawake : ∀ i, ¬ (k.proc i).SleepsOn lk) (es : List (WaitEvent Unit LockUse)) :
    Always (waitStep (acquiresleep lk) (lockAct lk)) (SleeplockLaw lk) { kernel := k, res := {} } es := by
  refine always_of_inv (I := fun s => LockOk s.res (ids s.kernel) ∧ Awake (acquiresleep lk) s) ?_ ?_
    ⟨⟨hids, fun i hi => Bool.noConfusion hi, fun hl => Bool.noConfusion hl⟩,
      fun i hi => absurd hi (hawake i)⟩ es
  · rintro s e ⟨hok, hs⟩
    exact ⟨waitStep_keeps (fun _ _ _ _ hp h => h.acquire hp) (fun _ a h => h.act a) hok e,
      hs.step (fun _ a h => h.lockAct a) e⟩
  · rintro s ⟨hok, hs⟩
    exact ⟨fun i j hi hj => hok.unique i j _ (hok.holder i hi).2 (hok.holder j hj).2,
      fun i hi => hok.holdingsleep_iff hi, fun i hi => hok.held (hs i hi)⟩

/-- Two processes with the pids 1 and 2. -/
def twoProcs : Kernel where
  proc i := if i.val < 2 then { state := .running, pid := i.val + 1 } else {}

/-- Process 1 waits for the lock that process 0 holds, and gets it. -/
theorem sleeplock_excludes_two : Always (waitStep (acquiresleep 7) (lockAct 7)) (SleeplockLaw 7)
    { kernel := twoProcs, res := {} }
    [.call 0 (), .call 1 (), .own (.release 0), .dispatch 1, .own (.release 1)] := by
  refine sleeplock_excludes (fun i j v hi hj => ?_) (fun i hi => ?_) _
  · simp only [ids, twoProcs] at hi hj
    split_ifs at hi hj <;> simp_all
    omega
  · simp only [twoProcs, Proc.SleepsOn] at hi
    split_ifs at hi <;> simp at hi

end OsProject.Waits
