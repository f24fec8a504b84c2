import OsProject.Semaphore

/-! Loops around `sleep`. A critical section is one step: a process goes through its loop until it
returns or has to sleep, and whoever makes it possible to go on calls `wakeup`. -/

namespace OsProject.Waits

/-- A loop with `κ` left to do, on data `ρ` under a lock. It sleeps only in a state that is blocked,
and it never makes a blocked state free. -/
structure Loop (ρ κ : Type) where
  chan : Nat
  enter : ρ → Kernel → Fin NPROC → κ → ρ × Option κ
  Blocked : ρ → Prop
  sleeps : ∀ r k p x, (enter r k p x).2 ≠ none → Blocked (enter r k p x).1
  stays : ∀ r k p x, Blocked r → Blocked (enter r k p x).1

/-- `left` has what the processes in the loop still have to do. -/
structure WaitState (ρ κ : Type) where
  kernel : Kernel
  res : ρ
  left : Fin NPROC → Option κ := fun _ => none

inductive WaitEvent (κ α : Type)
  | call (p : Fin NPROC) (x : κ)
  | dispatch (p : Fin NPROC)
  | preempt (p : Fin NPROC)
  | kill (p : Fin NPROC) (pid : Int) (sig : Fin 32)
  | own (a : α)

variable {ρ κ α : Type}

def WaitState.Runs (s : WaitState ρ κ) (p : Fin NPROC) : Prop :=
  (s.kernel.proc p).state = .running ∧ s.left p = none

instance (s : WaitState ρ κ) (p : Fin NPROC) : Decidable (s.Runs p) :=
  inferInstanceAs (Decidable ((s.kernel.proc p).state = .running ∧ s.left p = none))

def WaitState.setState (s : WaitState ρ κ) (p : Fin NPROC) (x : ProcState) : WaitState ρ κ :=
  { s with kernel := s.kernel.setProc p { s.kernel.proc p with state := x } }

/-- The processes with their pids. -/
def ids (k : Kernel) (i : Fin NPROC) : Option Int :=
  if (k.proc i).state = .unused then none else some (k.proc i).pid

section Step

variable (L : Loop ρ κ) (act : WaitState ρ κ → α → WaitState ρ κ) (s : WaitState ρ κ)

/-- The critical section of process `p`. -/
def WaitState.go (p : Fin NPROC) (x : κ) : WaitState ρ κ :=
  { kernel :=
      if (L.enter s.res s.kernel p x).2.isNone then s.kernel
      else s.kernel.setProc p { s.kernel.proc p with chan := L.chan, state := .sleeping }
    res := (L.enter s.res s.kernel p x).1
    left := Function.update s.left p (L.enter s.res s.kernel p x).2 }

/-- `wakeup`, with new data under the lock. -/
def WaitState.signal (me : Fin NPROC) (r : ρ) : WaitState ρ κ :=
  { s with kernel := wakeup s.kernel me L.chan, res := r }

/-- An event that is not possible changes nothing. A process in the loop that gets the CPU clears
its channel and takes the lock again. -/
def waitStep : WaitEvent κ α → WaitState ρ κ
  | .call p x => if s.Runs p then s.go L p x else s
  | .dispatch p =>
    if (s.kernel.proc p).state = .runnable then
      match s.left p with
      | none => s.setState p .running
      | some x =>
        { s with
          kernel := s.kernel.setProc p { s.kernel.proc p with state := .running, chan := 0 } }.go L p x
    else s
  | .preempt p => if s.Runs p then s.setState p .runnable else s
  | .kill p pid sig => if s.Runs p then { s with kernel := (kkill s.kernel pid sig).1 } else s
  | .own a => act s a

/-- Whoever sleeps on the channel has a reason to. -/
def Awake : Prop := ∀ q, (s.kernel.proc q).SleepsOn L.chan → L.Blocked s.res

end Step

section Ids

variable {k : Kernel} {p : Fin NPROC}

theorem ids_setProc {x : Proc} (hpid : x.pid = (k.proc p).pid)
    (hx : x.state = .unused ↔ (k.proc p).state = .unused) : ids (k.setProc p x) = ids k := by
  funext i
  by_cases hi : i = p
  · subst hi
    simp only [ids, k.setProc_same, hx, hpid]
  · rw [ids, ids, k.setProc_of_ne hi]

theorem ids_wakeup (me : Fin NPROC) (chan : Nat) : ids (wakeup k me chan) = ids k := by
  funext i
  rw [ids, ids, wakeup_proc]
  by_cases hw : i ≠ me ∧ (k.proc i).SleepsOn chan
  · simp [hw, hw.2.1]
  · rw [if_neg hw]

theorem ids_kkill (pid : Int) (sig : Fin 32) : ids (kkill k pid sig).1 = ids k := by
  unfold kkill
  split
  next i _ =>
    refine ids_setProc rfl ?_
    by_cases hs : (k.proc i).state = .sleeping <;> simp [Proc.post, hs]
  next => rfl

end Ids

variable {L : Loop ρ κ} {act : WaitState ρ κ → α → WaitState ρ κ} {s : WaitState ρ κ}
  {p : Fin NPROC}

theorem ids_go (x : κ) (hp : (s.kernel.proc p).state ≠ .unused) :
    ids (s.go L p x).kernel = ids s.kernel := by
  rw [WaitState.go]
  split_ifs
  · rfl
  · exact ids_setProc rfl (iff_of_false (by simp) hp)

/-- The rule for invariants of the data and of the processes: the loop keeps `J`, and so do the
instance's own events. -/
theorem waitStep_keeps {J : ρ → (Fin NPROC → Option Int) → Prop}
    (henter : ∀ r k p x, ids k p ≠ none → J r (ids k) → J (L.enter r k p x).1 (ids k))
    (hact : ∀ s a, J s.res (ids s.kernel) → J (act s a).res (ids (act s a).kernel))
    (h : J s.res (ids s.kernel)) (e : WaitEvent κ α) :
    J (waitStep L act s e).res (ids (waitStep L act s e).kernel) := by
  have hset : ∀ (p : Fin NPROC) (x : Proc), x.pid = (s.kernel.proc p).pid →
      (x.state = .unused ↔ (s.kernel.proc p).state = .unused) →
      J s.res (ids (s.kernel.setProc p x)) := by
    intro p x hpid hx
    rwa [ids_setProc hpid hx]
  have hgo : ∀ (t : WaitState ρ κ) (p : Fin NPROC) (x : κ), (t.kernel.proc p).state ≠ .unused →
      J t.res (ids t.kernel) → J (t.go L p x).res (ids (t.go L p x).kernel) := by
    intro t p x hp ht
    rw [ids_go x hp]
    exact henter _ _ _ _ (by simp [ids, hp]) ht
  cases e with
  | call p x =>
    rw [waitStep]
    split_ifs with hr
    · exact hgo s p x (by simp [hr.1]) h
    · exact h
  | dispatch p =>
    rw [waitStep]
    split_ifs with hr
    · cases s.left p with
      | none => exact hset p _ rfl (by simp [hr])
      | some x => exact hgo _ p x (by simp) (hset p _ rfl (by simp [hr]))
    · exact h
  | preempt p =>
    rw [waitStep]
    split_ifs with hr
    · exact hset p _ rfl (by simp [hr.1])
    · exact h
  | kill p pid sig =>
    rw [waitStep]
    split_ifs
    · rwa [ids_kkill]
    · exact h
  | own a => exact hact s a h

theorem Awake.go (h : Awake L s) (x : κ) : Awake L (s.go L p x) := by
  intro q hq
  cases hx : (L.enter s.res s.kernel p x).2 with
  | none =>
    simp only [WaitState.go, hx, Option.isNone_none, if_true] at hq
    exact L.stays _ _ _ _ (h q hq)
  | some y => exact L.sleeps _ _ _ _ (by simp [hx])

theorem Awake.mono {t : WaitState ρ κ} (h : Awake L s) (hres : t.res = s.res)
    (hq : ∀ q, (t.kernel.proc q).SleepsOn L.chan → (s.kernel.proc q).SleepsOn L.chan) :
    Awake L t := fun q hs => hres ▸ h q (hq q hs)

/-- Nobody is left asleep for nothing. -/
theorem Awake.step (hact : ∀ s a, Awake L s → Awake L (act s a)) (h : Awake L s)
    (e : WaitEvent κ α) : Awake L (waitStep L act s e) := by
  have hset : ∀ (p : Fin NPROC) (x : Proc), x.state ≠ .sleeping →
      Awake L { s with kernel := s.kernel.setProc p x } := fun p x hx =>
    h.mono rfl fun q hq => sleepsOn_of_setProc (fun hs => hx hs.1) hq
  cases e with
  | call p x =>
    rw [waitStep]
    split_ifs
    · exact h.go x
    · exact h
  | dispatch p =>
    rw [waitStep]
    split_ifs
    · cases s.left p with
      | none => exact hset p _ (by simp)
      | some x => exact (hset p _ (by simp)).go x
    · exact h
  | preempt p =>
    rw [waitStep]
    split_ifs
    · exact hset p _ (by simp)
    · exact h
  | kill p pid sig =>
    rw [waitStep]
    split_ifs
    · exact h.mono rfl fun q hq => sleepsOn_of_kkill hq
    · exact h
  | own a => exact hact s a h

/-- After a `wakeup` by somebody who does not sleep nobody sleeps on the channel. -/
theorem awake_signal {me : Fin NPROC} (hme : (s.kernel.proc me).state ≠ .sleeping) (r : ρ) :
    Awake L (s.signal L me r) := fun _ hq => absurd hq (wakeup_none hme)

end OsProject.Waits
