import OsProject.Counting
import OsProject.Semaphore

/-! Mutual exclusion by the kernel semaphore. After `sem_init(k)` the value and the waits that have
not been given back add up to `k` at most, whoever wakes the sleepers and why. -/

namespace OsProject

/-- The semaphore and its use since the last `sem_init`: how many completed waits of each process
have not been matched by a post, and which processes have not posted since their last one. -/
structure SemUse where
  sem : SemState
  held : Fin NPROC → Nat := fun _ => 0
  inside : Fin NPROC → Bool := fun _ => false

/-- A step of the semaphore, or anything that the rest of the kernel does to the process table:
wakeups without a post, sleeps, forks and exits. The slots in `ended` have lost their process. -/
inductive SemMove
  | call (e : SemEvent)
  | rest (k : Kernel) (ended : Fin NPROC → Bool)

/-- The process whose `sem_wait` returns in this step. -/
def completesWait (s : SemState) : SemEvent → Option (Fin NPROC)
  | .wait i => if s.Runs i ∧ 0 < s.value then some i else none
  | .dispatch i =>
    if (s.kernel.proc i).state = .runnable ∧ s.waiting i ∧ 0 < s.value then some i else none
  | _ => none

def completesPost (s : SemState) : SemEvent → Option (Fin NPROC)
  | .post i => if s.Runs i then some i else none
  | _ => none

def SemUse.enter (u : SemUse) (i : Fin NPROC) : SemUse :=
  { u with
    held := Function.update u.held i (u.held i + 1)
    inside := Function.update u.inside i true }

def SemUse.leave (u : SemUse) (i : Fin NPROC) : SemUse :=
  { u with
    held := Function.update u.held i (u.held i - 1)
    inside := Function.update u.inside i false }

def useStep (u : SemUse) : SemMove → SemUse
  | .call e =>
    let next : SemUse := { u with sem := semStep u.sem e }
    match completesWait u.sem e, completesPost u.sem e with
    | some i, _ => next.enter i
    | none, some i => next.leave i
    | none, none => next
  | .rest k ended =>
    { sem := { u.sem with kernel := k, waiting := fun i => !ended i && u.sem.waiting i }
      held := fun i => if ended i then 0 else u.held i
      inside := fun i => !ended i && u.inside i }

/-- No further `sem_init`, and a process posts only after a completed wait of its own. -/
def Disciplined (u : SemUse) : SemMove → Prop
  | .call (.init _ _) => False
  | .call (.post i) => u.sem.Runs i → 0 < u.held i
  | _ => True

instance (u : SemUse) : ∀ m, Decidable (Disciplined u m)
  | .call (.init _ _) => inferInstanceAs (Decidable False)
  | .call (.post i) => inferInstanceAs (Decidable (u.sem.Runs i → 0 < u.held i))
  | .call (.wait _) | .call (.kill _ _ _) | .call (.dispatch _) | .call (.preempt _) |
    .rest _ _ => inferInstanceAs (Decidable True)

/-- At most `k` processes are between a completed `sem_wait` and their next `sem_post`. -/
def Excludes (k : Int) (u : SemUse) : Prop :=
  ((Finset.univ.filter fun i => u.inside i = true).card : Int) ≤ k ∧ 0 ≤ u.sem.value

structure SemInv (k : Int) (u : SemUse) : Prop where
  nonneg : 0 ≤ u.sem.value
  total : u.sem.value + ((∑ i, u.held i : Nat) : Int) ≤ k
  inside : ∀ i, u.inside i = true → 0 < u.held i

theorem SemInv.excludes {k : Int} {u : SemUse} (h : SemInv k u) : Excludes k u := by
  refine ⟨?_, h.nonneg⟩
  have hcard : (Finset.univ.filter fun i => u.inside i = true).card ≤ ∑ i, u.held i := by
    rw [Finset.card_filter]
    refine Finset.sum_le_sum fun i _ => ?_
    split_ifs with hi
    · exact h.inside i hi
    · exact Nat.zero_le _
  have := h.nonneg
  have := h.total
  omega

theorem SemInv.enter {k : Int} {u : SemUse} (h : SemInv k u) (hv : 0 < u.sem.value)
    {s : SemState} (hs : s.value = u.sem.value - 1) (i : Fin NPROC) :
    SemInv k (SemUse.enter { u with sem := s } i) := by
  have hsum := sum_update_add u.held id i (u.held i + 1)
  simp only [id_eq] at hsum
  have htotal := h.total
  refine ⟨?_, ?_, fun j hj => ?_⟩
  · change 0 ≤ s.value
    omega
  · change s.value + ((∑ j, Function.update u.held i (u.held i + 1) j : Nat) : Int) ≤ k
    omega
  · change 0 < Function.update u.held i (u.held i + 1) j
    by_cases hij : j = i
    · rw [hij, Function.update_self]
      exact Nat.succ_pos _
    · simp only [SemUse.enter, Function.update_of_ne hij] at hj ⊢
      exact h.inside j hj

theorem SemInv.leave {k : Int} {u : SemUse} (h : SemInv k u) {i : Fin NPROC} (hi : 0 < u.held i)
    {s : SemState} (hs : s.value = u.sem.value + 1) :
    SemInv k (SemUse.leave { u with sem := s } i) := by
  have hsum := sum_update_add u.held id i (u.held i - 1)
  simp only [id_eq] at hsum
  have htotal := h.total
  have hnonneg := h.nonneg
  refine ⟨?_, ?_, fun j hj => ?_⟩
  · change 0 ≤ s.value
    omega
  · change s.value + ((∑ j, Function.update u.held i (u.held i - 1) j : Nat) : Int) ≤ k
    omega
  · by_cases hij : j = i
    · simp [SemUse.leave, hij] at hj
    · simp only [SemUse.leave, Function.update_of_ne hij] at hj ⊢
      exact h.inside j hj

theorem SemInv.value_lt {k : Int} {u : SemUse} (h : SemInv k u) {i : Fin NPROC}
    (hi : 0 < u.held i) : u.sem.value < k := by
  have hle : u.held i ≤ ∑ j, u.held j :=
    Finset.single_le_sum (fun _ _ => Nat.zero_le _) (Finset.mem_univ i)
  have := h.total
  omega

theorem semTry_value (s : SemState) (i : Fin NPROC) :
    (semTry s i).value = if 0 < s.value then s.value - 1 else s.value := by
  by_cases hv : 0 < s.value
  · rw [semTry, if_neg (not_le.mpr hv), if_pos hv]
  · rw [semTry, if_pos (not_lt.mp hv), if_neg hv]

theorem semStep_value (s : SemState) {e : SemEvent} (he : ∀ i x, e ≠ .init i x) :
    (semStep s e).value =
      match completesWait s e, completesPost s e with
      | some _, _ => s.value - 1
      | none, some _ => (s.value + 1).bmod (2 ^ 32)
      | none, none => s.value := by
  cases e with
  | init i x => exact absurd rfl (he i x)
  | wait i =>
    by_cases hr : s.Runs i
    · by_cases hv : 0 < s.value <;>
        simp [semStep, completesWait, completesPost, hr, hv, semTry_value]
    · simp [semStep, completesWait, completesPost, hr]
  | post i =>
    by_cases hr : s.Runs i <;> simp only [semStep, completesWait, completesPost, hr, if_true, if_false]
  | kill i pid sig => by_cases hr : s.Runs i <;> simp [semStep, completesWait, completesPost, hr]
  | dispatch i =>
    by_cases hr : (s.kernel.proc i).state = .runnable
    · by_cases hw : s.waiting i = true
      · by_cases hv : 0 < s.value <;>
          simp [semStep, completesWait, completesPost, hr, hw, hv, semTry_value]
      · simp [semStep, completesWait, completesPost, hr, hw, SemState.setState]
    · simp [semStep, completesWait, completesPost, hr]
  | preempt i =>
    by_cases hr : s.Runs i <;> simp [semStep, completesWait, completesPost, hr, SemState.setState]

theorem value_pos_of_completesWait {s : SemState} {e : SemEvent} {i : Fin NPROC}
    (h : completesWait s e = some i) : 0 < s.value := by
  cases e with
  | wait j =>
    simp only [completesWait, Option.ite_none_right_eq_some] at h
    exact h.1.2
  | dispatch j =>
    simp only [completesWait, Option.ite_none_right_eq_some] at h
    exact h.1.2.2
  | _ => simp [completesWait] at h

theorem held_of_completesPost {u : SemUse} {e : SemEvent} {i : Fin NPROC}
    (hd : Disciplined u (.call e)) (h : completesPost u.sem e = some i) : 0 < u.held i := by
  cases e with
  | post j =>
    simp only [completesPost, Option.ite_none_right_eq_some, Option.some.injEq] at h
    exact h.2 ▸ hd h.1
  | _ => simp [completesPost] at h

theorem semInv_call {k : Int} (hk : k < 2 ^ 31) {u : SemUse} (h : SemInv k u) {e : SemEvent}
    (hd : Disciplined u (.call e)) : SemInv k (useStep u (.call e)) := by
  have hvalue := semStep_value u.sem fun i x he => (he ▸ hd : Disciplined u (.call (.init i x)))
  simp only [useStep]
  cases hw : completesWait u.sem e with
  | some i =>
    simp only [hw] at hvalue ⊢
    exact h.enter (value_pos_of_completesWait hw) hvalue i
  | none =>
    cases hp : completesPost u.sem e with
    | some i =>
      have hheld := held_of_completesPost hd hp
      have hlt := h.value_lt hheld
      have hnonneg := h.nonneg
      have hmod : (u.sem.value + 1).bmod (2 ^ 32) = u.sem.value + 1 :=
        Int.bmod_eq_of_le (by omega) (by omega)
      simp only [hw, hp, hmod] at hvalue ⊢
      exact h.leave hheld hvalue
    | none =>
      simp only [hw, hp] at hvalue ⊢
      exact ⟨hvalue.symm ▸ h.nonneg, hvalue.symm ▸ h.total, h.inside⟩

theorem semInv_rest {k : Int} {u : SemUse} (h : SemInv k u) (kernel : Kernel)
    (ended : Fin NPROC → Bool) : SemInv k (useStep u (.rest kernel ended)) := by
  have hle : ∑ i, (if ended i then 0 else u.held i) ≤ ∑ i, u.held i :=
    Finset.sum_le_sum fun i _ => by split_ifs <;> omega
  have htotal := h.total
  refine ⟨h.nonneg, ?_, fun i hi => ?_⟩
  · change u.sem.value + ((∑ i, (if ended i then 0 else u.held i) : Nat) : Int) ≤ k
    omega
  · simp only [useStep, Bool.and_eq_true, Bool.not_eq_true'] at hi ⊢
    rw [hi.1]
    exact h.inside i hi.2

theorem semInv_step {k : Int} (hk : k < 2 ^ 31) (u : SemUse) (m : SemMove) (h : SemInv k u)
    (hd : Disciplined u m) : SemInv k (useStep u m) := by
  cases m with
  | call e => exact semInv_call hk h hd
  | rest kernel ended => exact semInv_rest h kernel ended

/-- In every run after `sem_init(k)`, from any state of the semaphore and its waiters. -/
theorem semaphore_excludes {s : SemState} {i : Fin NPROC} {x : UInt64} (hi : s.Runs i)
    (hx : 0 ≤ argint x) {moves : List SemMove}
    (hd : Meets useStep Disciplined { sem := semStep s (.init i x) } moves) :
    Always useStep (Excludes (argint x)) { sem := semStep s (.init i x) } moves := by
  have hvalue : (semStep s (.init i x)).value = argint x := by
    rw [semStep, if_pos hi]
  refine always_of_meets (semInv_step (argint_range x).2) (fun _ h => h.excludes)
    ⟨hvalue.symm ▸ hx, ?_, by simp⟩ hd
  simp [hvalue]

theorem semaphore_excludes_two : semBoot.Runs 0 ∧ 0 ≤ argint 1 ∧
    Always useStep (Excludes (argint 1)) { sem := semStep semBoot (.init 0 1) }
      [.call (.wait 0), .call (.wait 1), .call (.kill 0 2 9), .call (.dispatch 1),
        .call (.post 0), .call (.dispatch 1)] :=
  ⟨by decide, by decide, semaphore_excludes (by decide) (by decide) (by decide +kernel)⟩

end OsProject
