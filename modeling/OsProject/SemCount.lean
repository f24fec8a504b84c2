import OsProject.SemExclusion

/-! The value of the kernel semaphore against the number of completed calls. -/

namespace OsProject

/-- The semaphore, and the calls that were completed since `sem_init`. -/
structure SemTally where
  sem : SemState
  posts : Nat := 0
  waits : Nat := 0

def tallyStep (t : SemTally) : SemMove → SemTally
  | .call e =>
    { sem := semStep t.sem e
      posts := t.posts + (completesPost t.sem e).toList.length
      waits := t.waits + (completesWait t.sem e).toList.length }
  | .rest k ended =>
    { t with sem := { t.sem with kernel := k, waiting := fun i => !ended i && t.sem.waiting i } }

/-- The value is `v` with the completed posts and without the completed waits. -/
def CountsFrom (v : Int) (t : SemTally) : Prop := t.sem.value = v + t.posts - t.waits

/-- The number of permits is a value of type `int`. -/
def PermitsFit (v : Int) (t : SemTally) : Prop := v + t.posts - t.waits < 2 ^ 31

def NoInit : SemMove → Prop
  | .call (.init _ _) => False
  | _ => True

def ValueFits (t : SemTally) : Prop := -2 ^ 31 ≤ t.sem.value ∧ t.sem.value < 2 ^ 31

section

variable {v : Int} {t : SemTally} {m : SemMove}

theorem bmod_range (n : Int) : -2 ^ 31 ≤ n.bmod (2 ^ 32) ∧ n.bmod (2 ^ 32) < 2 ^ 31 := by
  have hlo := Int.le_bmod (x := n) (show 0 < 2 ^ 32 by decide)
  have hhi := Int.bmod_lt (x := n) (show 0 < 2 ^ 32 by decide)
  omega

theorem completesPost_of_wait {s : SemState} {e : SemEvent} {i : Fin NPROC}
    (h : completesWait s e = some i) : completesPost s e = none := by
  cases e with
  | post j => simp [completesWait] at h
  | _ => rfl

theorem valueFits_step (h : ValueFits t) (hm : NoInit m) : ValueFits (tallyStep t m) := by
  cases m with
  | rest k ended => exact h
  | call e =>
    have hvalue := semStep_value t.sem fun i x he => (he ▸ hm : NoInit (.call (.init i x)))
    rw [ValueFits, tallyStep, hvalue]
    cases hw : completesWait t.sem e with
    | some i =>
      have hpos := value_pos_of_completesWait hw
      obtain ⟨hlo, hhi⟩ := h
      change -2 ^ 31 ≤ t.sem.value - 1 ∧ t.sem.value - 1 < 2 ^ 31
      omega
    | none =>
      cases completesPost t.sem e with
      | some i => exact bmod_range _
      | none => exact h

theorem countsFrom_step (h : ValueFits t) (hc : CountsFrom v t) (hm : NoInit m) :
    CountsFrom v (tallyStep t m) ↔ PermitsFit v (tallyStep t m) := by
  rw [CountsFrom] at hc
  cases m with
  | rest k ended =>
    refine iff_of_true hc ?_
    change v + t.posts - t.waits < 2 ^ 31
    rw [← hc]
    exact h.2
  | call e =>
    have hvalue := semStep_value t.sem fun i x he => (he ▸ hm : NoInit (.call (.init i x)))
    obtain ⟨hlo, hhi⟩ := h
    rw [CountsFrom, PermitsFit, tallyStep, hvalue]
    cases hw : completesWait t.sem e with
    | some i =>
      rw [completesPost_of_wait hw]
      simp only [Option.toList_some, Option.toList_none, List.length_singleton, List.length_nil]
      omega
    | none =>
      cases completesPost t.sem e with
      | some i =>
        simp only [Option.toList_some, Option.toList_none, List.length_singleton, List.length_nil]
        have hmod := bmod_range (t.sem.value + 1)
        constructor
        · intro heq
          omega
        · intro hlt
          rw [Int.bmod_eq_of_le (by omega) (by omega)]
          omega
      | none =>
        simp only [Option.toList_none, List.length_nil]
        omega

end

/-- After `sem_init(v)` the value is `v` with the completed posts and without the completed waits, at
every point of a run, exactly when this number never gets too large for an `int`. -/
theorem semaphore_counts_iff {s : SemState} {i : Fin NPROC} {x : UInt64} (hi : s.Runs i)
    {moves : List SemMove} (hm : ∀ m ∈ moves, NoInit m) :
    Always tallyStep (CountsFrom (argint x)) { sem := semStep s (.init i x) } moves ↔
      Always tallyStep (PermitsFit (argint x)) { sem := semStep s (.init i x) } moves := by
  have hrange := argint_range x
  have hvalue : (semStep s (.init i x)).value = argint x := by
    rw [semStep, if_pos hi]
  have hno : Meets tallyStep (fun _ m => NoInit m) { sem := semStep s (.init i x) } moves :=
    meets_of_mem (fun m hmem _ => hm m hmem) _
  have hstart : PermitsFit (argint x) { sem := semStep s (.init i x) } := by
    simpa [PermitsFit] using hrange.2
  rw [always_iff_meets_of_inv (fun t m ht hA => valueFits_step ht hA)
    (fun t m ht hA hc => countsFrom_step ht hc hA) (by rw [ValueFits, hvalue]; exact hrange)
    (by simp [CountsFrom, hvalue]) hno]
  exact (always_iff_meets (fun _ _ _ => Iff.rfl) hstart moves).symm

theorem semaphore_counts_two : Always tallyStep (CountsFrom (argint 1))
    { sem := semStep semBoot (.init 0 1) }
    [.call (.wait 0), .call (.wait 1), .call (.post 0), .call (.dispatch 1)] := by
  refine (semaphore_counts_iff (by decide) ?_).mpr ?_
  · simp [NoInit]
  · refine ⟨?_, ?_, ?_, ?_, ?_⟩ <;>
      · change (_ : Int) < _
        decide

theorem sem_post_wraps : semBoot.Runs 0 ∧
    ¬ Always tallyStep (CountsFrom (argint 0x7fffffff))
      { sem := semStep semBoot (.init 0 0x7fffffff) } [.call (.post 0)] ∧
    (tallyStep { sem := semStep semBoot (.init 0 0x7fffffff) } (.call (.post 0))).sem.value =
      -2147483648 := by
  refine ⟨by decide, fun h => ?_, by decide⟩
  have hlast := h.2
  rw [Always, CountsFrom] at hlast
  exact absurd hlast (by decide)

end OsProject
