import OsProject.CommitIsolation

/-! Processes that sleep in `begin_op`. Whenever the test of `begin_op` may have become false there
has been a `wakeup`, so a process that sleeps still has what it waits for ahead of it: the end of
a commit, or of an operation. -/

namespace OsProject

variable {ι : Type}

def LogSys.Full (s : LogSys ι) : Prop :=
  s.lh.length + (s.outstanding + 1) * MAXOPBLOCKS > LOGBLOCKS

structure Waiters (s : LogSys ι) : Prop where
  drained : s.committing = false → s.outstanding = 0 → s.lh = []
  erased : ∀ i, s.phase i = .committed → s.lh = []
  blocked : ∀ i, s.phase i = .asleep → s.committing = true ∨ s.Full

/-- A process that sleeps waits for a commit that is running, or for an operation that is. -/
def NoneStranded (s : LogSys ι) : Prop :=
  ∀ i, s.phase i = .asleep → s.committing = true ∨ s.Full ∧ 0 < s.outstanding

variable {s s' : LogSys ι} {i : ι}

theorem waiters_of_committing (hc : s.committing = true)
    (herased : ∀ i, s.phase i = .committed → s.lh = []) : Waiters s where
  drained hc' := by simp [hc] at hc'
  erased := herased
  blocked _ _ := .inl hc

theorem LogSys.Full.mono (h : s.Full) (hlh : s.lh.length ≤ s'.lh.length)
    (hout : s.outstanding ≤ s'.outstanding) : s'.Full := by
  have hmax : MAXOPBLOCKS = 10 := rfl
  simp only [LogSys.Full, hmax] at h ⊢
  push_cast at h ⊢
  omega

theorem not_asleep_wakeup (s : LogSys ι) (i : ι) : s.wakeup.phase i ≠ .asleep := by
  by_cases hi : s.phase i = .asleep
  · simp [LogSys.wakeup, hi]
  · simp [LogSys.wakeup, hi]

theorem committed_of_wakeup (hi : s.wakeup.phase i = .committed) : s.phase i = .committed := by
  by_cases hs : s.phase i = .asleep
  · simp [LogSys.wakeup, hs] at hi
  · simpa [LogSys.wakeup, hs] using hi

theorem length_le_absorb (lh : List Nat) (b : Nat) : lh.length ≤ (LogSys.absorb lh b).length := by
  rw [LogSys.absorb]
  split_ifs
  · exact le_rfl
  · simp

section Steps

variable [DecidableEq ι]

theorem Waiters.setPhase (h : Waiters s) {x : OpPhase} (hx : x ≠ .committed)
    (hasleep : x = .asleep → s.committing = true ∨ s.Full) : Waiters (s.setPhase i x) := by
  have hphase : ∀ {j y}, (s.setPhase i x).phase j = y → j = i ∧ x = y ∨ s.phase j = y := by
    intro j y hj
    by_cases he : j = i
    · rw [he, LogSys.setPhase_phase, Function.update_self] at hj
      exact .inl ⟨he, hj⟩
    · rw [LogSys.setPhase_phase, Function.update_of_ne he] at hj
      exact .inr hj
  refine ⟨h.drained, fun j hj => ?_, fun j hj => ?_⟩
  · rcases hphase hj with ⟨-, hxe⟩ | hj
    · exact absurd hxe hx
    · exact h.erased j hj
  · rcases hphase hj with ⟨-, hxe⟩ | hj
    · exact hasleep hxe
    · exact h.blocked j hj

variable [Fintype ι]

theorem Waiters.beginOp (h : Waiters s) (hinv : LogInv s) : Waiters (s.beginOp i) := by
  rw [LogSys.beginOp]
  split_ifs with hc hfull
  · exact h.setPhase (by simp) fun _ => .inl hc
  · exact h.setPhase (by simp) fun _ => .inr hfull
  · have hset : Waiters (s.setPhase i .active) := h.setPhase (by simp) (by simp)
    have hout := hinv.outstanding
    refine ⟨fun _ hzero => ?_, hset.erased, fun j hj => ?_⟩
    · have hzero' : s.outstanding + 1 = 0 := hzero
      omega
    · refine (hset.blocked j hj).imp id fun hf => hf.mono le_rfl ?_
      show s.outstanding ≤ s.outstanding + 1
      omega

theorem Waiters.logWrite (h : Waiters s) (hinv : LogInv s) (hi : s.phase i = .active) (b : Nat) :
    Waiters (s.logWrite i b) := by
  rw [LogSys.logWrite]
  split_ifs with hfull hout
  · exact ⟨h.drained, h.erased, h.blocked⟩
  · exact ⟨h.drained, h.erased, h.blocked⟩
  · refine ⟨fun _ hzero => ?_, fun j hj => ?_, fun j hj => ?_⟩
    · have hzero' : s.outstanding = 0 := hzero
      omega
    · have hcommits : ¬ (s.phase j).Commits := hinv.not_commits hi j
      have hj' : s.phase j = .committed := hj
      rw [hj'] at hcommits
      exact absurd trivial hcommits
    · exact (h.blocked j hj).imp id fun hf => hf.mono (length_le_absorb s.lh b) le_rfl

theorem Waiters.endOp (hinv : LogInv s) (hi : s.phase i = .active) : Waiters (s.endOp i) := by
  have hc := hinv.not_committing hi
  -- no process is in a commit
  have hcommitted : ∀ {x : OpPhase} {j : ι}, x ≠ .committed →
      Function.update s.phase i x j ≠ .committed := by
    intro x j hx hj
    by_cases he : j = i
    · rw [he, Function.update_self] at hj
      exact hx hj
    · rw [Function.update_of_ne he] at hj
      have hcommits := hinv.not_commits hi j
      rw [hj] at hcommits
      exact hcommits trivial
  simp only [LogSys.endOp, hc, Bool.false_eq_true, if_false]
  split_ifs with hzero
  · exact waiters_of_committing rfl fun j hj => absurd hj (hcommitted (by simp))
  · refine ⟨fun _ hz => absurd hz hzero, fun j hj => ?_, fun j hj => ?_⟩
    · exact absurd (committed_of_wakeup hj) (hcommitted (by simp))
    · exact absurd hj (not_asleep_wakeup _ j)

theorem Waiters.commitStep (h : Waiters s) (hinv : LogInv s) : Waiters (s.commitStep i) := by
  -- the committing process goes on to a phase before the last one
  have hgo : ∀ {x : OpPhase}, (s.phase i).Commits → x ≠ .committed →
      ∀ {t : LogSys ι}, t.phase = Function.update s.phase i x → t.lh = s.lh →
        t.committing = s.committing → Waiters t := by
    intro x hi hx t hphase hlh hc
    refine waiters_of_committing (hc.trans (hinv.committer i hi)) fun j hj => ?_
    rw [hphase] at hj
    by_cases he : j = i
    · rw [he, Function.update_self] at hj
      exact absurd hj hx
    · rw [Function.update_of_ne he] at hj
      rw [hlh, h.erased j hj]
  have herase : (s.phase i).Commits → Waiters (s.erase i) := fun hi =>
    waiters_of_committing (hinv.committer i hi) fun _ _ => rfl
  unfold LogSys.commitStep
  cases hi : s.phase i with
  | idle => exact h
  | asleep => exact h
  | woken => exact h
  | active => exact h
  | writingLog tail =>
    have hcommits : (s.phase i).Commits := by rw [hi]; trivial
    cases hb : s.lh[tail]? with
    | some b =>
      simp only [hb]
      exact hgo hcommits (x := .writingLog (tail + 1)) (by simp) rfl rfl rfl
    | none =>
      simp only [hb]
      split_ifs
      · exact herase hcommits
      · exact hgo hcommits (x := .installing 0) (by simp) rfl rfl rfl
  | installing tail =>
    have hcommits : (s.phase i).Commits := by rw [hi]; trivial
    cases hb : s.lh[tail]? with
    | some b =>
      simp only [hb]
      exact hgo hcommits (x := .installing (tail + 1)) (by simp) rfl rfl rfl
    | none =>
      simp only [hb]
      exact herase hcommits
  | committed =>
    have hlh : s.lh = [] := h.erased i hi
    exact ⟨fun _ _ => hlh, fun _ _ => hlh, fun j hj => absurd hj (not_asleep_wakeup _ j)⟩

theorem Waiters.step (h : Waiters s) (hinv : LogInv s) (e : LogEvent ι) : Waiters (logStep s e) := by
  unfold logStep
  split_ifs
  · exact h
  · cases e with
    | beginOp i =>
      simp only
      split_ifs
      · exact h.beginOp hinv
      · exact h
    | logWrite i b =>
      simp only
      split_ifs with hi
      · exact h.logWrite hinv hi b
      · exact h
    | endOp i =>
      simp only
      split_ifs with hi
      · exact Waiters.endOp hinv hi
      · exact h
    | commit i => exact h.commitStep hinv
    | wake i =>
      simp only
      split_ifs
      · exact h.setPhase (by simp) (by simp)
      · exact h

omit [DecidableEq ι] in
theorem Waiters.noneStranded (h : Waiters s) (hinv : LogInv s) : NoneStranded s := by
  intro i hi
  have hcount := hinv.outstanding
  rcases h.blocked i hi with hc | hfull
  · exact .inl hc
  · by_cases hc : s.committing = true
    · exact .inl hc
    · refine .inr ⟨hfull, ?_⟩
      by_contra hle
      have hzero : s.outstanding = 0 := by omega
      have hlh : s.lh = [] := h.drained (by simpa using hc) hzero
      have hmax : MAXOPBLOCKS = 10 := rfl
      have hblocks : LOGBLOCKS = 30 := rfl
      rw [LogSys.Full, hlh, hzero, hmax, hblocks] at hfull
      simp at hfull

end Steps

theorem no_stranded_waiter (ι : Type) [Fintype ι] [DecidableEq ι] (events : List (LogEvent ι)) :
    Always logStep NoneStranded ({} : LogSys ι) events := by
  have hboot : LogInv ({} : LogSys ι) ∧ Waiters ({} : LogSys ι) := by
    refine ⟨.boot, fun _ _ => rfl, fun _ _ => rfl, fun i hi => ?_⟩
    simp at hi
  exact always_of_inv (I := fun s => LogInv s ∧ Waiters s)
    (fun _ e h => ⟨h.1.step e, h.2.step h.1 e⟩) (fun _ h => h.2.noneStranded h.1) hboot events

end OsProject
