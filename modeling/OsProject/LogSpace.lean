import OsProject.CommitIsolation
import OsProject.Counting

/-! The space that `begin_op` reserves in the log. It covers the blocks that the operations may
still log, but `log_write` tests for a full log before it looks for absorption, so an operation
that logs one of its blocks again in a full log panics. -/

namespace OsProject

variable {ι : Type}

/-- The operation logs at most `MAXOPBLOCKS` distinct blocks. -/
def OpWithin (s : LogSys ι) : LogEvent ι → Prop
  | .logWrite i b => s.phase i = .active → (insert b (s.logged i).toFinset).card ≤ MAXOPBLOCKS
  | _ => True

structure LogOk (s : LogSys ι) : Prop where
  nodup : s.lh.Nodup
  length_le : s.lh.length ≤ LOGBLOCKS
  noPanic : s.panic ≠ some .tooBig

/-- An operation logs again a block of its own only while the log is not full. -/
def RelogsWithRoom (s : LogSys ι) : LogEvent ι → Prop
  | .logWrite i b => s.panic = none → s.phase i = .active → b ∈ s.logged i → s.lh.length < LOGBLOCKS
  | _ => True

instance (s : LogSys ι) : (e : LogEvent ι) → Decidable (OpWithin s e)
  | .logWrite i b => inferInstanceAs (Decidable (s.phase i = .active →
      (insert b (s.logged i).toFinset).card ≤ MAXOPBLOCKS))
  | .beginOp _ | .endOp _ | .commit _ | .wake _ => inferInstanceAs (Decidable True)

instance (s : LogSys ι) : (e : LogEvent ι) → Decidable (RelogsWithRoom s e)
  | .logWrite i b => inferInstanceAs (Decidable (s.panic = none → s.phase i = .active →
      b ∈ s.logged i → s.lh.length < LOGBLOCKS))
  | .beginOp _ | .endOp _ | .commit _ | .wake _ => inferInstanceAs (Decidable True)

def opRoom (x : OpPhase) (l : List Nat) : Nat :=
  if x = .active then MAXOPBLOCKS - l.toFinset.card else 0

variable [Fintype ι]

structure Reserved (s : LogSys ι) : Prop where
  inv : LogInv s
  nodup : s.lh.Nodup
  space : s.lh.length + ∑ i, opRoom (s.phase i) (s.logged i) ≤ LOGBLOCKS

variable {s s' : LogSys ι} {i : ι}

theorem sum_opRoom_le (ph : ι → OpPhase) (logged : ι → List Nat) :
    ∑ i, opRoom (ph i) (logged i) ≤ MAXOPBLOCKS * (activeOps ph).card := by
  have hle : ∀ i ∈ (Finset.univ : Finset ι),
      opRoom (ph i) (logged i) ≤ if ph i = .active then MAXOPBLOCKS else 0 := by
    intro i _
    rw [opRoom]
    split_ifs <;> omega
  refine (Finset.sum_le_sum hle).trans ?_
  rw [← Finset.sum_filter, Finset.sum_const, smul_eq_mul, mul_comm]
  rfl

theorem Reserved.keep (h : Reserved s) (hinv : LogInv s') (hlh : s'.lh = s.lh ∨ s'.lh = [])
    (hactive : ∀ i, s'.phase i = .active → s.phase i = .active ∧ s'.logged i = s.logged i) :
    Reserved s' := by
  have hroom : ∑ i, opRoom (s'.phase i) (s'.logged i) ≤ ∑ i, opRoom (s.phase i) (s.logged i) := by
    refine Finset.sum_le_sum fun i _ => ?_
    by_cases hi : s'.phase i = .active
    · obtain ⟨hs, hl⟩ := hactive i hi
      rw [hi, hs, hl]
    · simp [opRoom, hi]
  have hspace := h.space
  refine ⟨hinv, ?_, ?_⟩
  · rcases hlh with he | he
    · exact he ▸ h.nodup
    · simp [he]
  · rcases hlh with he | he
    · rw [he]
      omega
    · rw [he, List.length_nil]
      omega

variable [DecidableEq ι]

theorem Reserved.setPhase (h : Reserved s) {x : OpPhase} (hx : x ≠ .active)
    (hinv : LogInv (s.setPhase i x)) : Reserved (s.setPhase i x) := by
  refine h.keep hinv (.inl rfl) fun j hj => ?_
  by_cases he : j = i
  · rw [he, LogSys.setPhase_phase, Function.update_self] at hj
    exact absurd hj hx
  · rw [LogSys.setPhase_phase, Function.update_of_ne he] at hj
    exact ⟨hj, rfl⟩

theorem Reserved.beginOp (h : Reserved s) (hi : (s.phase i).Waits) : Reserved (s.beginOp i) := by
  have hinv := h.inv.beginOp hi
  rw [LogSys.beginOp] at hinv ⊢
  split_ifs at hinv ⊢ with hc hfull
  · exact h.setPhase (by simp) hinv
  · exact h.setPhase (by simp) hinv
  · refine ⟨hinv, h.nodup, ?_⟩
    -- The test of `begin_op` counts the whole reservation of every running operation.
    have hsum := sum_opRoom_le (Function.update s.phase i .active) s.logged
    have hout : s.outstanding + 1 = (activeOps (Function.update s.phase i .active)).card :=
      hinv.outstanding
    have hmax : MAXOPBLOCKS = 10 := rfl
    simp only [hout, hmax, gt_iff_lt, not_lt] at hfull hsum
    change s.lh.length + ∑ j, opRoom (Function.update s.phase i .active j) (s.logged j) ≤ _
    omega

theorem Reserved.logWrite (h : Reserved s) (hi : s.phase i = .active) {b : Nat}
    (hb : (insert b (s.logged i).toFinset).card ≤ MAXOPBLOCKS) : Reserved (s.logWrite i b) := by
  have hinv := h.inv.logWrite hi b
  rw [LogSys.logWrite] at hinv ⊢
  split_ifs at hinv ⊢ with hfull hout
  · exact h.keep hinv (.inl rfl) fun _ hj => ⟨hj, rfl⟩
  · exact h.keep hinv (.inl rfl) fun _ hj => ⟨hj, rfl⟩
  · refine ⟨hinv, LogSys.nodup_absorb h.nodup b, ?_⟩
    have hset : (s.logged i ++ [b]).toFinset = insert b (s.logged i).toFinset := by
      ext x
      simp
    have hsum := sum_add_of_eq_off (f := fun j => opRoom (s.phase j) (s.logged j))
      (g := fun j => opRoom (s.phase j) (Function.update s.logged i (s.logged i ++ [b]) j)) i
      fun j hj => by rw [Function.update_of_ne hj]
    simp only [Function.update_self, opRoom, hi, if_true, hset] at hsum
    have hspace := h.space
    change (LogSys.absorb s.lh b).length +
      ∑ j, opRoom (s.phase j) (Function.update s.logged i (s.logged i ++ [b]) j) ≤ _
    simp only [opRoom] at hspace ⊢
    by_cases hmem : b ∈ s.logged i
    · have hlh : b ∈ s.lh := (h.inv.blocks b).mpr (.inl ⟨i, hmem⟩)
      have hins : insert b (s.logged i).toFinset = (s.logged i).toFinset :=
        Finset.insert_eq_self.mpr (by simpa using hmem)
      rw [hins] at hsum
      rw [LogSys.absorb, if_pos hlh]
      omega
    · have hins : (insert b (s.logged i).toFinset).card = (s.logged i).toFinset.card + 1 :=
        Finset.card_insert_of_notMem (by simpa using hmem)
      have hlen : (LogSys.absorb s.lh b).length ≤ s.lh.length + 1 := by
        rw [LogSys.absorb]
        split_ifs <;> simp
      omega

omit [Fintype ι] [DecidableEq ι] in
theorem active_of_wakeup {j : ι} (hj : s.wakeup.phase j = .active) : s.phase j = .active := by
  by_cases hp : s.phase j = .asleep
  · simp [LogSys.wakeup, hp] at hj
  · simpa [LogSys.wakeup, hp] using hj

omit [Fintype ι] in
theorem active_of_update {x : OpPhase} {j : ι} (hx : x ≠ .active)
    (hj : Function.update s.phase i x j = .active) : j ≠ i ∧ s.phase j = .active := by
  by_cases he : j = i
  · rw [he, Function.update_self] at hj
    exact absurd hj hx
  · rw [Function.update_of_ne he] at hj
    exact ⟨he, hj⟩

theorem Reserved.endOp (h : Reserved s) (hi : s.phase i = .active) : Reserved (s.endOp i) := by
  have hinv := h.inv.endOp hi
  have hc := h.inv.not_committing hi
  simp only [LogSys.endOp, hc, Bool.false_eq_true, if_false] at hinv ⊢
  split_ifs at hinv ⊢
  · refine h.keep hinv (.inl rfl) fun j hj => ?_
    obtain ⟨hne, hj⟩ := active_of_update (by simp) hj
    exact ⟨hj, Function.update_of_ne hne _ _⟩
  · refine h.keep hinv (.inl rfl) fun j hj => ?_
    obtain ⟨hne, hj⟩ := active_of_update (by simp) (active_of_wakeup hj)
    exact ⟨hj, Function.update_of_ne hne _ _⟩

omit [Fintype ι] in
theorem commitStep_keeps (s : LogSys ι) (i : ι) :
    ((s.commitStep i).lh = s.lh ∨ (s.commitStep i).lh = []) ∧
      (s.commitStep i).logged = s.logged ∧ (s.commitStep i).panic = s.panic ∧
      ∀ j, (s.commitStep i).phase j = .active → s.phase j = .active := by
  have hupdate : ∀ {x : OpPhase} (j : ι), x ≠ .active → Function.update s.phase i x j = .active →
      s.phase j = .active := fun j hx hj => (active_of_update hx hj).2
  unfold LogSys.commitStep
  cases hi : s.phase i with
  | idle => exact ⟨.inl rfl, rfl, rfl, fun _ hj => hj⟩
  | asleep => exact ⟨.inl rfl, rfl, rfl, fun _ hj => hj⟩
  | woken => exact ⟨.inl rfl, rfl, rfl, fun _ hj => hj⟩
  | active => exact ⟨.inl rfl, rfl, rfl, fun _ hj => hj⟩
  | writingLog tail =>
    cases hb : s.lh[tail]? with
    | some b =>
      simp only [hb]
      exact ⟨.inl rfl, rfl, rfl, fun j => hupdate j (by simp)⟩
    | none =>
      simp only [hb]
      split_ifs
      · exact ⟨.inr rfl, rfl, rfl, fun j => hupdate j (by simp)⟩
      · exact ⟨.inl rfl, rfl, rfl, fun j => hupdate j (by simp)⟩
  | installing tail =>
    cases hb : s.lh[tail]? with
    | some b =>
      simp only [hb]
      exact ⟨.inl rfl, rfl, rfl, fun j => hupdate j (by simp)⟩
    | none =>
      simp only [hb]
      exact ⟨.inr rfl, rfl, rfl, fun j => hupdate j (by simp)⟩
  | committed =>
    refine ⟨.inl rfl, rfl, rfl, fun j hj => ?_⟩
    exact hupdate (x := .idle) j (by simp) (active_of_wakeup (s := s.setPhase i .idle) hj)

omit [Fintype ι] in
theorem logStep_lh (s : LogSys ι) (e : LogEvent ι) :
    (logStep s e).lh = s.lh ∨ (logStep s e).lh = [] ∨
      ∃ i b, e = .logWrite i b ∧ (logStep s e).lh = LogSys.absorb s.lh b := by
  unfold logStep
  split_ifs
  · exact .inl rfl
  · cases e with
    | beginOp i =>
      refine .inl ?_
      simp only [LogSys.beginOp]
      split_ifs <;> rfl
    | logWrite i b =>
      simp only [LogSys.logWrite]
      split_ifs
      · exact .inl rfl
      · exact .inl rfl
      · exact .inr (.inr ⟨i, b, rfl, rfl⟩)
      · exact .inl rfl
    | endOp i =>
      refine .inl ?_
      simp only [LogSys.endOp]
      split_ifs <;> rfl
    | commit i => exact (commitStep_keeps s i).1.imp_right .inl
    | wake i =>
      refine .inl ?_
      simp only
      split_ifs <;> rfl

theorem Reserved.step (h : Reserved s) {e : LogEvent ι} (he : OpWithin s e) :
    Reserved (logStep s e) := by
  unfold logStep
  split_ifs
  · exact h
  · cases e with
    | beginOp i =>
      simp only
      split_ifs with hi
      · exact h.beginOp (hi.elim (fun he => he ▸ trivial) fun he => he ▸ trivial)
      · exact h
    | logWrite i b =>
      simp only
      split_ifs with hi
      · exact h.logWrite hi (he hi)
      · exact h
    | endOp i =>
      simp only
      split_ifs with hi
      · exact h.endOp hi
      · exact h
    | commit i =>
      obtain ⟨hlh, hlogged, -, hactive⟩ := commitStep_keeps s i
      exact h.keep (h.inv.commitStep i) hlh fun j hj => ⟨hactive j hj, by rw [hlogged]⟩
    | wake i =>
      simp only
      split_ifs with hi
      · exact h.setPhase (by simp) (h.inv.setWaiting (x := .woken) (hi ▸ trivial) trivial)
      · exact h

omit [Fintype ι] in
theorem tooBig_iff (s : LogSys ι) (e : LogEvent ι) :
    (logStep s e).panic = some .tooBig ↔ s.panic = some .tooBig ∨
      ∃ i b, e = .logWrite i b ∧ s.panic = none ∧ s.phase i = .active ∧
        LOGBLOCKS ≤ s.lh.length := by
  by_cases hp : s.panic = none
  · have hstep : ∀ {t : LogSys ι}, t.panic = s.panic ∨ t.panic = some .committing →
        (∀ i b, e ≠ .logWrite i b) → (t.panic = some .tooBig ↔ s.panic = some .tooBig ∨
          ∃ i b, e = .logWrite i b ∧ s.panic = none ∧ s.phase i = .active ∧
            LOGBLOCKS ≤ s.lh.length) := by
      rintro t (ht | ht) hne <;> simp [ht, hp, hne]
    unfold logStep
    rw [if_neg (by simpa using hp)]
    cases e with
    | beginOp i =>
      refine hstep (.inl ?_) (by simp)
      simp only [LogSys.beginOp]
      split_ifs <;> rfl
    | logWrite i b =>
      by_cases hi : s.phase i = .active
      · by_cases hfull : LOGBLOCKS ≤ s.lh.length
        · simp [LogSys.logWrite, hi, hfull, hp]
        · by_cases hout : s.outstanding < 1 <;> simp [LogSys.logWrite, hi, hfull, hp, hout]
      · simp [hi, hp]
    | endOp i =>
      refine hstep ?_ (by simp)
      simp only [LogSys.endOp]
      split_ifs
      · exact .inr rfl
      · exact .inl rfl
      · exact .inl rfl
      · exact .inl rfl
    | commit i => exact hstep (.inl (commitStep_keeps s i).2.2.1) (by simp)
    | wake i =>
      refine hstep (.inl ?_) (by simp)
      simp only
      split_ifs <;> rfl
  · simp [logStep, hp]

theorem logOk_step_iff (h : Reserved s) {e : LogEvent ι} (hop : OpWithin s e) (hok : LogOk s) :
    LogOk (logStep s e) ↔ RelogsWithRoom s e := by
  have hstep := h.step hop
  have hle : (logStep s e).lh.length ≤ LOGBLOCKS := by
    have hspace := hstep.space
    omega
  have hbig := tooBig_iff s e
  constructor
  · rintro ⟨-, -, hno⟩
    cases e with
    | logWrite i b =>
      intro hp hi _
      by_contra hfull
      exact hno (hbig.mpr (.inr ⟨i, b, rfl, hp, hi, by omega⟩))
    | _ => trivial
  · intro hroom
    refine ⟨hstep.nodup, hle, fun hpanic => ?_⟩
    rcases hbig.mp hpanic with hp | ⟨i, b, rfl, hp, hi, hfull⟩
    · exact hok.noPanic hp
    · by_cases hb : b ∈ s.logged i
      · have hlt := hroom hp hi hb
        omega
      · -- A block that is new to the operation finds room that is reserved for it.
        have hins : (insert b (s.logged i).toFinset).card = (s.logged i).toFinset.card + 1 :=
          Finset.card_insert_of_notMem (by simpa using hb)
        have hcard := hop hi
        have hone : 1 ≤ opRoom (s.phase i) (s.logged i) := by
          rw [opRoom, if_pos hi]
          omega
        have hsum := Finset.single_le_sum (f := fun j => opRoom (s.phase j) (s.logged j))
          (fun _ _ => Nat.zero_le _) (Finset.mem_univ i)
        have hspace := h.space
        omega

omit [DecidableEq ι] in
theorem Reserved.boot : Reserved ({} : LogSys ι) :=
  ⟨.boot, List.nodup_nil, by simp [opRoom]⟩

/-- In a run of operations that log at most `MAXOPBLOCKS` distinct blocks each, the header stays
within its bounds and `log_write` never finds the log full, exactly when no operation logs one of
its blocks again in a full log. -/
theorem logOk_iff (events : List (LogEvent ι)) (hop : Meets logStep OpWithin {} events) :
    Always logStep LogOk ({} : LogSys ι) events ↔ Meets logStep RelogsWithRoom {} events :=
  always_iff_meets_of_inv (fun _ _ h he => h.step he) (fun _ _ h he hok => logOk_step_iff h he hok)
    .boot ⟨List.nodup_nil, by simp, by simp⟩ hop

def tenBlocks (i : Fin 3) : List (LogEvent (Fin 3)) :=
  (List.range 10).map fun b => .logWrite i (100 * (i.val + 1) + b)

def fillLog : List (LogEvent (Fin 3)) :=
  [.beginOp 0, .beginOp 1, .beginOp 2] ++ tenBlocks 0 ++ tenBlocks 1 ++ tenBlocks 2

def fillAndEnd : List (LogEvent (Fin 3)) := fillLog ++ [.endOp 0, .endOp 1, .endOp 2]

theorem logOk_full : Always logStep LogOk {} fillAndEnd :=
  (logOk_iff _ (by decide +kernel)).mpr (by decide +kernel)

theorem relog_in_full_log : Meets logStep OpWithin {} (fillLog ++ [.logWrite 0 100]) ∧
    ¬ Always logStep LogOk {} (fillLog ++ [.logWrite 0 100]) := by
  refine ⟨by decide +kernel, fun h => h.last.noPanic ?_⟩
  decide +kernel

end OsProject
