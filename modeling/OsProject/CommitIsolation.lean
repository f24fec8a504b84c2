import OsProject.LogOps

/-! Operations and commits do not overlap: while `log.committing` is set no operation is running,
so a commit finds in the header the blocks of the operations that have ended, and no others. -/

namespace OsProject

variable {ι : Type}

/-- The commit has written the blocks of the operations, each of which has called `end_op`. -/
def CommitRecord.Exact (c : CommitRecord) : Prop :=
  ∀ b, (b ∈ c.toLog ↔ ∃ op ∈ c.ops, b ∈ op) ∧ (b ∈ c.home ↔ ∃ op ∈ c.ops, b ∈ op)

/-- What must hold in every state: a running commit is alone, and what the commits so far have
written is what the operations before them have logged. -/
structure Isolated [DecidableEq ι] (s : LogSys ι) : Prop where
  outstanding : s.committing = true → s.outstanding = 0
  noBegin : s.committing = true → ∀ i, (s.beginOp i).phase i = .asleep
  noWrite : s.committing = true → ∀ i b, (s.logWrite i b).panic ≠ none
  commits : ∀ c ∈ s.commits, c.Exact

def activeOps [Fintype ι] (ph : ι → OpPhase) : Finset ι :=
  Finset.univ.filter fun i => ph i = .active

def Written (lh toLog home : List Nat) : OpPhase → Prop
  | .writingLog tail => toLog = lh.take tail ∧ home = []
  | .installing tail => toLog = lh ∧ home = lh.take tail
  | _ => True

theorem written_of_not_commits {lh toLog home : List Nat} {x : OpPhase} (hx : ¬ x.Commits) :
    Written lh toLog home x := by
  cases x <;> simp_all [Written, OpPhase.Commits]

structure LogInv [Fintype ι] (s : LogSys ι) : Prop where
  outstanding : s.outstanding = (activeOps s.phase).card
  quiet : s.committing = true → ∀ i, s.phase i ≠ .active
  committer : ∀ i, (s.phase i).Commits → s.committing = true
  unique : ∀ i j, (s.phase i).Commits → (s.phase j).Commits → i = j
  outside : ∀ i, s.phase i ≠ .active → s.logged i = []
  blocks : ∀ b, b ∈ s.lh ↔ (∃ i, b ∈ s.logged i) ∨ ∃ op ∈ s.ended, b ∈ op
  progress : ∀ i, Written s.lh s.toLog s.home (s.phase i)
  commits : ∀ c ∈ s.commits, c.Exact

def OpPhase.Waits : OpPhase → Prop
  | .idle | .asleep | .woken => True
  | _ => False

def SameWork (ph ph' : ι → OpPhase) : Prop :=
  ∀ i, ph' i = ph i ∨ (ph i).Waits ∧ (ph' i).Waits

theorem SameWork.eq_iff {ph ph' : ι → OpPhase} (h : SameWork ph ph') {x : OpPhase}
    (hx : ¬ x.Waits) (i : ι) : ph' i = x ↔ ph i = x := by
  rcases h i with he | ⟨hw, hw'⟩
  · rw [he]
  · constructor
    · rintro rfl
      exact absurd hw' hx
    · rintro rfl
      exact absurd hw hx

theorem SameWork.commits_iff {ph ph' : ι → OpPhase} (h : SameWork ph ph') (i : ι) :
    (ph' i).Commits ↔ (ph i).Commits := by
  rcases h i with he | ⟨hw, hw'⟩
  · rw [he]
  · cases hp : ph i <;> cases hp' : ph' i <;> simp_all [OpPhase.Waits, OpPhase.Commits]

variable [Fintype ι] {s : LogSys ι} {i : ι}

theorem LogInv.boot : LogInv ({} : LogSys ι) where
  outstanding := by simp [activeOps]
  quiet hc := by simp at hc
  committer i hi := by simp [OpPhase.Commits] at hi
  unique i j hi := by simp [OpPhase.Commits] at hi
  outside _ _ := rfl
  blocks := by simp
  progress _ := trivial
  commits := by simp

theorem LogInv.setPhases (h : LogInv s) {ph : ι → OpPhase} (hw : SameWork s.phase ph) :
    LogInv { s with phase := ph } where
  outstanding := by
    have he : activeOps ph = activeOps s.phase :=
      Finset.filter_congr fun i _ => hw.eq_iff (by simp [OpPhase.Waits]) i
    rw [h.outstanding, he]
  quiet hc i hi := h.quiet hc i ((hw.eq_iff (by simp [OpPhase.Waits]) i).mp hi)
  committer i hi := h.committer i ((hw.commits_iff i).mp hi)
  unique i j hi hj := h.unique i j ((hw.commits_iff i).mp hi) ((hw.commits_iff j).mp hj)
  outside i hi := h.outside i fun he => hi ((hw.eq_iff (by simp [OpPhase.Waits]) i).mpr he)
  blocks := h.blocks
  progress i := by
    rcases hw i with he | ⟨-, hw'⟩
    · simpa only [he] using h.progress i
    · refine written_of_not_commits ?_
      cases hp : ph i <;> simp_all [OpPhase.Waits, OpPhase.Commits]
  commits := h.commits

theorem LogInv.setPanic (h : LogInv s) (x : Option LogPanic) : LogInv { s with panic := x } :=
  ⟨h.outstanding, h.quiet, h.committer, h.unique, h.outside, h.blocks, h.progress, h.commits⟩

theorem LogInv.wakeup (h : LogInv s) : LogInv s.wakeup := by
  refine h.setPhases fun i => ?_
  by_cases hi : s.phase i = .asleep
  · exact .inr ⟨by simp [hi, OpPhase.Waits], by simp [hi, OpPhase.Waits]⟩
  · exact .inl (if_neg hi)

theorem LogInv.not_commits (h : LogInv s) (hi : s.phase i = .active) (j : ι) :
    ¬ (s.phase j).Commits := fun hj => h.quiet (h.committer j hj) i hi

theorem LogInv.not_committing (h : LogInv s) (hi : s.phase i = .active) : s.committing = false := by
  by_contra hc
  exact h.quiet (by simpa using hc) i hi

variable [DecidableEq ι]

theorem LogInv.setWaiting (h : LogInv s) (hi : (s.phase i).Waits) {x : OpPhase} (hx : x.Waits) :
    LogInv (s.setPhase i x) := by
  refine h.setPhases fun j => ?_
  by_cases hj : j = i
  · subst hj
    exact .inr ⟨hi, by rwa [Function.update_self]⟩
  · exact .inl (Function.update_of_ne hj _ _)

theorem card_activeOps_begin {ph : ι → OpPhase} (hi : ph i ≠ .active) :
    (activeOps (Function.update ph i .active)).card = (activeOps ph).card + 1 := by
  have he : activeOps (Function.update ph i .active) = insert i (activeOps ph) := by
    ext j
    by_cases hj : j = i <;> simp [activeOps, Function.update_apply, hj]
  rw [he, Finset.card_insert_of_notMem (by simpa [activeOps] using hi)]

theorem card_activeOps_end {ph : ι → OpPhase} (hi : ph i = .active) {x : OpPhase}
    (hx : x ≠ .active) :
    (activeOps (Function.update ph i x)).card + 1 = (activeOps ph).card := by
  have he : activeOps (Function.update ph i x) = (activeOps ph).erase i := by
    ext j
    by_cases hj : j = i <;> simp [activeOps, Function.update_apply, hj, hx]
  rw [he, Finset.card_erase_add_one (by simpa [activeOps] using hi)]

theorem LogInv.beginOp (h : LogInv s) (hi : (s.phase i).Waits) : LogInv (s.beginOp i) := by
  have hna : s.phase i ≠ .active := fun he => by simp [he, OpPhase.Waits] at hi
  rw [LogSys.beginOp]
  split_ifs with hc hfull
  · exact h.setWaiting hi (x := .asleep) trivial
  · exact h.setWaiting hi (x := .asleep) trivial
  · have hno : ∀ j, ¬ (Function.update s.phase i .active j).Commits := by
      intro j hj
      by_cases he : j = i
      · rw [he, Function.update_self] at hj
        exact hj
      · rw [Function.update_of_ne he] at hj
        exact hc (h.committer j hj)
    have hcard := card_activeOps_begin hna
    have hout := h.outstanding
    exact
      { outstanding := by
          rw [LogSys.setPhase_phase, hcard, hout]
          rfl
        quiet := fun hc' => absurd hc' hc
        committer := fun j hj => absurd hj (hno j)
        unique := fun j _ hj => absurd hj (hno j)
        outside := fun j hj => h.outside j fun he => by
          by_cases heq : j = i
          · exact hna (heq ▸ he)
          · exact hj ((Function.update_of_ne heq _ _).trans he)
        blocks := h.blocks
        progress := fun j => written_of_not_commits (hno j)
        commits := h.commits }

theorem LogInv.logWrite (h : LogInv s) (hi : s.phase i = .active) (b : Nat) :
    LogInv (s.logWrite i b) := by
  rw [LogSys.logWrite]
  split_ifs
  · exact h.setPanic _
  · exact h.setPanic _
  · have hlogged : ∀ b', (∃ j, b' ∈ Function.update s.logged i (s.logged i ++ [b]) j) ↔
        (∃ j, b' ∈ s.logged j) ∨ b' = b := by
      intro b'
      constructor
      · rintro ⟨j, hj⟩
        by_cases he : j = i
        · rw [he, Function.update_self, List.mem_append, List.mem_singleton] at hj
          exact hj.imp_left fun hj => ⟨i, hj⟩
        · rw [Function.update_of_ne he] at hj
          exact .inl ⟨j, hj⟩
      · rintro (⟨j, hj⟩ | rfl)
        · by_cases he : j = i
          · exact ⟨i, by rw [Function.update_self]; exact List.mem_append_left _ (he ▸ hj)⟩
          · exact ⟨j, by rwa [Function.update_of_ne he]⟩
        · exact ⟨i, by simp⟩
    exact
      { outstanding := h.outstanding
        quiet := h.quiet
        committer := h.committer
        unique := h.unique
        outside := fun j hj => by
          have hne : j ≠ i := fun he => hj (he ▸ hi)
          simp only [Function.update_of_ne hne]
          exact h.outside j hj
        blocks := fun b' => by
          rw [LogSys.mem_absorb, hlogged, h.blocks]
          exact or_right_comm
        progress := fun j => written_of_not_commits (h.not_commits hi j)
        commits := h.commits }

theorem LogInv.blocks_end (h : LogInv s) (i : ι) (b : Nat) :
    b ∈ s.lh ↔ (∃ j, b ∈ Function.update s.logged i [] j) ∨
      ∃ op ∈ s.ended ++ [s.logged i], b ∈ op := by
  have hlogged : (∃ j, b ∈ s.logged j) ↔
      (∃ j, b ∈ Function.update s.logged i [] j) ∨ b ∈ s.logged i := by
    constructor
    · rintro ⟨j, hj⟩
      by_cases he : j = i
      · exact .inr (he ▸ hj)
      · exact .inl ⟨j, by rwa [Function.update_of_ne he]⟩
    · rintro (⟨j, hj⟩ | hj)
      · by_cases he : j = i
        · simp [he] at hj
        · exact ⟨j, by rwa [Function.update_of_ne he] at hj⟩
      · exact ⟨i, hj⟩
  rw [h.blocks, hlogged]
  simp only [List.mem_append, List.mem_singleton, or_and_right, exists_or, exists_eq_left]
  rw [or_assoc, or_comm (a := b ∈ s.logged i)]

theorem LogInv.endOp (h : LogInv s) (hi : s.phase i = .active) : LogInv (s.endOp i) := by
  have hnc := h.not_commits hi
  have hc := h.not_committing hi
  have houtside : ∀ x j, Function.update s.phase i x j ≠ .active →
      Function.update s.logged i [] j = [] := by
    intro x j hj
    by_cases he : j = i
    · rw [he, Function.update_self]
    · rw [Function.update_of_ne he] at hj ⊢
      exact h.outside j hj
  have hcommits : ∀ {x : OpPhase} {j : ι}, (Function.update s.phase i x j).Commits → j = i := by
    intro x j hj
    by_contra he
    rw [Function.update_of_ne he] at hj
    exact hnc j hj
  have hout := h.outstanding
  rw [LogSys.endOp]
  simp only [hc, Bool.false_eq_true, if_false]
  split_ifs with hlast
  · have hcard := card_activeOps_end hi (x := .writingLog 0) (by simp)
    exact
      { outstanding := by
          have hz : s.outstanding - 1 =
              (activeOps (Function.update s.phase i (.writingLog 0))).card := by omega
          exact hz
        quiet := fun _ j hj => by
          have hmem : j ∈ activeOps (Function.update s.phase i (.writingLog 0)) :=
            Finset.mem_filter.mpr ⟨Finset.mem_univ j, hj⟩
          have hpos := Finset.card_pos.mpr ⟨j, hmem⟩
          omega
        committer := fun _ _ => rfl
        unique := fun j k hj hk => (hcommits hj).trans (hcommits hk).symm
        outside := houtside _
        blocks := h.blocks_end i
        progress := fun j => by
          by_cases he : j = i
          · simp [he, Written]
          · simp only [LogSys.setPhase_phase, Function.update_of_ne he]
            exact written_of_not_commits (hnc j)
        commits := h.commits }
  · have hcard := card_activeOps_end hi (x := .idle) (by simp)
    have hno : ∀ j, ¬ (Function.update s.phase i .idle j).Commits := by
      intro j hj
      have he := hcommits hj
      rw [he, Function.update_self] at hj
      exact hj
    refine LogInv.wakeup ?_
    exact
      { outstanding := by
          have hz : s.outstanding - 1 = (activeOps (Function.update s.phase i .idle)).card := by
            omega
          exact hz
        quiet := fun hc' => absurd hc' Bool.false_ne_true
        committer := fun j hj => absurd hj (hno j)
        unique := fun j _ hj => absurd hj (hno j)
        outside := houtside _
        blocks := h.blocks_end i
        progress := fun j => written_of_not_commits (hno j)
        commits := h.commits }

theorem LogInv.advance (h : LogInv s) (hi : (s.phase i).Commits) {x : OpPhase} (hx : x.Commits)
    {toLog home : List Nat} (hw : Written s.lh toLog home x) :
    LogInv { s.setPhase i x with toLog := toLog, home := home } := by
  have hc := h.committer i hi
  have hna : x ≠ .active := fun he => by simp [he, OpPhase.Commits] at hx
  have hactive : ∀ j, Function.update s.phase i x j = .active ↔ s.phase j = .active := by
    intro j
    by_cases he : j = i
    · rw [he, Function.update_self]
      exact iff_of_false hna (h.quiet hc i)
    · rw [Function.update_of_ne he]
  have hcommits : ∀ j, (Function.update s.phase i x j).Commits → j = i := by
    intro j hj
    by_contra he
    rw [Function.update_of_ne he] at hj
    exact he (h.unique j i hj hi)
  exact
    { outstanding := by
        have he : activeOps (Function.update s.phase i x) = activeOps s.phase :=
          Finset.filter_congr fun j _ => hactive j
        rw [LogSys.setPhase_phase, he]
        exact h.outstanding
      quiet := fun _ j hj => h.quiet hc j ((hactive j).mp hj)
      committer := fun _ _ => hc
      unique := fun j k hj hk => (hcommits j hj).trans (hcommits k hk).symm
      outside := fun j hj => h.outside j fun he => hj ((hactive j).mpr he)
      blocks := h.blocks
      progress := fun j => by
        by_cases he : j = i
        · rw [he, LogSys.setPhase_phase, Function.update_self]
          exact hw
        · exact written_of_not_commits fun hj => he (hcommits j hj)
      commits := h.commits }

theorem LogInv.erase (h : LogInv s) (hi : (s.phase i).Commits) (hlog : s.toLog = s.lh)
    (hhome : s.home = s.lh) : LogInv (s.erase i) := by
  have hc := h.committer i hi
  have hnil : ∀ j, s.logged j = [] := fun j => h.outside j (h.quiet hc j)
  have hexact : CommitRecord.Exact ⟨s.ended, s.toLog, s.home⟩ := by
    intro b
    have hb := h.blocks b
    simp only [hnil, List.not_mem_nil, exists_false, false_or] at hb
    exact ⟨by rw [hlog, hb], by rw [hhome, hb]⟩
  have hadv : LogInv { s.setPhase i .committed with toLog := s.toLog, home := s.home } :=
    h.advance (x := .committed) hi trivial trivial
  exact
    { outstanding := hadv.outstanding
      quiet := hadv.quiet
      committer := hadv.committer
      unique := hadv.unique
      outside := hadv.outside
      blocks := fun b => by simp [LogSys.erase, LogSys.setPhase, hnil]
      progress := fun j => by
        by_cases he : j = i
        · simp [LogSys.erase, he, Written]
        · refine written_of_not_commits fun hj => he ?_
          exact hadv.unique j i hj (by simp [OpPhase.Commits])
      commits := fun c hc' => by
        rcases List.mem_append.mp hc' with hold | hnew
        · exact h.commits c hold
        · rw [List.mem_singleton.mp hnew]
          exact hexact }

theorem LogInv.clear (h : LogInv s) (hi : (s.phase i).Commits) :
    LogInv { s.setPhase i .idle with committing := false } := by
  have hquiet := h.quiet (h.committer i hi)
  have hno : ∀ j, ¬ (Function.update s.phase i .idle j).Commits := by
    intro j hj
    by_cases he : j = i
    · rw [he, Function.update_self] at hj
      exact hj
    · rw [Function.update_of_ne he] at hj
      exact he (h.unique j i hj hi)
  have hactive : ∀ j, Function.update s.phase i .idle j ≠ .active := by
    intro j
    by_cases he : j = i
    · simp [he]
    · rw [Function.update_of_ne he]
      exact hquiet j
  exact
    { outstanding := by
        have he : activeOps (Function.update s.phase i .idle) = activeOps s.phase :=
          Finset.filter_congr fun j _ => iff_of_false (hactive j) (hquiet j)
        rw [LogSys.setPhase_phase, he]
        exact h.outstanding
      quiet := fun _ => hactive
      committer := fun j hj => absurd hj (hno j)
      unique := fun j _ hj => absurd hj (hno j)
      outside := fun j _ => h.outside j (hquiet j)
      blocks := h.blocks
      progress := fun j => written_of_not_commits (hno j)
      commits := h.commits }

theorem LogInv.commitStep (h : LogInv s) (i : ι) : LogInv (s.commitStep i) := by
  have hp := h.progress i
  rw [LogSys.commitStep]
  cases hi : s.phase i with
  | idle => exact h
  | asleep => exact h
  | woken => exact h
  | active => exact h
  | writingLog tail =>
    have hcommits : (s.phase i).Commits := hi ▸ trivial
    rw [hi, Written] at hp
    cases hb : s.lh[tail]? with
    | some b =>
      simp only [hb]
      refine h.advance hcommits (x := .writingLog (tail + 1)) trivial ⟨?_, hp.2⟩
      rw [hp.1, List.take_add_one, hb]
      rfl
    | none =>
      have hle : s.lh.length ≤ tail := List.getElem?_eq_none_iff.mp hb
      have hlog : s.toLog = s.lh := by rw [hp.1, List.take_of_length_le hle]
      simp only [hb]
      split_ifs with hz
      · exact h.erase hcommits hlog (by rw [hp.2, List.length_eq_zero_iff.mp hz])
      · exact h.advance hcommits (x := .installing 0) trivial ⟨hlog, by simpa using hp.2⟩
  | installing tail =>
    have hcommits : (s.phase i).Commits := hi ▸ trivial
    rw [hi, Written] at hp
    cases hb : s.lh[tail]? with
    | some b =>
      simp only [hb]
      refine h.advance hcommits (x := .installing (tail + 1)) trivial ⟨hp.1, ?_⟩
      rw [hp.2, List.take_add_one, hb]
      rfl
    | none =>
      have hle : s.lh.length ≤ tail := List.getElem?_eq_none_iff.mp hb
      simp only [hb]
      exact h.erase hcommits hp.1 (by rw [hp.2, List.take_of_length_le hle])
  | committed =>
    exact (h.clear (hi ▸ trivial)).wakeup

theorem LogInv.step (h : LogInv s) (e : LogEvent ι) : LogInv (logStep s e) := by
  unfold logStep
  split_ifs
  · exact h
  · cases e with
    | beginOp i =>
      simp only
      split_ifs with hi
      · exact h.beginOp (hi.elim (fun he => he ▸ trivial) fun he => he ▸ trivial)
      · exact h
    | logWrite i b =>
      simp only
      split_ifs with hi
      · exact h.logWrite hi b
      · exact h
    | endOp i =>
      simp only
      split_ifs with hi
      · exact h.endOp hi
      · exact h
    | commit i => exact h.commitStep i
    | wake i =>
      simp only
      split_ifs with hi
      · exact h.setWaiting (x := .woken) (hi ▸ trivial) trivial
      · exact h

theorem LogInv.isolated (h : LogInv s) : Isolated s := by
  have hzero : s.committing = true → s.outstanding = 0 := by
    intro hc
    have hnone : activeOps s.phase = ∅ := Finset.filter_false_of_mem fun i _ => h.quiet hc i
    rw [h.outstanding, hnone]
    rfl
  refine ⟨hzero, fun hc i => ?_, fun hc i b => ?_, h.commits⟩
  · simp [LogSys.beginOp, hc]
  · rw [LogSys.logWrite]
    split_ifs with hfull hout
    · simp
    · simp
    · exact absurd (hzero hc) (by omega)

end OsProject
