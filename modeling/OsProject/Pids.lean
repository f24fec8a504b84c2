import OsProject.ReapOnce

/-! Process ids. `allocpid` counts up in a 32-bit `int`, so the ids are distinct and positive as
long as it has not come round. -/

namespace OsProject.Life

/-- Every process has a positive pid of its own, by which `kkill` and `sys_send` find it. -/
structure PidsOk (s : LifeState) : Prop where
  positive : ∀ i, (s.kernel.proc i).state ≠ .unused → 0 < (s.kernel.proc i).pid
  distinct : ∀ i j, (s.kernel.proc i).state ≠ .unused → (s.kernel.proc j).state ≠ .unused →
    (s.kernel.proc i).pid = (s.kernel.proc j).pid → i = j
  found : ∀ i, (s.kernel.proc i).state ≠ .unused →
    pidSlot s.kernel (s.kernel.proc i).pid = some i

/-- A call of `allocpid`. -/
def LifeEvent.isFork : LifeEvent → Bool
  | .kfork .. => true
  | _ => false

structure PidInv (n : Nat) (s : LifeState) : Prop where
  life : LifeInv s
  next : n + 2 < 2 ^ 31 → s.kernel.nextpid = n + 2
  pid : ∀ i, s.family.kind i ≠ .unused → 0 < s.family.pid i ∧ s.family.pid i < n + 2
  distinct : ∀ i j, s.family.kind i ≠ .unused → s.family.kind j ≠ .unused →
    s.family.pid i = s.family.pid j → i = j

variable {s : LifeState} {n : Nat}

theorem pidSlot_eq {k : Kernel} {i : Fin NPROC} (h : ∀ j, (k.proc j).pid = (k.proc i).pid → j = i) :
    pidSlot k (k.proc i).pid = some i := by
  cases hf : pidSlot k (k.proc i).pid with
  | none => simpa using List.find?_eq_none.mp hf i (List.mem_finRange i)
  | some j =>
    have hj : (k.proc j).pid = (k.proc i).pid := by simpa using List.find?_some hf
    rw [h j hj]

theorem PidInv.pidsOk (h : PidInv n s) : PidsOk s := by
  have hkind : ∀ i, (s.kernel.proc i).state ≠ .unused → s.family.kind i ≠ .unused :=
    fun i hi => mt kindOf_unused.mp hi
  refine ⟨fun i hi => (h.pid i (hkind i hi)).1, fun i j hi hj => h.distinct i j (hkind i hi) (hkind j hj),
    fun i hi => pidSlot_eq fun j hj => ?_⟩
  by_cases hju : (s.kernel.proc j).state = .unused
  · have hpos := (h.pid i (hkind i hi)).1
    rw [(h.life.clean j hju).1] at hj
    exact absurd hj hpos.ne
  · exact h.distinct j i (hkind j hju) (hkind i hi) hj

section Nextpid

theorem reparentLoop_nextpid (p : Fin NPROC) (slots : List (Fin NPROC)) (k : Kernel) :
    (reparentLoop p slots k).nextpid = k.nextpid := by
  induction slots generalizing k with
  | nil => rfl
  | cons i slots ih =>
    rw [reparentLoop]
    split_ifs
    · rw [ih]
      rfl
    · exact ih k

theorem kexitSection_nextpid (k : Kernel) (p : Fin NPROC) (status : Int) :
    (kexitSection k p status).nextpid = k.nextpid := reparentLoop_nextpid p _ k

theorem kkill_nextpid (k : Kernel) (pid : Int) (sig : Fin 32) :
    (kkill k pid sig).1.nextpid = k.nextpid := by
  rw [kkill]
  split <;> rfl

theorem runStep_counters (s : LifeState) {e : LifeEvent} (he : e.isFork = false) :
    (runStep s e).kernel.nextpid = s.kernel.nextpid ∧ (runStep s e).births = s.births := by
  cases e with
  | kfork p i mem => cases he
  | adopt p | publish p =>
    rw [runStep]
    split <;> exact ⟨rfl, rfl⟩
  | kexit p status =>
    rw [runStep, LifeState.kexit]
    split_ifs
    · exact ⟨rfl, rfl⟩
    · exact ⟨kexitSection_nextpid _ _ _, rfl⟩
    · exact ⟨rfl, rfl⟩
  | kwait p addr | sleep p chan =>
    rw [runStep]
    split_ifs <;> exact ⟨rfl, rfl⟩
  | pass p copied =>
    rw [runStep]
    split
    · rw [LifeState.kwaitPass]
      split <;> split_ifs <;> exact ⟨rfl, rfl⟩
    · exact ⟨rfl, rfl⟩
  | kill p pid sig => exact ⟨kkill_nextpid _ _ _, rfl⟩
  | wakeup p chan | setkilled p | preempt p | dispatch p | interrupt chan => exact ⟨rfl, rfl⟩

theorem lifeStep_counters (s : LifeState) {e : LifeEvent} (he : e.isFork = false) :
    (lifeStep s e).kernel.nextpid = s.kernel.nextpid ∧ (lifeStep s e).births = s.births := by
  unfold lifeStep
  split
  · exact ⟨rfl, rfl⟩
  · split
    · split_ifs <;> exact ⟨rfl, rfl⟩
    · exact ⟨rfl, rfl⟩
    · split_ifs
      · exact runStep_counters s he
      · exact ⟨rfl, rfl⟩

end Nextpid

theorem PidInv.other (h : PidInv n s) {e : LifeEvent} (he : e.isFork = false) :
    PidInv n (lifeStep s e) := by
  obtain ⟨hnext, hbirths⟩ := lifeStep_counters s he
  have hkeep : ∀ i, (lifeStep s e).family.kind i ≠ .unused →
      s.family.kind i ≠ .unused ∧ (lifeStep s e).family.pid i = s.family.pid i := by
    intro i hi
    rcases (h.life.step e).family with hf | hf
    · rw [hf] at hi ⊢
      exact ⟨hi, rfl⟩
    · exact hf.keeps_pid h.life.tree hbirths hi
  refine ⟨h.life.moves (h.life.step e), fun hn => hnext.trans (h.next hn), fun i hi => ?_,
    fun i j hi hj hij => ?_⟩
  · rw [(hkeep i hi).2]
    exact h.pid i (hkeep i hi).1
  · rw [(hkeep i hi).2, (hkeep j hj).2] at hij
    exact h.distinct i j (hkeep i hi).1 (hkeep j hj).1 hij

theorem intSucc_lt {m : Int} (h0 : 0 ≤ m) (h : m + 1 < 2 ^ 31) : intSucc m = m + 1 := by
  rw [intSucc, Int.bmod_eq_of_le] <;> omega

theorem kfork_nextpid (s : LifeState) (p i : Fin NPROC) (mem : ForkMem) :
    (s.kfork p i mem).kernel.nextpid = intSucc s.kernel.nextpid := by
  rw [LifeState.kfork]
  rcases kforkFill_cases s.kernel p i mem with ⟨x, hx, -⟩ | ⟨x, hx, -⟩ <;> rw [hx] <;> rfl

theorem lifeStep_kfork (s : LifeState) (p i : Fin NPROC) (mem : ForkMem) :
    lifeStep s (.kfork p i mem) = s ∨
      (s.kernel.proc p).state = .running ∧ (s.kernel.proc i).state = .unused ∧
        lifeStep s (.kfork p i mem) = s.kfork p i mem := by
  have hstep : lifeStep s (.kfork p i mem) = if s.panic then s else
      if (s.kernel.proc p).state = .running then
        if s.phase p = .idle ∧ (s.kernel.proc i).state = .unused then s.kfork p i mem else s
      else s := rfl
  rw [hstep]
  split_ifs with _ hrun hok
  · exact .inl rfl
  · exact .inr ⟨hrun, hok.2, rfl⟩
  · exact .inl rfl
  · exact .inl rfl

theorem PidInv.fork (h : PidInv n s) (hn : n + 2 < 2 ^ 31) (p i : Fin NPROC) (mem : ForkMem) :
    PidInv n (lifeStep s (.kfork p i mem)) ∨ PidInv (n + 1) (lifeStep s (.kfork p i mem)) := by
  have hlife := h.life.moves (h.life.step (.kfork p i mem))
  have hnext := h.next hn
  rcases lifeStep_kfork s p i mem with hsame | ⟨hrun, hunused, hstep⟩
  · rw [hsame]
    exact .inl h
  right
  rw [hstep] at hlife ⊢
  have hsucc : n + 1 + 2 < 2 ^ 31 → (s.kfork p i mem).kernel.nextpid = (n + 1 : Nat) + 2 := by
    intro hlt
    rw [kfork_nextpid, hnext, intSucc_lt] <;> push_cast <;> omega
  have hpid : ∀ j, s.family.kind j ≠ .unused →
      0 < s.family.pid j ∧ s.family.pid j < (n + 1 : Nat) + 2 := by
    intro j hj
    obtain ⟨hpos, hlt⟩ := h.pid j hj
    push_cast
    omega
  rcases family_kfork (p := p) mem h.life.clean hunused with hf | hf
  · refine ⟨hlife, hsucc, ?_, ?_⟩
    · rw [hf]
      exact hpid
    · rw [hf]
      exact h.distinct
  · -- the new pid is above all others
    have hnew : (s.family.fork p i s.kernel.nextpid).pid i = n + 2 := by
      rw [← hnext]
      exact Function.update_self _ _ _
    have hold : ∀ j, j ≠ i → (s.family.fork p i s.kernel.nextpid).kind j = s.family.kind j ∧
        (s.family.fork p i s.kernel.nextpid).pid j = s.family.pid j := fun j hj =>
      ⟨Function.update_of_ne hj _ _, Function.update_of_ne hj _ _⟩
    refine ⟨hlife, hsucc, ?_, ?_⟩ <;> rw [hf]
    · intro j hj
      by_cases hji : j = i
      · rw [hji, hnew]
        push_cast
        omega
      · rw [(hold j hji).1] at hj
        rw [(hold j hji).2]
        exact hpid j hj
    · intro j k hj hk hjk
      by_cases hji : j = i <;> by_cases hki : k = i
      · rw [hji, hki]
      · rw [(hold k hki).1] at hk
        rw [hji, hnew, (hold k hki).2] at hjk
        have hlt := (h.pid k hk).2
        omega
      · rw [(hold j hji).1] at hj
        rw [hki, hnew, (hold j hji).2] at hjk
        have hlt := (h.pid j hj).2
        omega
      · rw [(hold j hji).1] at hj
        rw [(hold k hki).1] at hk
        rw [(hold j hji).2, (hold k hki).2] at hjk
        exact h.distinct j k hj hk hjk

theorem PidInv.always {es : List LifeEvent} (h : PidInv n s)
    (hes : n + es.countP LifeEvent.isFork + 2 ≤ 2 ^ 31) : Always lifeStep PidsOk s es := by
  induction es generalizing n s with
  | nil => exact h.pidsOk
  | cons e es ih =>
    refine ⟨h.pidsOk, ?_⟩
    cases he : e.isFork with
    | false =>
      rw [List.countP_cons_of_neg (by simp [he])] at hes
      exact ih (h.other he) hes
    | true =>
      rw [List.countP_cons_of_pos he] at hes
      cases e with
      | kfork p i mem =>
        rcases h.fork (by omega) p i mem with hn | hn
        · exact ih hn (by omega)
        · exact ih hn (by omega)
      | _ => cases he

theorem pidInv_boot : PidInv 0 lifeBoot := by
  have hinit : ∀ i, lifeBoot.family.kind i ≠ .unused → i = initproc := by
    intro i hi
    by_contra hne
    refine hi ?_
    simp only [LifeState.family, lifeBoot, if_neg hne]
    rfl
  refine ⟨lifeInv_boot, fun _ => rfl, fun i hi => ?_, fun i j hi hj _ => ?_⟩
  · rw [hinit i hi]
    exact ⟨Int.one_pos, by decide⟩
  · rw [hinit i hi, hinit j hj]

/-- As long as `allocpid` has been called fewer than `2 ^ 31 - 1` times since `userinit`, every
process has a positive pid of its own. -/
theorem pids_unique {es : List LifeEvent} (hes : es.countP LifeEvent.isFork < 2 ^ 31 - 1) :
    Always lifeStep PidsOk lifeBoot es := pidInv_boot.always (by omega)

theorem pids_unique_fork :
    [LifeEvent.dispatch 0, .kfork 0 1 {}].countP LifeEvent.isFork < 2 ^ 31 - 1 ∧
      Always lifeStep PidsOk lifeBoot [.dispatch 0, .kfork 0 1 {}] :=
  ⟨by decide, pids_unique (by decide)⟩

section Wrap

def alone (m : Int) : LifeState where
  kernel :=
    { proc := fun i => if i = initproc then { pid := 1, state := .running } else {}
      nextpid := m }

def failingFork : LifeEvent := .kfork 0 1 { uvmcopyOk := false }

/-- One process forks until the pids have come round: all forks but the last fail. -/
def exhaustPids : List LifeEvent :=
  .dispatch 0 :: (List.replicate (2 ^ 31 - 2) failingFork ++ [.kfork 0 1 {}])

theorem lifeStep_dispatch_boot : lifeStep lifeBoot (.dispatch 0) = alone 2 := by
  have hproc : Function.update lifeBoot.kernel.proc initproc
      { lifeBoot.kernel.proc 0 with chan := 0, state := .running } = (alone 2).kernel.proc := by
    funext j
    by_cases hj : j = initproc
    · rw [hj, Function.update_self]
      rfl
    · rw [Function.update_of_ne hj]
      exact (if_neg hj).trans (if_neg hj).symm
  show ({ lifeBoot with kernel := ⟨Function.update lifeBoot.kernel.proc initproc _, 2⟩ } : LifeState) =
    alone 2
  rw [hproc]
  rfl

theorem lifeStep_failingFork (m : Int) : lifeStep (alone m) failingFork = alone (intSucc m) := by
  have hproc : Function.update (alone m).kernel.proc 1 {} = (alone m).kernel.proc :=
    Function.update_eq_self 1 (alone m).kernel.proc
  show ({ alone m with kernel := ⟨Function.update (alone m).kernel.proc 1 {}, intSucc m⟩ } :
    LifeState) = alone (intSucc m)
  rw [hproc]
  rfl

theorem foldl_failingFork (n : Nat) (m : Int) :
    (List.replicate n failingFork).foldl lifeStep (alone m) = alone (intSucc^[n] m) := by
  induction n generalizing m with
  | zero => rfl
  | succ n ih =>
    rw [List.replicate_succ, List.foldl_cons, lifeStep_failingFork, ih, Function.iterate_succ_apply]

theorem iterate_intSucc {n : Nat} (h : n + 2 < 2 ^ 31) : intSucc^[n] 2 = n + 2 := by
  induction n with
  | zero => rfl
  | succ n ih =>
    rw [Function.iterate_succ_apply', ih (by omega), intSucc_lt] <;> push_cast <;> omega

theorem pids_wrap : ((exhaustPids.foldl lifeStep lifeBoot).kernel.proc 1).state = .used ∧
    ((exhaustPids.foldl lifeStep lifeBoot).kernel.proc 1).pid = -2 ^ 31 ∧
      ¬ Always lifeStep PidsOk lifeBoot exhaustPids := by
  have hlast : exhaustPids.foldl lifeStep lifeBoot = lifeStep (alone (-2 ^ 31)) (.kfork 0 1 {}) := by
    rw [exhaustPids, List.foldl_cons, List.foldl_append, lifeStep_dispatch_boot, foldl_failingFork]
    have hiter : intSucc^[2 ^ 31 - 2] 2 = -2 ^ 31 := by
      rw [show 2 ^ 31 - 2 = (2 ^ 31 - 3) + 1 by decide, Function.iterate_succ_apply',
        iterate_intSucc (by decide)]
      decide
    rw [hiter]
    rfl
  have hstate : ((exhaustPids.foldl lifeStep lifeBoot).kernel.proc 1).state = .used := by
    rw [hlast]
    rfl
  have hpid : ((exhaustPids.foldl lifeStep lifeBoot).kernel.proc 1).pid = -2 ^ 31 := by
    rw [hlast]
    rfl
  refine ⟨hstate, hpid, fun hall => ?_⟩
  have hpos := hall.last.positive 1 (by rw [hstate]; nofun)
  rw [hpid] at hpos
  exact absurd hpos (by decide)

end Wrap

end OsProject.Life
