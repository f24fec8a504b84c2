import OsProject.Signal

/-! What one pass of `deliver_signals` does, and what a trap does to the frame that a handler
will restore. -/

namespace OsProject

def Fatal (p : Proc) : Prop :=
  p.killed ≠ 0 ∨ ∃ sig, p.pending sig = true ∧ p.signalHandlers sig = 0

def lowestPending (p : Proc) : Option (Fin 32) := (List.finRange 32).find? p.pending

def Handled (p : Proc) (sig : Fin 32) : Prop :=
  p.pending sig = true ∧ p.signalHandlers sig ≠ 0

instance (p : Proc) (sig : Fin 32) : Decidable (Handled p sig) :=
  inferInstanceAs (Decidable (p.pending sig = true ∧ p.signalHandlers sig ≠ 0))

def Proc.killBy (p : Proc) (sig : Fin 32) : Proc := { p.clearPending sig with killed := 1 }

def Proc.enterHandler (p : Proc) (sig : Fin 32) : Proc :=
  { p.clearPending sig with
    signalTrapframe := p.trapframe
    inSignalHandler := 1
    trapframe := { p.trapframe with a0 := UInt64.ofNat sig.val, epc := p.signalHandlers sig } }

@[simp] theorem Proc.pending_killBy (p : Proc) (sig s : Fin 32) :
    (p.killBy sig).pending s = (p.pending s && decide (s ≠ sig)) :=
  p.pending_clearPending sig s

@[simp] theorem Proc.pending_enterHandler (p : Proc) (sig s : Fin 32) :
    (p.enterHandler sig).pending s = (p.pending s && decide (s ≠ sig)) :=
  p.pending_clearPending sig s

theorem deliverFrom_cons (sig : Fin 32) (sigs : List (Fin 32)) (p : Proc) :
    deliverFrom (sig :: sigs) p =
      if p.pending sig then
        if p.signalHandlers sig ≠ 0 then p.enterHandler sig else deliverFrom sigs (p.killBy sig)
      else deliverFrom sigs p := rfl

theorem deliverFrom_induction {motive : List (Fin 32) → Proc → Proc → Prop}
    (nil : ∀ p, motive [] p p)
    (skip : ∀ sig sigs p, p.pending sig = false → motive sigs p (deliverFrom sigs p) →
      motive (sig :: sigs) p (deliverFrom sigs p))
    (kill : ∀ sig sigs p, p.pending sig = true → p.signalHandlers sig = 0 →
      motive sigs (p.killBy sig) (deliverFrom sigs (p.killBy sig)) →
      motive (sig :: sigs) p (deliverFrom sigs (p.killBy sig)))
    (enter : ∀ sig sigs p, Handled p sig → motive (sig :: sigs) p (p.enterHandler sig))
    (sigs : List (Fin 32)) (p : Proc) : motive sigs p (deliverFrom sigs p) := by
  induction sigs generalizing p with
  | nil => exact nil p
  | cons sig sigs ih =>
    rw [deliverFrom_cons]
    split_ifs with hp hh
    · exact enter sig sigs p ⟨hp, hh⟩
    · exact kill sig sigs p hp (not_not.mp hh) (ih _)
    · exact skip sig sigs p (Bool.eq_false_of_not_eq_true hp) (ih p)

theorem deliverFrom_handlers (sigs : List (Fin 32)) (p : Proc) :
    (deliverFrom sigs p).signalHandlers = p.signalHandlers := by
  induction sigs, p using deliverFrom_induction with
  | nil => rfl
  | skip sig sigs p hp ih => exact ih
  | kill sig sigs p hp hz ih => exact ih
  | enter => rfl

theorem handled_killBy {p : Proc} {sig s : Fin 32} :
    Handled (p.killBy sig) s ↔ Handled p s ∧ s ≠ sig := by
  simp only [Handled, Proc.pending_killBy, Bool.and_eq_true, decide_eq_true_eq]
  exact and_right_comm

theorem deliverFrom_fatal (sigs : List (Fin 32)) (p : Proc) :
    Fatal (deliverFrom sigs p) ↔ Fatal p := by
  induction sigs, p using deliverFrom_induction with
  | nil => rfl
  | skip sig sigs p hp ih => exact ih
  | kill sig sigs p hp hz ih => exact iff_of_true (ih.mpr (.inl one_ne_zero)) (.inr ⟨sig, hp, hz⟩)
  | enter sig sigs p hh =>
    refine or_congr Iff.rfl (exists_congr fun s => and_congr_left fun hz => ?_)
    have hne : s ≠ sig := by
      rintro rfl
      exact hh.2 hz
    simp [hne]

theorem deliverFrom_redirect (sigs : List (Fin 32)) {p : Proc}
    (h : ∃ sig ∈ sigs, Handled p sig) :
    (deliverFrom sigs p).inSignalHandler = 1 ∧
      (deliverFrom sigs p).signalTrapframe = p.trapframe := by
  induction sigs, p using deliverFrom_induction with
  | nil => simp at h
  | skip sig sigs p hp ih =>
    obtain ⟨s, hs, hhs⟩ := h
    refine ih ⟨s, (List.mem_cons.mp hs).resolve_left ?_, hhs⟩
    rintro rfl
    simp [hhs.1] at hp
  | kill sig sigs p hp hz ih =>
    obtain ⟨s, hs, hhs⟩ := h
    have hne : s ≠ sig := by
      rintro rfl
      exact hhs.2 hz
    exact ih ⟨s, (List.mem_cons.mp hs).resolve_left hne, handled_killBy.mpr ⟨hhs, hne⟩⟩
  | enter => exact ⟨rfl, rfl⟩

theorem deliverFrom_not_handled (sigs : List (Fin 32)) {p : Proc}
    (h : ∀ sig ∈ sigs, ¬ Handled p sig) :
    (deliverFrom sigs p).inSignalHandler = p.inSignalHandler ∧
      (deliverFrom sigs p).signalTrapframe = p.signalTrapframe ∧
      (deliverFrom sigs p).trapframe = p.trapframe := by
  induction sigs, p using deliverFrom_induction with
  | nil => exact ⟨rfl, rfl, rfl⟩
  | skip sig sigs p hp ih => exact ih (fun s hs => h s (List.mem_cons_of_mem _ hs))
  | kill sig sigs p hp hz ih =>
    exact ih (fun s hs hq => h s (List.mem_cons_of_mem _ hs) (handled_killBy.mp hq).1)
  | enter sig sigs p hh => exact absurd hh (h sig List.mem_cons_self)

theorem deliverFrom_killed_ne_zero (sigs : List (Fin 32)) {p : Proc} (hk : p.killed ≠ 0) :
    (deliverFrom sigs p).killed ≠ 0 := by
  induction sigs, p using deliverFrom_induction with
  | nil => exact hk
  | skip sig sigs p hp ih => exact ih hk
  | kill sig sigs p hp hz ih => exact ih one_ne_zero
  | enter => exact hk

theorem deliverFrom_killed {sigs : List (Fin 32)} {p : Proc} (hk : p.killed = 0) :
    (deliverFrom sigs p).killed = 0 ↔
      ∀ sig, sigs.find? p.pending = some sig → p.signalHandlers sig ≠ 0 := by
  induction sigs, p using deliverFrom_induction with
  | nil => simp [hk]
  | skip sig sigs p hp ih => rw [ih hk, List.find?_cons_of_neg (by simp [hp])]
  | kill sig sigs p hp hz ih =>
    exact iff_of_false (deliverFrom_killed_ne_zero sigs one_ne_zero)
      (fun h => h sig (List.find?_cons_of_pos hp) hz)
  | enter sig sigs p hh =>
    refine iff_of_true hk (fun s hs => ?_)
    rw [List.find?_cons_of_pos hh.1, Option.some.injEq] at hs
    exact hs ▸ hh.2

theorem deliverFrom_pending (sigs : List (Fin 32)) {p : Proc} {sig : Fin 32}
    (h : (deliverFrom sigs p).pending sig = true) : p.pending sig = true := by
  induction sigs, p using deliverFrom_induction with
  | nil => exact h
  | skip s sigs p hp ih => exact ih h
  | kill s sigs p hp hz ih =>
    rw [Proc.pending_killBy, Bool.and_eq_true] at ih
    exact (ih h).1
  | enter s sigs p hh =>
    rw [Proc.pending_enterHandler, Bool.and_eq_true] at h
    exact h.1

theorem deliverFrom_takes (sigs : List (Fin 32)) {p : Proc} {sig : Fin 32}
    (hp : p.pending sig = true) (h : (deliverFrom sigs p).pending sig = false) :
    (p.signalHandlers sig = 0 ∧ (deliverFrom sigs p).killed ≠ 0) ∨
      ((deliverFrom sigs p).inSignalHandler = 1 ∧
        (deliverFrom sigs p).trapframe.a0 = UInt64.ofNat sig.val) := by
  induction sigs, p using deliverFrom_induction with
  | nil => simp [hp] at h
  | skip s sigs p hps ih => exact ih hp h
  | kill s sigs p hps hz ih =>
    by_cases hs : sig = s
    · subst hs
      exact .inl ⟨hz, deliverFrom_killed_ne_zero sigs one_ne_zero⟩
    · exact ih (by simp [hp, hs]) h
  | enter s sigs p hh =>
    have hs : sig = s := by simpa [hp] using h
    exact .inr ⟨rfl, by rw [hs]; rfl⟩

theorem deliverFrom_least {sigs : List (Fin 32)} (hsort : sigs.Pairwise (· < ·)) {p : Proc}
    {sig : Fin 32} (hmem : sig ∈ sigs) (hh : Handled p sig)
    (hmin : ∀ t, t < sig → ¬ Handled p t) :
    (deliverFrom sigs p).trapframe =
        { p.trapframe with a0 := UInt64.ofNat sig.val, epc := p.signalHandlers sig } ∧
      (deliverFrom sigs p).pending sig = false ∧
      ∀ t, sig < t → (deliverFrom sigs p).pending t = p.pending t := by
  induction sigs, p using deliverFrom_induction with
  | nil => simp at hmem
  | skip s sigs p hp ih =>
    refine ih (List.pairwise_cons.mp hsort).2 ((List.mem_cons.mp hmem).resolve_left ?_) hh hmin
    rintro rfl
    simp [hh.1] at hp
  | kill s sigs p hp hz ih =>
    obtain ⟨hlt, hsort⟩ := List.pairwise_cons.mp hsort
    have hs : sig ≠ s := by
      rintro rfl
      exact hh.2 hz
    have hmem := (List.mem_cons.mp hmem).resolve_left hs
    obtain ⟨hframe, hpending, habove⟩ := ih hsort hmem (handled_killBy.mpr ⟨hh, hs⟩)
      (fun t ht hht => hmin t ht (handled_killBy.mp hht).1)
    refine ⟨hframe, hpending, fun t ht => (habove t ht).trans ?_⟩
    simp [((hlt sig hmem).trans ht).ne']
  | enter s sigs p hhs =>
    -- `s` has a handler and is not above `sig`.
    obtain rfl : sig = s := by
      by_contra hs
      have hmem := (List.mem_cons.mp hmem).resolve_left hs
      exact hmin s ((List.pairwise_cons.mp hsort).1 sig hmem) hhs
    exact ⟨rfl, by simp, fun t ht => by simp [ht.ne']⟩

theorem deliverSignals_fatal (p : Proc) : Fatal (deliverSignals p) ↔ Fatal p := by
  by_cases hi : p.inSignalHandler = 0
  · simpa [deliverSignals, hi] using deliverFrom_fatal _ p
  · simp [deliverSignals, hi]

theorem deliverSignals_handlers (p : Proc) :
    (deliverSignals p).signalHandlers = p.signalHandlers := by
  by_cases hi : p.inSignalHandler = 0
  · simpa [deliverSignals, hi] using deliverFrom_handlers _ p
  · simp [deliverSignals, hi]

theorem foldl_post_eq (posted : List (Fin 32)) (p : Proc) :
    ∃ mask state, posted.foldl Proc.post p = { p with pendingSignals := mask, state := state } := by
  induction posted generalizing p with
  | nil => exact ⟨p.pendingSignals, p.state, rfl⟩
  | cons sig posted ih =>
    obtain ⟨mask, state, h⟩ := ih (p.post sig)
    exact ⟨mask, state, by rw [List.foldl_cons, h]; rfl⟩

theorem foldl_post_pending (posted : List (Fin 32)) (p : Proc) (s : Fin 32) :
    (posted.foldl Proc.post p).pending s = (p.pending s || decide (s ∈ posted)) := by
  induction posted generalizing p with
  | nil => simp
  | cons sig posted ih => simp [ih, Bool.or_assoc]

theorem usertrap_eq_resume {p p' : Proc} {user : UserFrame} {env : TrapEnv}
    {lines : List MailLine} (h : usertrap p user env = .resume p' lines) :
    ∃ q, serveTrap p user env = .done q lines ∧ q.killed = 0 ∧
      p' = prepareReturn (deliverSignals (env.posted.foldl Proc.post q)) env := by
  cases hs : serveTrap p user env with
  | exit status => simp [usertrap, hs] at h
  | done q ls =>
    by_cases hk : q.killed = 0
    · simp only [usertrap, hs, hk, ne_eq, not_true_eq_false, if_false, TrapEnd.resume.injEq] at h
      obtain ⟨rfl, rfl⟩ := h
      exact ⟨q, rfl, hk, rfl⟩
    · simp [usertrap, hs, hk] at h

theorem usertrap_of_serveTrap {p q : Proc} {user : UserFrame} {env : TrapEnv}
    {lines : List MailLine} (hs : serveTrap p user env = .done q lines) (hk : q.killed = 0) :
    usertrap p user env =
      .resume (prepareReturn (deliverSignals (env.posted.foldl Proc.post q)) env) lines := by
  simp [usertrap, hs, hk]

theorem syscall_frames {p q : Proc} {env : TrapEnv} {lines : List MailLine}
    (h : syscall p env = .done q lines) :
    (q.inSignalHandler = p.inSignalHandler ∧ q.signalTrapframe = p.signalTrapframe) ∨
      (argint p.trapframe.a7 = SYS_sigreturn ∧ q.inSignalHandler = 0 ∧
        q.trapframe = { p.signalTrapframe with a0 := 0 }) := by
  simp only [syscall] at h
  split_ifs at h with _ _ hnum
  all_goals simp only [CallEnd.done.injEq] at h; obtain ⟨rfl, rfl⟩ := h
  · left
    cases ha : argsig p.trapframe.a0 <;> simp [sysSignal, ha, Proc.setA0]
  · right
    simp [sysSigreturn, Proc.setA0, hnum]
  · left
    cases ha : argsig p.trapframe.a1 with
    | none => simp [sysKill, ha, Proc.setA0]
    | some sig => by_cases hp : argint p.trapframe.a0 = p.pid <;>
        simp [sysKill, ha, hp, Proc.setA0, Proc.post]
  · left
    by_cases hp : argint p.trapframe.a0 = p.pid <;> simp [sysSendOwn, hp, Proc.setA0, Proc.putMail]
  · left
    by_cases hm : p.hasMessage = 0 <;> simp [sysRecvOwn, hm, Proc.setA0, Proc.takeMail]
  · left
    cases hi : env.image <;> simp [execImage, hi, Proc.setA0]
  · exact .inl ⟨rfl, rfl⟩
  · exact .inl ⟨rfl, rfl⟩

theorem serveTrap_frames {p q : Proc} {user : UserFrame} {env : TrapEnv} {lines : List MailLine}
    (h : serveTrap p user env = .done q lines) :
    (q.inSignalHandler = p.inSignalHandler ∧ q.signalTrapframe = p.signalTrapframe) ∨
      ((env.scause = 8 ∧ argint user.a7 = SYS_sigreturn) ∧ q.inSignalHandler = 0 ∧
        q.trapframe = { p.signalTrapframe with a0 := 0 }) := by
  simp only [serveTrap] at h
  split_ifs at h with hs
  · simpa only [Proc.saveUser, hs, true_and] using syscall_frames h
  all_goals
    simp only [CallEnd.done.injEq] at h
    obtain ⟨rfl, rfl⟩ := h
    exact .inl ⟨rfl, rfl⟩

theorem usertrap_of_killed {p : Proc} {user : UserFrame} {env : TrapEnv} (hk : p.killed ≠ 0) :
    usertrap p user env = .exit (-1) := by
  simp only [usertrap, serveTrap, hk, ne_eq, not_false_eq_true, if_true]
  split_ifs <;> simp [Proc.saveUser, hk]

end OsProject
