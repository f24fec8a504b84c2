import OsProject.Delivery

/-! Transparency of signal delivery. `sigreturn` copies the saved frame back, but `syscall`
then stores the call's return value 0 in `a0`, so the interrupted program sees its registers
again exactly when `a0` was 0. -/

namespace OsProject

def NoForkExec (user : UserFrame) (env : TrapEnv) : Prop :=
  env.scause = 8 → argint user.a7 ≠ SYS_fork ∧ argint user.a7 ≠ SYS_exec

/-- Traps taken while a handler runs, each with arbitrary user registers. -/
inductive HandlerRun : Proc → Proc → Prop
  | refl (p : Proc) : HandlerRun p p
  | trap {p q r : Proc} {user : UserFrame} {env : TrapEnv} {lines : List MailLine}
      (hin : p.inSignalHandler ≠ 0) (hcall : NoForkExec user env)
      (htrap : usertrap p user env = .resume q lines) (hrest : HandlerRun q r) : HandlerRun p r

/-- The program interrupted by the signals delivered in `p` goes on with the registers it had,
whatever the handlers do before they have all returned. -/
def Transparent (p : Proc) (env : TrapEnv) : Prop :=
  ∀ q, HandlerRun (prepareReturn (deliverSignals p) env) q → q.inSignalHandler = 0 →
    q.trapframe.toUserFrame = p.trapframe.toUserFrame

/-- `deliver_signals` redirects the process to a handler. -/
def Redirects (p : Proc) : Prop := p.inSignalHandler = 0 ∧ ∃ sig, Handled p sig

theorem HandlerRun.trans {p q r : Proc} (h : HandlerRun p q) (h' : HandlerRun q r) :
    HandlerRun p r := by
  induction h with
  | refl => exact h'
  | trap hin hcall htrap _ ih => exact .trap hin hcall htrap (ih h')

theorem HandlerRun.single {p q : Proc} {user : UserFrame} {env : TrapEnv} {lines : List MailLine}
    (hin : p.inSignalHandler ≠ 0) (hcall : NoForkExec user env)
    (htrap : usertrap p user env = .resume q lines) : HandlerRun p q :=
  .trap hin hcall htrap (.refl q)

def interruptedFrame (p : Proc) : UserFrame :=
  if p.inSignalHandler = 0 then p.trapframe.toUserFrame else p.signalTrapframe.toUserFrame

@[simp] theorem interruptedFrame_prepareReturn (p : Proc) (env : TrapEnv) :
    interruptedFrame (prepareReturn p env) = interruptedFrame p := rfl

theorem interruptedFrame_foldl_post (posted : List (Fin 32)) (p : Proc) :
    interruptedFrame (posted.foldl Proc.post p) = interruptedFrame p := by
  obtain ⟨mask, state, h⟩ := foldl_post_eq posted p
  rw [h]
  rfl

theorem interruptedFrame_deliverSignals (p : Proc) :
    interruptedFrame (deliverSignals p) = interruptedFrame p := by
  by_cases hi : p.inSignalHandler = 0
  · by_cases hh : ∃ sig ∈ List.finRange 32, Handled p sig
    · have hr := deliverFrom_redirect _ hh
      simp [interruptedFrame, deliverSignals, hi, hr.1, hr.2]
    · have hn := deliverFrom_not_handled (List.finRange 32) (p := p)
        (fun sig hs hh' => hh ⟨sig, hs, hh'⟩)
      simp [interruptedFrame, deliverSignals, hi, hn.1, hn.2.2]
  · simp [deliverSignals, hi]

theorem interruptedFrame_usertrap {p q : Proc} {user : UserFrame} {env : TrapEnv}
    {lines : List MailLine} (hin : p.inSignalHandler ≠ 0)
    (h : usertrap p user env = .resume q lines) :
    interruptedFrame q = interruptedFrame p ∨
      interruptedFrame q = { interruptedFrame p with a0 := 0 } := by
  obtain ⟨m, hm, _, rfl⟩ := usertrap_eq_resume h
  rw [interruptedFrame_prepareReturn, interruptedFrame_deliverSignals, interruptedFrame_foldl_post]
  rcases serveTrap_frames hm with ⟨hi, hf⟩ | ⟨-, hi, hf⟩
  · left
    simp [interruptedFrame, hi, hf, hin]
  · right
    simp [interruptedFrame, hi, hf, hin]

theorem interruptedFrame_run {p q : Proc} (h : HandlerRun p q)
    (ha : (interruptedFrame p).a0 = 0) : interruptedFrame q = interruptedFrame p := by
  induction h with
  | refl => rfl
  | @trap p q r user env lines hin _ htrap _ ih =>
    have hq : interruptedFrame q = interruptedFrame p := by
      rcases interruptedFrame_usertrap hin htrap with hh | hh
      · exact hh
      · rw [hh, ← ha]
    rw [ih (hq ▸ ha), hq]

def signalCall (sig : Fin 32) : UserFrame := { a7 := 23, a0 := UInt64.ofNat sig.val, a1 := 1 }

def sigreturnCall : UserFrame := { a7 := 24 }

theorem argsig_ofNat : ∀ sig : Fin 32, argsig (UInt64.ofNat sig.val) = some sig := by decide

theorem noForkExec_signalCall (sig : Fin 32) : NoForkExec (signalCall sig) {} := by
  intro _
  simp only [signalCall]
  decide

theorem noForkExec_sigreturnCall : NoForkExec sigreturnCall {} := by
  intro _
  decide

theorem serveTrap_signal {p : Proc} {user : UserFrame} {env : TrapEnv} {sig : Fin 32}
    (hk : p.killed = 0) (hs : env.scause = 8) (hnum : argint user.a7 = SYS_signal)
    (ha : argsig user.a0 = some sig) :
    serveTrap p user env = .done
      ({ p.saveUser { user with epc := user.epc + 4 } with
        signalHandlers := Function.update p.signalHandlers sig user.a1 }.setA0 0) [] := by
  have h1 : ¬ SYS_signal = SYS_exit := by decide
  simp only [serveTrap, syscall, hs, hk, ne_eq, not_true_eq_false, if_false, if_true, Proc.saveUser,
    hnum, h1, sysSignal, ha]

theorem argint_signalCall (sig : Fin 32) : argint (signalCall sig).a7 = SYS_signal := by
  simp only [signalCall]
  decide

theorem register_run {p : Proc} (hin : p.inSignalHandler ≠ 0) (hk : p.killed = 0) (sig : Fin 32) :
    ∃ q, HandlerRun p q ∧ q.inSignalHandler ≠ 0 ∧ q.killed = 0 ∧
      q.signalHandlers = Function.update p.signalHandlers sig 1 := by
  have hs : serveTrap p (signalCall sig) {} = _ :=
    serveTrap_signal hk rfl (argint_signalCall sig) (argsig_ofNat sig)
  refine ⟨_, .single hin (noForkExec_signalCall sig) (usertrap_of_serveTrap hs hk), ?_, ?_, ?_⟩
  all_goals simp [deliverSignals, hin, prepareReturn, Proc.setA0, Proc.saveUser, hk, signalCall]

theorem register_all_run {p : Proc} (hin : p.inSignalHandler ≠ 0) (hk : p.killed = 0)
    (sigs : List (Fin 32)) :
    ∃ q, HandlerRun p q ∧ q.inSignalHandler ≠ 0 ∧ q.killed = 0 ∧
      ∀ sig ∈ sigs, q.signalHandlers sig ≠ 0 := by
  induction sigs with
  | nil => exact ⟨p, .refl p, hin, hk, by simp⟩
  | cons sig sigs ih =>
    obtain ⟨m, hm, hmi, hmk, hmh⟩ := ih
    obtain ⟨q, hq, hqi, hqk, hqh⟩ := register_run hmi hmk sig
    refine ⟨q, hm.trans hq, hqi, hqk, ?_⟩
    intro s hs
    by_cases he : s = sig
    · simp [hqh, he]
    · rw [hqh, Function.update_of_ne he]
      exact hmh s ((List.mem_cons.mp hs).resolve_left he)

theorem serveTrap_sigreturn {p : Proc} {user : UserFrame} {env : TrapEnv} (hk : p.killed = 0)
    (hs : env.scause = 8) (hnum : argint user.a7 = SYS_sigreturn) :
    serveTrap p user env = .done
      { p with trapframe := { p.signalTrapframe with a0 := 0 }, inSignalHandler := 0 } [] := by
  have h1 : ¬ SYS_sigreturn = SYS_exit := by decide
  have h2 : ¬ SYS_sigreturn = SYS_signal := by decide
  simp only [serveTrap, syscall, hs, hk, ne_eq, not_true_eq_false, if_false, if_true, Proc.saveUser,
    hnum, h1, h2]
  rfl

theorem sigreturn_run {p : Proc} (hin : p.inSignalHandler ≠ 0) (hk : p.killed = 0) :
    HandlerRun p (prepareReturn (deliverSignals
      { p with trapframe := { p.signalTrapframe with a0 := 0 }, inSignalHandler := 0 }) {}) := by
  have hs : serveTrap p sigreturnCall {} = _ := serveTrap_sigreturn hk rfl (by decide)
  exact .single hin noForkExec_sigreturnCall (usertrap_of_serveTrap hs hk)

theorem deliverFrom_all_handled {p : Proc} (hall : ∀ sig, p.signalHandlers sig ≠ 0)
    (sigs : List (Fin 32)) :
    deliverFrom sigs p = p ∨ ∃ sig, p.pending sig = true ∧
      (deliverFrom sigs p).pendingSignals = (p.clearPending sig).pendingSignals ∧
      (deliverFrom sigs p).inSignalHandler = 1 ∧ (deliverFrom sigs p).killed = p.killed := by
  induction sigs with
  | nil => exact .inl rfl
  | cons sig sigs ih =>
    by_cases hp : p.pending sig = true
    · right
      exact ⟨sig, hp, by simp [deliverFrom, hp, hall sig], by simp [deliverFrom, hp, hall sig],
        by simp [deliverFrom, hp, hall sig, Proc.clearPending]⟩
    · simpa [deliverFrom, hp] using ih

def pendingSet (p : Proc) : Finset (Fin 32) := Finset.univ.filter (fun sig => p.pending sig = true)

theorem pendingSet_card_lt {p q : Proc} {sig : Fin 32} (hp : p.pending sig = true)
    (hq : q.pendingSignals = (p.clearPending sig).pendingSignals) :
    (pendingSet q).card < (pendingSet p).card := by
  apply Finset.card_lt_card
  have hqs : ∀ s, q.pending s = (p.clearPending sig).pending s := fun s => by
    simp only [Proc.pending, hq]
  refine Finset.ssubset_iff_subset_ne.mpr ⟨?_, ?_⟩
  · intro s hs
    simp only [pendingSet, Finset.mem_filter, hqs, Proc.pending_clearPending,
      Bool.and_eq_true] at hs ⊢
    exact ⟨hs.1, hs.2.1⟩
  · intro he
    have hmem : sig ∈ pendingSet p := by simp [pendingSet, hp]
    rw [← he] at hmem
    simp [pendingSet, hqs] at hmem

theorem finish_run {p : Proc} (hin : p.inSignalHandler ≠ 0) (hk : p.killed = 0)
    (hall : ∀ sig, p.signalHandlers sig ≠ 0) :
    ∃ q, HandlerRun p q ∧ q.inSignalHandler = 0 ∧ q.trapframe.a0 = 0 := by
  induction hn : (pendingSet p).card using Nat.strong_induction_on generalizing p with
  | _ n ih =>
    let r : Proc :=
      { p with trapframe := { p.signalTrapframe with a0 := 0 }, inSignalHandler := 0 }
    have hstep : HandlerRun p (prepareReturn (deliverFrom (List.finRange 32) r) {}) :=
      sigreturn_run hin hk
    rcases deliverFrom_all_handled (p := r) hall (List.finRange 32) with he | ⟨sig, hp, hm, hi, hk'⟩
    · rw [he] at hstep
      exact ⟨_, hstep, rfl, rfl⟩
    · have hlt : (pendingSet (prepareReturn (deliverFrom (List.finRange 32) r) {})).card < n :=
        hn ▸ pendingSet_card_lt (p := p) hp hm
      have hh : (prepareReturn (deliverFrom (List.finRange 32) r) {}).signalHandlers =
          p.signalHandlers := deliverFrom_handlers _ r
      obtain ⟨q, hq, hqi, hqa⟩ := ih _ hlt (by simp [prepareReturn, hi])
        (by simpa [prepareReturn, hk'] using hk) (fun s => by rw [hh]; exact hall s) rfl
      exact ⟨q, hstep.trans hq, hqi, hqa⟩

theorem deliverSignals_redirect {p : Proc} (h : Redirects p) :
    (deliverSignals p).inSignalHandler = 1 ∧ (deliverSignals p).signalTrapframe = p.trapframe := by
  obtain ⟨hi, sig, hh⟩ := h
  simpa [deliverSignals, hi] using
    deliverFrom_redirect (List.finRange 32) ⟨sig, List.mem_finRange sig, hh⟩

theorem HandlerRun.eq_of_killed {p q : Proc} (h : HandlerRun p q) (hk : p.killed ≠ 0) : q = p := by
  cases h with
  | refl => rfl
  | trap _ _ htrap _ => simp [usertrap_of_killed hk] at htrap

/-- Delivery is transparent exactly when the interrupted program had 0 in `a0`, or when the
process is killed with the delivery and never runs the handler to its end. -/
theorem transparent_iff {p : Proc} (env : TrapEnv) (h : Redirects p) :
    Transparent p env ↔ p.trapframe.a0 = 0 ∨ p.killed ≠ 0 ∨
      ∃ sig, lowestPending p = some sig ∧ p.signalHandlers sig = 0 := by
  have hr := deliverSignals_redirect h
  have hd : deliverSignals p = deliverFrom (List.finRange 32) p := by simp [deliverSignals, h.1]
  have hframe : interruptedFrame (prepareReturn (deliverSignals p) env) =
      p.trapframe.toUserFrame := by
    rw [interruptedFrame_prepareReturn, interruptedFrame_deliverSignals, interruptedFrame,
      if_pos h.1]
  constructor
  · intro ht
    by_contra hn
    simp only [not_or, not_not, not_exists, not_and] at hn
    have hk : (deliverSignals p).killed = 0 := by
      rw [hd]
      exact (deliverFrom_killed hn.2.1).mpr hn.2.2
    obtain ⟨m, hm, hmi, hmk, hmh⟩ := register_all_run
      (p := prepareReturn (deliverSignals p) env) (by simp [prepareReturn, hr.1]) hk
      (List.finRange 32)
    obtain ⟨q, hq, hqi, hqa⟩ := finish_run hmi hmk (fun sig => hmh sig (List.mem_finRange sig))
    have hh := ht q (hm.trans hq) hqi
    exact hn.1 (by rw [← hh, hqa])
  · rintro (ha | hk) q hq hqi
    · have hh := interruptedFrame_run hq (by rw [hframe, ha])
      rw [hframe, interruptedFrame, if_pos hqi] at hh
      exact hh
    · have hk' : (prepareReturn (deliverSignals p) env).killed ≠ 0 := by
        change (deliverSignals p).killed ≠ 0
        rw [hd]
        by_cases hz : p.killed = 0
        · rw [Ne, deliverFrom_killed hz]
          obtain ⟨sig, hs, hh⟩ := hk.resolve_left (not_not.mpr hz)
          exact fun hall => hall sig hs hh
        · exact deliverFrom_killed_ne_zero _ hz
      rw [hq.eq_of_killed hk'] at hqi
      simp [prepareReturn, hr.1] at hqi

theorem transparent_zero_a0 : Transparent
    { trapframe := { epc := 64, sp := 4096, a0 := 0, a1 := 7 },
      signalHandlers := fun _ => 128, pendingSignals := 0x400 } {} :=
  (transparent_iff {} ⟨rfl, 10, by decide⟩).mpr (.inl rfl)

theorem sigreturn_clobbers_a0 :
    Redirects
      { trapframe := { epc := 64, sp := 4096, a0 := 5 },
        signalHandlers := fun _ => 128, pendingSignals := 0x400 } ∧
    ¬ Transparent
      { trapframe := { epc := 64, sp := 4096, a0 := 5 },
        signalHandlers := fun _ => 128, pendingSignals := 0x400 } {} := by
  refine ⟨⟨rfl, 10, by decide⟩, ?_⟩
  intro ht
  have hh := ht _ (sigreturn_run (by decide) (by decide)) (by decide)
  exact absurd (congrArg UserFrame.a0 hh) (by decide)

end OsProject
