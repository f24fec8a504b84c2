import OsProject.Delivery

/-! Fatal signals. `usertrap` tests `killed` before it calls `deliver_signals`, which is where
a signal without a handler kills the process, so such a process still returns to user code. -/

namespace OsProject

/-- Neither a system call, nor a device interrupt, nor a page fault that `vmfault` serves. -/
def Unexpected (env : TrapEnv) : Prop :=
  env.scause ≠ 8 ∧ devintr env.scause = 0 ∧
    ¬ ((env.scause = 15 ∨ env.scause = 13) ∧ env.vmfaultOk = true)

/-- No fatal signal reaches user code: the process is killed with status -1 instead. -/
structure NeverReturnsFatal (p : Proc) (user : UserFrame) (env : TrapEnv) : Prop where
  back : ∀ q lines, usertrap p user env = .resume q lines → ¬ Fatal q
  killed : p.killed ≠ 0 ∨ Unexpected env → usertrap p user env = .exit (-1)
  status : Fatal p → ∀ st, usertrap p user env = .exit st → st = -1

/-- The trap is a call `kill(getpid(), sig)`. -/
def SelfKill (p : Proc) (user : UserFrame) (env : TrapEnv) (sig : Fin 32) : Prop :=
  env.scause = 8 ∧ argint user.a7 = SYS_kill ∧ argsig user.a1 = some sig ∧ argint user.a0 = p.pid

/-- The trap is a call `signal(sig, ...)`. -/
def Registers (user : UserFrame) (env : TrapEnv) (sig : Fin 32) : Prop :=
  env.scause = 8 ∧ argint user.a7 = SYS_signal ∧ argsig user.a0 = some sig

def CallsExit (user : UserFrame) (env : TrapEnv) : Prop :=
  env.scause = 8 ∧ argint user.a7 = SYS_exit

/-- The trap ends the process whatever signals are pending. -/
def EndsProcess (p : Proc) (user : UserFrame) (env : TrapEnv) : Prop :=
  (p.killed ≠ 0 ∨ Unexpected env) ∨ CallsExit user env

/-- When the trap's own work is done, every pending signal has a handler. -/
def AllHandled (p : Proc) (user : UserFrame) (env : TrapEnv) : Prop :=
  ∀ sig, p.pending sig = true ∨ sig ∈ env.posted ∨ SelfKill p user env sig →
    (Registers user env sig → user.a1 ≠ 0) ∧
      (¬ Registers user env sig → p.signalHandlers sig ≠ 0)

def SameSignals (p q : Proc) : Prop :=
  q.killed = p.killed ∧ q.pendingSignals = p.pendingSignals ∧ q.signalHandlers = p.signalHandlers

theorem pending_congr {p q : Proc} (h : q.pendingSignals = p.pendingSignals) (sig : Fin 32) :
    q.pending sig = p.pending sig := by
  simp only [Proc.pending, h]

theorem sameSignals_sysRecvOwn (p : Proc) (env : TrapEnv) :
    SameSignals p (sysRecvOwn p env).1 := by
  by_cases hm : p.hasMessage = 0 <;> simp [SameSignals, sysRecvOwn, hm, Proc.takeMail]

theorem sameSignals_sysSendOwn (p : Proc) (env : TrapEnv) :
    SameSignals p (sysSendOwn p env).1 := by
  by_cases hp : argint p.trapframe.a0 = p.pid <;> simp [SameSignals, sysSendOwn, hp, Proc.putMail]

theorem sameSignals_execImage (p : Proc) (env : TrapEnv) : SameSignals p (execImage p env).1 := by
  cases hi : env.image <;> simp [SameSignals, execImage, hi]

theorem sysSignal_spec (p : Proc) :
    (sysSignal p).1.killed = p.killed ∧ (sysSignal p).1.pendingSignals = p.pendingSignals ∧
      ∀ sig, (sysSignal p).1.signalHandlers sig =
        if argsig p.trapframe.a0 = some sig then p.trapframe.a1 else p.signalHandlers sig := by
  cases ha : argsig p.trapframe.a0 with
  | none => simp [sysSignal, ha]
  | some s =>
    refine ⟨by simp [sysSignal, ha], by simp [sysSignal, ha], fun sig => ?_⟩
    by_cases hs : sig = s
    · simp [sysSignal, ha, hs]
    · simp [sysSignal, ha, hs, Ne.symm hs]

theorem sysKill_spec (p : Proc) (env : TrapEnv) :
    (sysKill p env).1.killed = p.killed ∧ (sysKill p env).1.signalHandlers = p.signalHandlers ∧
      ∀ sig, (sysKill p env).1.pending sig = true ↔ p.pending sig = true ∨
        (argsig p.trapframe.a1 = some sig ∧ argint p.trapframe.a0 = p.pid) := by
  cases ha : argsig p.trapframe.a1 with
  | none => simp [sysKill, ha]
  | some s =>
    by_cases hp : argint p.trapframe.a0 = p.pid
    · refine ⟨by simp [sysKill, ha, hp, Proc.post], by simp [sysKill, ha, hp, Proc.post], ?_⟩
      intro sig
      have hq : (sysKill p env).1 = p.post s := by simp [sysKill, ha, hp]
      simp only [hq, Proc.pending_post, Bool.or_eq_true, decide_eq_true_eq, Option.some.injEq, hp,
        and_true]
      exact or_congr Iff.rfl eq_comm
    · simp [sysKill, ha, hp]

theorem syscall_cases {p : Proc} (env : TrapEnv) (hexit : argint p.trapframe.a7 ≠ SYS_exit) :
    ∃ q v lines, syscall p env = .done (q.setA0 v) lines ∧
      ((argint p.trapframe.a7 = SYS_signal ∧ q = (sysSignal p).1) ∨
        (argint p.trapframe.a7 = SYS_kill ∧ q = (sysKill p env).1) ∨
        (argint p.trapframe.a7 ≠ SYS_signal ∧ argint p.trapframe.a7 ≠ SYS_kill ∧
          SameSignals p q)) := by
  simp only [syscall, if_neg hexit]
  split_ifs with h1 h2 h3 h4 h5 h6 h7
  · exact ⟨_, _, _, rfl, .inl ⟨h1, rfl⟩⟩
  · exact ⟨_, _, _, rfl, .inr (.inr ⟨h1, by rw [h2]; decide, rfl, rfl, rfl⟩)⟩
  · exact ⟨_, _, _, rfl, .inr (.inl ⟨h3, rfl⟩)⟩
  · exact ⟨_, _, _, rfl, .inr (.inr ⟨h1, h3, sameSignals_sysSendOwn p env⟩)⟩
  · exact ⟨_, _, _, rfl, .inr (.inr ⟨h1, h3, sameSignals_sysRecvOwn p env⟩)⟩
  · exact ⟨_, _, _, rfl, .inr (.inr ⟨h1, h3, sameSignals_execImage p env⟩)⟩
  · exact ⟨_, _, _, rfl, .inr (.inr ⟨h1, h3, rfl, rfl, rfl⟩)⟩
  · exact ⟨_, _, _, rfl, .inr (.inr ⟨h1, h3, rfl, rfl, rfl⟩)⟩

structure Serves (p : Proc) (user : UserFrame) (env : TrapEnv) (q : Proc) : Prop where
  killed : q.killed = 0
  pending : ∀ sig, q.pending sig = true ↔ p.pending sig = true ∨ SelfKill p user env sig
  registered : ∀ sig, Registers user env sig → q.signalHandlers sig = user.a1
  kept : ∀ sig, ¬ Registers user env sig → q.signalHandlers sig = p.signalHandlers sig

theorem serves_of_not_syscall {p : Proc} {user : UserFrame} {env : TrapEnv} (hk : p.killed = 0)
    (hs : env.scause ≠ 8) : Serves p user env (p.saveUser user) where
  killed := hk
  pending sig := by simp [SelfKill, hs, Proc.saveUser, Proc.pending]
  registered sig hr := absurd hr.1 hs
  kept _ _ := rfl

theorem serves_of_syscall {p : Proc} {user : UserFrame} {env : TrapEnv} (hk : p.killed = 0)
    (hs : env.scause = 8) (hexit : argint user.a7 ≠ SYS_exit) :
    ∃ q lines, syscall (p.saveUser { user with epc := user.epc + 4 }) env = .done q lines ∧
      Serves p user env q := by
  obtain ⟨q, v, lines, hq, hcases⟩ := syscall_cases
    (p := p.saveUser { user with epc := user.epc + 4 }) env hexit
  refine ⟨q.setA0 v, lines, hq, ?_⟩
  have hnk : ¬ SYS_signal = SYS_kill := by decide
  have hns : ¬ SYS_kill = SYS_signal := by decide
  rcases hcases with ⟨hn, rfl⟩ | ⟨hn, rfl⟩ | ⟨hn1, hn2, hsame⟩
  · have hn : argint user.a7 = SYS_signal := hn
    have hspec := sysSignal_spec (p.saveUser { user with epc := user.epc + 4 })
    refine ⟨hspec.1.trans hk, ?_, ?_, ?_⟩
    · intro sig
      have hne : ¬ SelfKill p user env sig := fun hsk => hnk (hn.symm.trans hsk.2.1)
      rw [or_iff_left hne]
      exact Eq.congr_left (pending_congr (p := p) (q := Proc.setA0 _ v) hspec.2.1 sig)
    · intro sig hr
      exact (hspec.2.2 sig).trans (if_pos hr.2.2)
    · intro sig hr
      exact (hspec.2.2 sig).trans (if_neg fun ha => hr ⟨hs, hn, ha⟩)
  · have hn : argint user.a7 = SYS_kill := hn
    have hspec := sysKill_spec (p.saveUser { user with epc := user.epc + 4 }) env
    refine ⟨hspec.1.trans hk, ?_, ?_, ?_⟩
    · intro sig
      refine (hspec.2.2 sig).trans (or_congr Iff.rfl ?_)
      exact ⟨fun ha => ⟨hs, hn, ha⟩, fun ha => ha.2.2⟩
    · intro sig hr
      exact absurd (hn.symm.trans hr.2.1) hns
    · intro sig _
      exact congrFun hspec.2.1 sig
  · refine ⟨hsame.1.trans hk, ?_, ?_, ?_⟩
    · intro sig
      have hne : ¬ SelfKill p user env sig := fun hsk => hn2 hsk.2.1
      rw [or_iff_left hne]
      exact Eq.congr_left (pending_congr (p := p) (q := q.setA0 v) hsame.2.1 sig)
    · intro sig hr
      exact absurd hr.2.1 hn1
    · intro sig _
      exact congrFun hsame.2.2 sig

theorem serveTrap_spec {p : Proc} {user : UserFrame} {env : TrapEnv}
    (he : ¬ EndsProcess p user env) :
    ∃ q lines, serveTrap p user env = .done q lines ∧ Serves p user env q := by
  simp only [EndsProcess, not_or, not_not] at he
  obtain ⟨⟨hk, hd⟩, hexit⟩ := he
  by_cases hs : env.scause = 8
  · obtain ⟨q, lines, hq, hserves⟩ := serves_of_syscall hk hs fun hx => hexit ⟨hs, hx⟩
    exact ⟨q, lines, by simpa [serveTrap, hs, hk] using hq, hserves⟩
  · refine ⟨p.saveUser user, [], ?_, serves_of_not_syscall hk hs⟩
    by_cases hdev : devintr env.scause = 0
    · have hv := not_not.mp fun hv => hd ⟨hs, hdev, hv⟩
      simp only [serveTrap, hs, hdev, hv, if_false, if_true, ne_eq, not_true_eq_false, and_self]
    · simp only [serveTrap, hs, hdev, if_false, if_true, ne_eq, not_false_eq_true]

theorem usertrap_of_unexpected {p : Proc} {user : UserFrame} {env : TrapEnv}
    (h : Unexpected env) : usertrap p user env = .exit (-1) := by
  simp [usertrap, serveTrap, h.1, h.2.1, h.2.2]

theorem usertrap_of_callsExit {p : Proc} {user : UserFrame} {env : TrapEnv} (hk : p.killed = 0)
    (h : CallsExit user env) : usertrap p user env = .exit (argint user.a0) := by
  simp [usertrap, serveTrap, syscall, Proc.saveUser, h.1, h.2, hk]

theorem usertrap_of_endsProcess {p q : Proc} {user : UserFrame} {env : TrapEnv}
    {lines : List MailLine} (he : EndsProcess p user env) :
    usertrap p user env ≠ .resume q lines := by
  by_cases hk : p.killed = 0
  · rcases he with (hk' | hd) | hexit
    · exact absurd hk hk'
    · simp [usertrap_of_unexpected hd]
    · simp [usertrap_of_callsExit hk hexit]
  · simp [usertrap_of_killed hk]

theorem fatal_resumed {p q : Proc} {user : UserFrame} {env : TrapEnv}
    (h : Serves p user env q) :
    Fatal (prepareReturn (deliverSignals (env.posted.foldl Proc.post q)) env) ↔
      ¬ AllHandled p user env := by
  change Fatal (deliverSignals _) ↔ _
  obtain ⟨mask, state, he⟩ := foldl_post_eq env.posted q
  have hk : (env.posted.foldl Proc.post q).killed = 0 := by rw [he]; exact h.killed
  have hh : (env.posted.foldl Proc.post q).signalHandlers = q.signalHandlers := by rw [he]
  rw [deliverSignals_fatal]
  simp only [Fatal, hk, hh, foldl_post_pending, Bool.or_eq_true, h.pending,
    decide_eq_true_eq, ne_eq, not_true_eq_false, false_or, AllHandled, not_forall]
  refine exists_congr fun sig => ?_
  rw [or_assoc, or_comm (a := SelfKill p user env sig), exists_prop]
  refine and_congr_right fun _ => ?_
  by_cases hr : Registers user env sig
  · simp [hr, h.registered sig hr]
  · simp [hr, h.kept sig hr]

/-- A trap keeps a fatal signal from user code exactly when the process was killed before, the
trap is unexpected, it is a call `exit(-1)` or an `exit` without a fatal signal, or every signal
pending at its end has a handler. -/
theorem neverReturnsFatal_iff (p : Proc) (user : UserFrame) (env : TrapEnv) :
    NeverReturnsFatal p user env ↔ (p.killed ≠ 0 ∨ Unexpected env) ∨
      (CallsExit user env ∧ (argint user.a0 = -1 ∨ ¬ Fatal p)) ∨
      (¬ CallsExit user env ∧ AllHandled p user env) := by
  by_cases hk : p.killed ≠ 0 ∨ Unexpected env
  · have hu : usertrap p user env = .exit (-1) := hk.elim usertrap_of_killed usertrap_of_unexpected
    refine iff_of_true ⟨?_, fun _ => hu, ?_⟩ (.inl hk) <;> simp [hu]
  rw [or_iff_right hk]
  by_cases hexit : CallsExit user env
  · have hu := usertrap_of_callsExit (not_not.mp (not_or.mp hk).1) hexit
    simp only [hexit, true_and, not_true_eq_false, false_and, or_false]
    constructor
    · intro h
      exact or_iff_not_imp_right.mpr fun hf => h.status (not_not.mp hf) _ hu
    · intro h
      refine ⟨by simp [hu], fun hd => absurd hd hk, fun hf st hst => ?_⟩
      rw [hu, TrapEnd.exit.injEq] at hst
      exact hst ▸ h.resolve_right (not_not.mpr hf)
  · simp only [hexit, false_and, not_false_eq_true, true_and, false_or]
    obtain ⟨q, lines, hs, hq⟩ := serveTrap_spec (not_or.mpr ⟨hk, hexit⟩)
    have hu := usertrap_of_serveTrap hs hq.killed
    have hf := fatal_resumed hq
    constructor
    · intro h
      exact not_not.mp fun hn => h.back _ _ hu (hf.mpr hn)
    · intro hall
      refine ⟨fun r ls hr => ?_, fun hd => absurd hd hk, by simp [hu]⟩
      rw [hu, TrapEnd.resume.injEq] at hr
      rw [← hr.1]
      exact fun hfat => hf.mp hfat hall

theorem killed_returns_to_user :
    ¬ NeverReturnsFatal { pid := 3, pendingSignals := 0x200 } { a7 := 11 } { ret := 3 } ∧
    ∃ q lines, usertrap { pid := 3, pendingSignals := 0x200 } { a7 := 11 } { ret := 3 } =
      .resume q lines ∧ q.killed = 1 := by
  have h : ∃ q lines, usertrap { pid := 3, pendingSignals := 0x200 } { a7 := 11 } { ret := 3 } =
      .resume q lines ∧ q.killed = 1 := ⟨_, _, rfl, by decide⟩
  refine ⟨fun hn => ?_, h⟩
  obtain ⟨q, lines, hq, hk⟩ := h
  exact hn.back q lines hq (.inl (by rw [hk]; exact one_ne_zero))

end OsProject
