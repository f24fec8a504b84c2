import OsProject.SignalRun

/-! No signal is lost, delivered twice or nested, in any run of a process that starts without
signal state. -/

namespace OsProject

structure NoSignals (p : Proc) : Prop where
  pending : p.pendingSignals = 0
  handlers : p.signalHandlers = fun _ => 0
  outside : p.inSignalHandler = 0

/-- The step is a call `kkill(pid, sig)`, by another process or by the process itself. -/
def Posts (s : SigState) (sig : Fin 32) : SigEvent → Prop
  | .kill t => t = sig
  | .trap user env =>
    s.exited = false ∧ s.inTrap = false ∧ s.p.killed = 0 ∧ SelfKill s.p user env sig
  | .deliver _ => False

/-- The step is the `deliver_signals` that takes the bit of `sig`, to enter its handler or to mark
the process killed for want of one. -/
def Takes (sig : Fin 32) (s : SigState) (e : SigEvent) : Prop :=
  (∃ env, e = .deliver env) ∧ (sigStep s e).p.pending sig = false ∧
    (Enters s.p sig ∨ (s.p.signalHandlers sig = 0 ∧ (deliverSignals s.p).killed ≠ 0))

/-- The step is a call of `sigreturn` by the process. -/
def LeavesHandler (s : SigState) (e : SigEvent) : Prop :=
  s.exited = false ∧ s.inTrap = false ∧ ∃ user env, e = .trap user env ∧ Sigreturns user env

/-- One `deliver_signals` enters the handler of the least handled signal or none. -/
structure DeliversOne (p : Proc) : Prop where
  least : ∀ sig, Enters p sig → Handled p sig ∧ ∀ t, t < sig → ¬ Handled p t
  target : ∀ sig, Enters p sig → (deliverSignals p).trapframe.epc = p.signalHandlers sig
  unique : ∀ sig t, Enters p sig → Enters p t → sig = t
  above : ∀ sig t, Enters p sig → sig < t → (deliverSignals p).pending t = p.pending t
  otherwise : (∀ sig, ¬ Enters p sig) → (deliverSignals p).trapframe = p.trapframe

theorem ofNat_sig_injective {sig t : Fin 32}
    (h : UInt64.ofNat sig.val = UInt64.ofNat t.val) : sig = t := by
  have hlt : ∀ s : Fin 32, s.val < UInt64.size := fun s => s.isLt.trans (by decide)
  have hn := congrArg UInt64.toNat h
  rw [UInt64.toNat_ofNat_of_lt' (hlt sig), UInt64.toNat_ofNat_of_lt' (hlt t)] at hn
  exact Fin.ext hn

theorem exists_least_handled {p : Proc} (h : ∃ sig, Handled p sig) :
    ∃ sig, Handled p sig ∧ ∀ t, t < sig → ¬ Handled p t := by
  obtain ⟨sig, hs, hmin⟩ := wellFounded_lt.has_min {sig | Handled p sig} h
  exact ⟨sig, hs, fun t ht hht => hmin t hht ht⟩

theorem enters_of_least {p : Proc} {sig : Fin 32} (hi : p.inSignalHandler = 0)
    (hh : Handled p sig) (hmin : ∀ t, t < sig → ¬ Handled p t) :
    Enters p sig ∧ (deliverSignals p).signalTrapframe = p.trapframe ∧
      (deliverSignals p).inSignalHandler = 1 ∧
      (deliverSignals p).trapframe.epc = p.signalHandlers sig ∧
      (deliverSignals p).pending sig = false ∧
      ∀ t, sig < t → (deliverSignals p).pending t = p.pending t := by
  have hd : deliverSignals p = deliverFrom (List.finRange 32) p := by simp [deliverSignals, hi]
  have hr := deliverFrom_redirect (List.finRange 32) ⟨sig, List.mem_finRange sig, hh⟩
  have hl := deliverFrom_least (List.pairwise_lt_finRange 32) (List.mem_finRange sig) hh hmin
  rw [Enters, hd]
  exact ⟨⟨hi, by rw [hr.1]; exact one_ne_zero, by rw [hl.1]⟩, hr.2, hr.1, by rw [hl.1], hl.2⟩

theorem enters_least {p : Proc} {sig : Fin 32} (h : Enters p sig) :
    Handled p sig ∧ ∀ t, t < sig → ¬ Handled p t := by
  have hex : ∃ t, Handled p t := by
    by_contra hn
    have hd := deliverFrom_not_handled (List.finRange 32) (p := p)
      (fun t _ ht => hn ⟨t, ht⟩)
    apply h.2.1
    simp only [deliverSignals, h.1, ne_eq, not_true_eq_false, if_false, hd.1]
  obtain ⟨t, ht, hmin⟩ := exists_least_handled hex
  have hs : sig = t :=
    ofNat_sig_injective (h.2.2.symm.trans (enters_of_least h.1 ht hmin).1.2.2)
  exact hs ▸ ⟨ht, hmin⟩

theorem enters_effect {p : Proc} {sig : Fin 32} (h : Enters p sig) :
    (deliverSignals p).signalTrapframe = p.trapframe ∧
      (deliverSignals p).inSignalHandler = 1 ∧
      (deliverSignals p).trapframe.epc = p.signalHandlers sig ∧
      (deliverSignals p).pending sig = false ∧
      ∀ t, sig < t → (deliverSignals p).pending t = p.pending t :=
  (enters_of_least h.1 (enters_least h).1 (enters_least h).2).2

theorem deliverSignals_not_enters {p : Proc} (h : ∀ sig, ¬ Enters p sig) :
    (deliverSignals p).trapframe = p.trapframe ∧
      (deliverSignals p).signalTrapframe = p.signalTrapframe ∧
      (deliverSignals p).inSignalHandler = p.inSignalHandler := by
  by_cases hi : p.inSignalHandler = 0
  · have hn : ∀ sig ∈ List.finRange 32, ¬ Handled p sig := by
      intro sig _ hh
      obtain ⟨t, ht, hmin⟩ := exists_least_handled ⟨sig, hh⟩
      exact h t (enters_of_least hi ht hmin).1
    have hd := deliverFrom_not_handled _ hn
    simp only [deliverSignals, hi, ne_eq, not_true_eq_false, if_false, hd, and_self]
  · simp [deliverSignals, hi]

theorem deliversOne (p : Proc) : DeliversOne p where
  least _ h := enters_least h
  target _ h := (enters_effect h).2.2.1
  unique _ _ hs ht := ofNat_sig_injective (hs.2.2.symm.trans ht.2.2)
  above _ t h ht := (enters_effect h).2.2.2.2 t ht
  otherwise h := (deliverSignals_not_enters h).1

theorem deliverSignals_pending {p : Proc} {sig : Fin 32}
    (h : (deliverSignals p).pending sig = true) : p.pending sig = true := by
  by_cases hi : p.inSignalHandler = 0
  · simp only [deliverSignals, hi, ne_eq, not_true_eq_false, if_false] at h
    exact deliverFrom_pending _ h
  · simpa [deliverSignals, hi] using h

theorem deliverSignals_takes {p : Proc} {sig : Fin 32} (hp : p.pending sig = true)
    (h : (deliverSignals p).pending sig = false) :
    Enters p sig ∨ (p.signalHandlers sig = 0 ∧ (deliverSignals p).killed ≠ 0) := by
  by_cases hi : p.inSignalHandler = 0
  · have hd : deliverSignals p = deliverFrom (List.finRange 32) p := by simp [deliverSignals, hi]
    rw [hd] at h
    rw [Enters, hd]
    rcases deliverFrom_takes _ hp h with hk | ⟨hin, ha⟩
    · exact .inr hk
    · exact .inl ⟨hi, by rw [hin]; exact one_ne_zero, ha⟩
  · simp [deliverSignals, hi, hp] at h

theorem pending_of_posts {s : SigState} {sig : Fin 32} {e : SigEvent} (h : Posts s sig e) :
    (sigStep s e).p.pending sig = true := by
  cases e with
  | kill t =>
    change (s.p.post t).pending sig = true
    simp [show t = sig from h]
  | trap user env =>
    obtain ⟨hrun, hout, hk, hself⟩ := h
    have hexit : argint user.a7 ≠ SYS_exit := by
      rw [hself.2.1]
      decide
    have he : ¬ EndsProcess s.p user env := by
      simp [EndsProcess, Unexpected, CallsExit, hk, hself.1, hexit]
    obtain ⟨q, lines, hq, hserves⟩ := serveTrap_spec he
    simp only [sigStep, hrun, hout, Bool.false_eq_true, or_self, if_false,
      passesTrap_eq_some.mpr ⟨lines, hq, hserves.killed⟩]
    exact (hserves.pending sig).mpr (.inr hself)
  | deliver env => exact absurd h id

theorem pending_step {s : SigState} {sig : Fin 32} {e : SigEvent} (hp : s.p.pending sig = true)
    (h : ¬ Takes sig s e) : (sigStep s e).p.pending sig = true := by
  have hmove := sigStep_move s e
  rw [Takes] at h
  generalize sigStep s e = t at hmove h
  cases hmove with
  | stay | exit => exact hp
  | kill t =>
    change (s.p.post t).pending sig = true
    simp [hp]
  | trap _ _ hq => exact ((passesTrap_serves hq).pending sig).mpr (.inl hp)
  | deliver env _ _ =>
    by_contra hn
    have hf : (deliverSignals s.p).pending sig = false := Bool.eq_false_of_not_eq_true hn
    exact h ⟨⟨env, rfl⟩, hf, deliverSignals_takes hp hf⟩

def Accounted (s : SigState) : Prop :=
  ∀ sig, s.entries sig + (if s.p.pending sig = true then 1 else 0) ≤ s.kills sig

theorem accounted_step (s : SigState) (e : SigEvent) (h : Accounted s) :
    Accounted (sigStep s e) := by
  have hmove := sigStep_move s e
  generalize sigStep s e = t at hmove
  intro sig
  have hsig := h sig
  cases hmove with
  | stay | exit => exact hsig
  | kill t =>
    by_cases ht : sig = t
    · subst ht
      simp only [SigState.kill, Proc.pending_post, Function.update_self, decide_true, Bool.or_true,
        if_true]
      omega
    · simpa [SigState.kill, ht] using hsig
  | @trap user env q _ _ hq =>
    have hp := (passesTrap_serves hq).pending sig
    simp only [SigState.trapTo, hp]
    by_cases hself : SelfKill s.p user env sig
    · simp only [hself, or_true, if_true]
      omega
    · simpa only [hself, or_false, if_false, Nat.add_zero] using hsig
  | deliver env _ _ =>
    change s.entries sig + (if Enters s.p sig then 1 else 0) +
      (if (deliverSignals s.p).pending sig = true then 1 else 0) ≤ s.kills sig
    by_cases he : Enters s.p sig
    · simp only [(enters_least he).1.1, if_true] at hsig
      simp only [he, (enters_effect he).2.2.2.1, if_true, Bool.false_eq_true, if_false]
      omega
    · by_cases hq : (deliverSignals s.p).pending sig = true
      · simp only [deliverSignals_pending hq, if_true] at hsig
        simpa only [he, hq, if_true, if_false, Nat.add_zero] using hsig
      · simp only [he, hq, Bool.false_eq_true, if_false]
        omega

def Interrupted (f : Trapframe) (s : SigState) : Prop :=
  s.p.inSignalHandler ≠ 0 ∧ s.p.signalTrapframe = f

theorem interrupted_step {f : Trapframe} {s : SigState} {e : SigEvent} (h : Interrupted f s)
    (hl : ¬ LeavesHandler s e) : Interrupted f (sigStep s e) := by
  have hmove := sigStep_move s e
  generalize sigStep s e = t at hmove
  cases hmove with
  | stay | exit | kill => exact h
  | @trap user env q hrun hout hq =>
    have hf := passesTrap_frames hq fun hr => hl ⟨hrun, hout, user, env, rfl, hr⟩
    exact ⟨hf.1.symm ▸ h.1, hf.2.trans h.2⟩
  | deliver env _ _ =>
    -- `deliver_signals` returns at once inside a handler.
    have hd : deliverSignals s.p = s.p := by simp [deliverSignals, h.1]
    simpa only [Interrupted, SigState.deliver, prepareReturn, hd] using h

theorem interrupted_of_enters {s : SigState} {sig : Fin 32} (hrun : s.exited = false)
    (hin : s.inTrap = true) (h : Enters s.p sig) (env : TrapEnv) :
    Interrupted s.p.trapframe (sigStep s (.deliver env)) := by
  have hstep : sigStep s (.deliver env) = s.deliver env := by simp [sigStep, hrun, hin]
  rw [hstep]
  exact ⟨h.2.1, (enters_effect h).1⟩

/-- The laws of signal delivery at a state `s` of a run that goes on with `es`. -/
structure SignalsExact (s : SigState) (es : List SigEvent) : Prop where
  kept : ∀ sig e, Posts s sig e →
    Until sigStep (fun t => t.p.pending sig = true) (Takes sig) (sigStep s e) es
  counted : ∀ sig, s.entries sig ≤ s.kills sig
  one : DeliversOne s.p
  frame : ∀ sig env, s.exited = false → s.inTrap = true → Enters s.p sig →
    Until sigStep (fun t => t.p.signalTrapframe = s.p.trapframe) LeavesHandler
      (sigStep s (.deliver env)) es

theorem signals_exact {p : Proc} (hp : NoSignals p) (past future : List SigEvent) :
    SignalsExact (past.foldl sigStep { p := p }) future := by
  have hstart : Accounted { p := p } := by
    intro sig
    simp [Proc.pending, hp.pending]
  have hinv := (always_of_inv accounted_step (fun _ h => h) hstart past).last
  refine ⟨fun sig e hpost => ?_, fun sig => ?_, deliversOne _, fun sig env hrun hin he => ?_⟩
  · exact until_of_step (Q := fun t : SigState => t.p.pending sig = true) (fun _ _ => pending_step)
      (fun _ h => h) (pending_of_posts hpost) future
  · exact (Nat.le_add_right _ _).trans (hinv sig)
  · exact until_of_step (fun _ _ => interrupted_step) (fun _ h => h.2)
      (interrupted_of_enters hrun hin he env) future

theorem signals_exact_handler :
    NoSignals {} ∧ SignalsExact ([.trap { a7 := 23, a0 := 10, a1 := 128 } {}, .kill 10].foldl
      sigStep { p := {} }) [.deliver {}, .trap { a7 := 24 } {}, .deliver {}] :=
  ⟨⟨rfl, rfl, rfl⟩, signals_exact ⟨rfl, rfl, rfl⟩ _ _⟩

end OsProject
