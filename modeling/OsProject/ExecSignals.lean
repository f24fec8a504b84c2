import OsProject.SignalHistory

/-! Signals across `exec`. `kexec` replaces the address space but not the handlers, the handler
flag and the saved frame, which belong to the old image. -/

namespace OsProject

/-- What a step may do when no signal state survives `exec`: a handler that is entered was
registered by the present image, `exec` leaves the process outside any handler, and `sigreturn`
does not install a frame that was saved under an earlier image. -/
def ExecLaw (s : SigState) : SigEvent → Prop
  | .kill _ => True
  | .trap user env =>
    s.exited = false → s.inTrap = false → s.p.killed = 0 →
      (Execs user env → (sigStep s (.trap user env)).p.inSignalHandler = 0) ∧
        (Sigreturns user env → s.saved ≠ .replaced)
  | .deliver _ =>
    s.exited = false → s.inTrap = true → ∀ sig, Enters s.p sig →
      (deliverSignals s.p).trapframe.epc ∈ s.registered

/-- The process calls `exec` only outside its handlers and after it has removed them all, and
`sigreturn` only inside a handler. -/
def ExecClean (s : SigState) : SigEvent → Prop
  | .trap user env =>
    (Execs user env → s.p.inSignalHandler = 0 ∧ ∀ sig, s.p.signalHandlers sig = 0) ∧
      (Sigreturns user env → s.p.inSignalHandler ≠ 0)
  | _ => True

instance (s : SigState) : ∀ e, Decidable (ExecClean s e)
  | .kill _ => inferInstanceAs (Decidable True)
  | .trap user env => inferInstanceAs (Decidable
      ((Execs user env → s.p.inSignalHandler = 0 ∧ ∀ sig, s.p.signalHandlers sig = 0) ∧
        (Sigreturns user env → s.p.inSignalHandler ≠ 0)))
  | .deliver _ => inferInstanceAs (Decidable True)

structure OwnSignals (s : SigState) : Prop where
  handlers : ∀ sig, s.p.signalHandlers sig ≠ 0 → s.p.signalHandlers sig ∈ s.registered
  saved : s.p.inSignalHandler ≠ 0 → s.saved = .current

theorem ownSignals_trap {s : SigState} {user : UserFrame} {env : TrapEnv} {q : Proc}
    (h : OwnSignals s) (hc : ExecClean s (.trap user env))
    (hq : passesTrap s.p user env = some q) : OwnSignals (s.trapTo user env q) := by
  have hserves := passesTrap_serves hq
  constructor
  · intro sig hne
    change q.signalHandlers sig ∈ registeredBy user env s.registered
    change q.signalHandlers sig ≠ 0 at hne
    by_cases hx : Execs user env
    · have hnr : ¬ Registers user env sig := fun hr =>
        absurd (hx.2.1.symm.trans hr.2.1) (by decide)
      exact absurd ((hserves.kept sig hnr).trans ((hc.1 hx).2 sig)) hne
    · rw [registeredBy, if_neg hx]
      by_cases hr : Registers user env sig
      · rw [if_pos ⟨sig, hr⟩, hserves.registered sig hr]
        exact List.mem_cons_self
      · have hk := hserves.kept sig hr
        have hmem : q.signalHandlers sig ∈ s.registered :=
          hk ▸ h.handlers sig (hk ▸ hne)
        split_ifs
        · exact List.mem_cons_of_mem _ hmem
        · exact hmem
  · intro hin
    change q.inSignalHandler ≠ 0 at hin
    change (if Execs user env then s.saved.exec else s.saved) = .current
    obtain ⟨_, hs, _⟩ := passesTrap_eq_some.mp hq
    have hkeep : q.inSignalHandler = s.p.inSignalHandler := by
      rcases serveTrap_frames hs with hf | hf
      · exact hf.1
      · exact absurd hf.2.1 hin
    rw [hkeep] at hin
    rw [if_neg fun hx => hin (hc.1 hx).1]
    exact h.saved hin

theorem ownSignals_deliver {s : SigState} (h : OwnSignals s) (env : TrapEnv) :
    OwnSignals (s.deliver env) := by
  constructor
  · change ∀ sig, (deliverSignals s.p).signalHandlers sig ≠ 0 →
      (deliverSignals s.p).signalHandlers sig ∈ s.registered
    rw [deliverSignals_handlers]
    exact h.handlers
  · intro hin
    change (deliverSignals s.p).inSignalHandler ≠ 0 at hin
    change (if ∃ sig, Enters s.p sig then .current else s.saved) = SavedUnder.current
    split_ifs with he
    · rfl
    · rw [(deliverSignals_not_enters (not_exists.mp he)).2.2] at hin
      exact h.saved hin

theorem ownSignals_step (s : SigState) (e : SigEvent) (h : OwnSignals s) (hc : ExecClean s e) :
    OwnSignals (sigStep s e) := by
  have hmove := sigStep_move s e
  generalize sigStep s e = t at hmove
  cases hmove with
  | stay | exit | kill => exact ⟨h.handlers, h.saved⟩
  | trap _ _ hq => exact ownSignals_trap h hc hq
  | deliver env _ _ => exact ownSignals_deliver h env

theorem inSignalHandler_exec {s : SigState} {user : UserFrame} {env : TrapEnv}
    (hx : Execs user env) (hin : s.p.inSignalHandler = 0) :
    (sigStep s (.trap user env)).p.inSignalHandler = 0 := by
  have hmove := sigStep_move s (.trap user env)
  generalize sigStep s (.trap user env) = t at hmove
  cases hmove with
  | stay | exit => exact hin
  | trap _ _ hq =>
    have hns : ¬ Sigreturns user env := fun hs => absurd (hx.2.1.symm.trans hs.2) (by decide)
    exact (passesTrap_frames hq hns).1.trans hin

theorem execLaw_of_ownSignals (s : SigState) (e : SigEvent) (h : OwnSignals s)
    (hc : ExecClean s e) : ExecLaw s e := by
  cases e with
  | kill sig => trivial
  | trap user env =>
    intro _ _ _
    refine ⟨fun hx => inSignalHandler_exec hx (hc.1 hx).1, fun hs hr => ?_⟩
    rw [h.saved (hc.2 hs)] at hr
    cases hr
  | deliver env =>
    intro _ _ sig he
    rw [(enters_effect he).2.2.1]
    exact h.handlers sig (enters_least he).1.2

/-- A process that starts without signal state and keeps its calls of `exec` clean never meets the
signal state of an image that `exec` has replaced. -/
theorem exec_drops_signals {p : Proc} (hp : NoSignals p) {es : List SigEvent}
    (h : Meets sigStep ExecClean { p := p } es) : Meets sigStep ExecLaw { p := p } es := by
  refine meets_of_inv ownSignals_step execLaw_of_ownSignals ⟨fun sig hne => ?_, fun hin => ?_⟩ h
  · exact absurd (congrFun hp.handlers sig) hne
  · exact absurd hp.outside hin

def registerCall : SigEvent := .trap { a7 := 23, a0 := 10, a1 := 128 } {}

def unregisterCall : SigEvent := .trap { a7 := 23, a0 := 10, a1 := 0 } {}

def execCall : SigEvent := .trap { a7 := 7 } { image := some (0, 4096, 1) }

def returnCall : SigEvent := .trap { a7 := 24 } {}

def getpidCall : SigEvent := .trap { a7 := 11 } {}

theorem exec_drops_signals_removed :
    NoSignals {} ∧ Meets sigStep ExecLaw { p := {} }
      [registerCall, .deliver {}, .kill 10, getpidCall, .deliver {}, returnCall, .deliver {},
        unregisterCall, .deliver {}, execCall, .deliver {}] :=
  ⟨⟨rfl, rfl, rfl⟩, exec_drops_signals ⟨rfl, rfl, rfl⟩ (by decide +kernel)⟩

theorem exec_keeps_signals :
    ¬ Meets sigStep ExecLaw { p := {} }
        [registerCall, .deliver {}, execCall, .deliver {}, getpidCall, .kill 10, .deliver {}] ∧
    ¬ Meets sigStep ExecLaw { p := {} }
        [registerCall, .kill 10, .deliver {}, execCall] ∧
    ¬ Meets sigStep ExecLaw { p := {} }
        [registerCall, .kill 10, .deliver {}, returnCall, .deliver {}, execCall, .deliver {},
          returnCall] := by
  refine ⟨fun h => ?_, fun h => ?_, fun h => ?_⟩
  · have hmem := h.2.2.2.2.2.2.1 rfl rfl 10 (by decide +kernel)
    revert hmem
    decide +kernel
  · have hin := (h.2.2.2.1 rfl rfl rfl).1 (by decide +kernel)
    revert hin
    decide +kernel
  · exact (h.2.2.2.2.2.2.2.1 rfl rfl rfl).2 (by decide +kernel) (by decide +kernel)

end OsProject
