import OsProject.FatalSignal
import OsProject.Runs

/-! The signals of a process over its whole life. A trap is two steps, so that other processes can
post signals between its own work and `deliver_signals`. -/

namespace OsProject

/-- `deliver_signals` makes the process enter the handler of `sig`. -/
def Enters (p : Proc) (sig : Fin 32) : Prop :=
  p.inSignalHandler = 0 ∧ (deliverSignals p).inSignalHandler ≠ 0 ∧
    (deliverSignals p).trapframe.a0 = UInt64.ofNat sig.val

instance (p : Proc) (sig : Fin 32) : Decidable (Enters p sig) :=
  inferInstanceAs (Decidable (p.inSignalHandler = 0 ∧ (deliverSignals p).inSignalHandler ≠ 0 ∧
    (deliverSignals p).trapframe.a0 = UInt64.ofNat sig.val))

instance (p : Proc) (user : UserFrame) (env : TrapEnv) (sig : Fin 32) :
    Decidable (SelfKill p user env sig) :=
  inferInstanceAs (Decidable (env.scause = 8 ∧ argint user.a7 = SYS_kill ∧
    argsig user.a1 = some sig ∧ argint user.a0 = p.pid))

instance (user : UserFrame) (env : TrapEnv) (sig : Fin 32) : Decidable (Registers user env sig) :=
  inferInstanceAs (Decidable (env.scause = 8 ∧ argint user.a7 = SYS_signal ∧
    argsig user.a0 = some sig))

/-- The trap is a call of `sigreturn`. -/
def Sigreturns (user : UserFrame) (env : TrapEnv) : Prop :=
  env.scause = 8 ∧ argint user.a7 = SYS_sigreturn

instance (user : UserFrame) (env : TrapEnv) : Decidable (Sigreturns user env) :=
  inferInstanceAs (Decidable (env.scause = 8 ∧ argint user.a7 = SYS_sigreturn))

/-- The trap is a call of `exec` that succeeds. -/
def Execs (user : UserFrame) (env : TrapEnv) : Prop :=
  env.scause = 8 ∧ argint user.a7 = SYS_exec ∧ env.image.isSome = true

instance (user : UserFrame) (env : TrapEnv) : Decidable (Execs user env) :=
  inferInstanceAs (Decidable (env.scause = 8 ∧ argint user.a7 = SYS_exec ∧
    env.image.isSome = true))

/-- The process as the trap's own work leaves it, unless it ends in `kexit`. -/
def passesTrap (p : Proc) (user : UserFrame) (env : TrapEnv) : Option Proc :=
  match serveTrap p user env with
  | .exit _ => none
  | .done q _ => if q.killed = 0 then some q else none

/-- A whole call of `kkill` that finds the process, its own trap up to the second test of
`killed`, and the rest of that trap from `deliver_signals` on. -/
inductive SigEvent
  | kill (sig : Fin 32)
  | trap (user : UserFrame) (env : TrapEnv)
  | deliver (env : TrapEnv)

/-- The image under which `signal_trapframe` was last saved. -/
inductive SavedUnder
  | never | current | replaced
  deriving DecidableEq

def SavedUnder.exec : SavedUnder → SavedUnder
  | .never => .never
  | .current | .replaced => .replaced

/-- The process and where it is. The rest only records the past: for each signal the `kkill` calls
that found the process and the entries into its handler, and the addresses registered and the
frame saved since the last successful `exec`. -/
structure SigState where
  p : Proc := {}
  inTrap : Bool := false
  exited : Bool := false
  kills : Fin 32 → Nat := fun _ => 0
  entries : Fin 32 → Nat := fun _ => 0
  registered : List UInt64 := []
  saved : SavedUnder := .never

def registeredBy (user : UserFrame) (env : TrapEnv) (addrs : List UInt64) : List UInt64 :=
  if Execs user env then []
  else if ∃ sig, Registers user env sig then user.a1 :: addrs
  else addrs

def SigState.kill (s : SigState) (sig : Fin 32) : SigState :=
  { s with p := s.p.post sig, kills := Function.update s.kills sig (s.kills sig + 1) }

def SigState.trapTo (s : SigState) (user : UserFrame) (env : TrapEnv) (q : Proc) : SigState :=
  { s with
    p := q
    inTrap := true
    kills := fun sig => s.kills sig + if SelfKill s.p user env sig then 1 else 0
    registered := registeredBy user env s.registered
    saved := if Execs user env then s.saved.exec else s.saved }

def SigState.deliver (s : SigState) (env : TrapEnv) : SigState :=
  { s with
    p := prepareReturn (deliverSignals s.p) env
    inTrap := false
    entries := fun sig => s.entries sig + if Enters s.p sig then 1 else 0
    saved := if ∃ sig, Enters s.p sig then .current else s.saved }

/-- A process that has exited takes no trap, but `kkill` still finds it until it is reaped. -/
def sigStep (s : SigState) : SigEvent → SigState
  | .kill sig => s.kill sig
  | .trap user env =>
    if s.exited ∨ s.inTrap then s
    else
      match passesTrap s.p user env with
      | none => { s with exited := true }
      | some q => s.trapTo user env q
  | .deliver env => if s.exited ∨ ¬ s.inTrap then s else s.deliver env

inductive SigMove (s : SigState) : SigEvent → SigState → Prop
  | stay (e : SigEvent) : SigMove s e s
  | kill (sig : Fin 32) : SigMove s (.kill sig) (s.kill sig)
  | exit (user : UserFrame) (env : TrapEnv) : SigMove s (.trap user env) { s with exited := true }
  | trap {user : UserFrame} {env : TrapEnv} {q : Proc} (hrun : s.exited = false)
      (hout : s.inTrap = false) (hq : passesTrap s.p user env = some q) :
      SigMove s (.trap user env) (s.trapTo user env q)
  | deliver (env : TrapEnv) (hrun : s.exited = false) (hin : s.inTrap = true) :
      SigMove s (.deliver env) (s.deliver env)

theorem sigStep_move (s : SigState) (e : SigEvent) : SigMove s e (sigStep s e) := by
  cases e with
  | kill sig => exact .kill sig
  | trap user env =>
    by_cases hs : s.exited = true ∨ s.inTrap = true
    · rw [sigStep, if_pos hs]
      exact .stay _
    · rw [sigStep, if_neg hs]
      simp only [not_or, Bool.not_eq_true] at hs
      cases hq : passesTrap s.p user env with
      | none => exact .exit user env
      | some q => exact .trap hs.1 hs.2 hq
  | deliver env =>
    by_cases hs : s.exited = true ∨ ¬ s.inTrap = true
    · rw [sigStep, if_pos hs]
      exact .stay _
    · rw [sigStep, if_neg hs]
      rw [not_or, not_not, Bool.not_eq_true] at hs
      exact .deliver env hs.1 hs.2

theorem passesTrap_eq_some {p q : Proc} {user : UserFrame} {env : TrapEnv} :
    passesTrap p user env = some q ↔
      ∃ lines, serveTrap p user env = .done q lines ∧ q.killed = 0 := by
  cases hs : serveTrap p user env with
  | exit status => simp [passesTrap, hs]
  | done r lines =>
    by_cases hk : r.killed = 0
    · simp only [passesTrap, hs, hk, if_true, Option.some.injEq, CallEnd.done.injEq]
      constructor
      · rintro rfl
        exact ⟨lines, ⟨rfl, rfl⟩, hk⟩
      · rintro ⟨_, ⟨rfl, _⟩, _⟩
        rfl
    · simp only [passesTrap, hs, hk, if_false, reduceCtorEq, CallEnd.done.injEq, false_iff]
      rintro ⟨_, ⟨rfl, _⟩, hq⟩
      exact hk hq

theorem passesTrap_serves {p q : Proc} {user : UserFrame} {env : TrapEnv}
    (h : passesTrap p user env = some q) : Serves p user env q := by
  obtain ⟨lines, hs, hk⟩ := passesTrap_eq_some.mp h
  by_cases he : EndsProcess p user env
  · exact absurd (usertrap_of_serveTrap hs hk) (usertrap_of_endsProcess he)
  · obtain ⟨r, ls, hr, hserves⟩ := serveTrap_spec he
    rw [hs, CallEnd.done.injEq] at hr
    rw [hr.1]
    exact hserves

theorem passesTrap_frames {p q : Proc} {user : UserFrame} {env : TrapEnv}
    (h : passesTrap p user env = some q) (hsig : ¬ Sigreturns user env) :
    q.inSignalHandler = p.inSignalHandler ∧ q.signalTrapframe = p.signalTrapframe := by
  obtain ⟨_, hs, _⟩ := passesTrap_eq_some.mp h
  exact (serveTrap_frames hs).resolve_right fun hr => hsig hr.1

theorem foldl_kill (posted : List (Fin 32)) (s : SigState) :
    ((posted.map SigEvent.kill).foldl sigStep s).p = posted.foldl Proc.post s.p ∧
      ((posted.map SigEvent.kill).foldl sigStep s).inTrap = s.inTrap ∧
      ((posted.map SigEvent.kill).foldl sigStep s).exited = s.exited := by
  induction posted generalizing s with
  | nil => exact ⟨rfl, rfl, rfl⟩
  | cons sig posted ih => exact ih (s.kill sig)

theorem sigStep_usertrap {s : SigState} {user : UserFrame} {env : TrapEnv} {q : Proc}
    {lines : List MailLine} (hrun : s.exited = false) (hout : s.inTrap = false)
    (h : usertrap s.p user env = .resume q lines) :
    ((SigEvent.trap user env :: env.posted.map SigEvent.kill ++ [SigEvent.deliver env]).foldl
      sigStep s).p = q := by
  obtain ⟨m, hm, hk, rfl⟩ := usertrap_eq_resume h
  have hstep : sigStep s (.trap user env) = s.trapTo user env m := by
    simp only [sigStep, hrun, hout, Bool.false_eq_true, or_self, if_false,
      passesTrap_eq_some.mpr ⟨lines, hm, hk⟩]
  obtain ⟨hp, hin, hex⟩ := foldl_kill env.posted (s.trapTo user env m)
  replace hex := hex.trans hrun
  replace hin := hin.trans (rfl : _ = true)
  rw [List.cons_append, List.foldl_cons, hstep, List.foldl_append, List.foldl_cons, List.foldl_nil,
    sigStep, if_neg (by simp [hin, hex])]
  exact congrArg (fun p => prepareReturn (deliverSignals p) env) hp

end OsProject
