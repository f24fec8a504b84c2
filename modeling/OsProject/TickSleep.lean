import OsProject.Semaphore

/-! `sys_pause` and `sys_sleep`: a process waits for a number of clock ticks. The counter `ticks` is a
`uint`. Each pass of the loop, with `tickslock` held, is one step. -/

namespace OsProject

/-- The address of `ticks`, as a sleep channel. -/
def ticksChan : Nat := 2

/-- The loop condition of `sys_pause`, where `ticks0` is a `uint` and a negative `n` is set to 0. -/
def pauseWaits (n : Int) (ticks0 ticks : UInt32) : Bool :=
  ticks - ticks0 < UInt32.ofInt (if n < 0 then 0 else n)

/-- The loop condition of `sys_sleep`, where `ticks0` is a `uint64`. -/
def sleepWaits (n : Int) (ticks0 : UInt64) (ticks : UInt32) : Bool :=
  ticks.toUInt64 - ticks0 < UInt64.ofInt n

structure TickState where
  ticks : UInt32
  proc : Proc
  ret : Option Int := none

/-- What happens to the caller: a clock interrupt, a `kkill`, its `killed` flag, or the scheduler. -/
inductive TickEvent
  | clockintr
  | kkill (sig : Fin 32)
  | setkilled
  | dispatch
  deriving DecidableEq, Repr

variable (waits : UInt32 → Bool)

def tickPass (s : TickState) : TickState :=
  if waits s.ticks then
    if s.proc.killed ≠ 0 then { s with ret := some (-1) }
    else { s with proc := { s.proc with chan := ticksChan, state := .sleeping } }
  else { s with ret := some 0 }

def tickStep (s : TickState) : TickEvent → TickState
  | .clockintr =>
    { s with
      ticks := s.ticks + 1
      proc := if s.proc.SleepsOn ticksChan then { s.proc with state := .runnable } else s.proc }
  | .kkill sig => { s with proc := s.proc.post sig }
  | .setkilled => { s with proc := { s.proc with killed := 1 } }
  | .dispatch =>
    if s.proc.state = .runnable ∧ s.ret = none then
      tickPass waits { s with proc := { s.proc with state := .running, chan := 0 } }
    else s

/-- The call of process `p` at `ticks0`, and then the events. -/
def tickRun (ticks0 : UInt32) (p : Proc) (events : List TickEvent) : TickState :=
  events.foldl (tickStep waits) (tickPass waits { ticks := ticks0, proc := p })

/-- `sys_pause` with the argument register `x`. -/
def sysPause (x : UInt64) (ticks0 : UInt32) (p : Proc) (events : List TickEvent) : TickState :=
  tickRun (pauseWaits (argint x) ticks0) ticks0 p events

/-- `sys_sleep` with the argument register `x`. -/
def sysSleep (x : UInt64) (ticks0 : UInt32) (p : Proc) (events : List TickEvent) : TickState :=
  tickRun (sleepWaits (argint x) ticks0.toUInt64) ticks0 p events

/-- The ticks since `ticks0`, modulo 2^32. -/
def elapsed (ticks0 ticks : UInt32) : Nat := (ticks.toNat + 2 ^ 32 - ticks0.toNat) % 2 ^ 32

/-- A call that waits until at least `n` ticks have gone by, and not at all for a negative `n`. -/
def waitTicks (n : Int) (ticks0 : UInt32) (p : Proc) (events : List TickEvent) : TickState :=
  tickRun (fun ticks => (elapsed ticks0 ticks : Int) < max n 0) ticks0 p events

/-- `sleep` and `pause` return the same at the same time, as they should. -/
def SleepAgrees (x : UInt64) (ticks0 : UInt32) : Prop :=
  ∀ p events, sysSleep x ticks0 p events = sysPause x ticks0 p events ∧
    sysPause x ticks0 p events = waitTicks (argint x) ticks0 p events

section

variable {waits} {n : Int} {x : UInt64} {ticks0 ticks : UInt32} {p : Proc}

theorem toNat_uint_ofInt (h0 : 0 ≤ n) (hn : n < 2 ^ 31) : (UInt32.ofInt n).toNat = n.toNat := by
  rw [UInt32.ofInt, UInt32.toNat_ofNat']
  omega

theorem toNat_uint64_ofInt (hlo : -2 ^ 31 ≤ n) (hn : n < 2 ^ 31) :
    (UInt64.ofInt n).toNat = if 0 ≤ n then n.toNat else 2 ^ 64 - (-n).toNat := by
  rw [UInt64.ofInt, UInt64.toNat_ofNat']
  split_ifs <;> omega

theorem pauseWaits_eq (hn : n < 2 ^ 31) (ticks0 ticks : UInt32) :
    pauseWaits n ticks0 ticks = decide ((elapsed ticks0 ticks : Int) < max n 0) := by
  have h0 := ticks0.toNat_lt
  have h1 := ticks.toNat_lt
  rw [pauseWaits, elapsed, decide_eq_decide, UInt32.lt_iff_toNat_lt, UInt32.toNat_sub,
    toNat_uint_ofInt (by split_ifs <;> omega) (by split_ifs <;> omega)]
  split_ifs <;> omega

theorem sleepWaits_eq (h0 : 0 ≤ n) (hn : n < 2 ^ 31) (ticks0 ticks : UInt32) :
    sleepWaits n ticks0.toUInt64 ticks =
      decide (ticks0.toNat ≤ ticks.toNat ∧ (ticks.toNat : Int) - ticks0.toNat < n) := by
  have h1 := ticks0.toNat_lt
  have h2 := ticks.toNat_lt
  rw [sleepWaits, decide_eq_decide, UInt64.lt_iff_toNat_lt, UInt64.toNat_sub,
    toNat_uint64_ofInt (by omega) hn, if_pos h0, UInt32.toNat_toUInt64, UInt32.toNat_toUInt64]
  omega

theorem sleepWaits_neg (hlo : -2 ^ 31 ≤ n) (hn : n < 0) (ticks0 : UInt32) :
    sleepWaits n ticks0.toUInt64 ticks0 = true := by
  rw [sleepWaits, decide_eq_true_eq, UInt64.sub_self, UInt64.lt_iff_toNat_lt,
    toNat_uint64_ofInt hlo (by omega), if_neg (by omega), UInt64.toNat_zero]
  omega

theorem foldl_clockintr {s : TickState} (hs : s.proc.SleepsOn ticksChan) (k : Nat) :
    (List.replicate (k + 1) TickEvent.clockintr).foldl (tickStep waits) s =
      { s with
        ticks := s.ticks + UInt32.ofNat (k + 1)
        proc := { s.proc with state := .runnable } } := by
  induction k with
  | zero => simp [tickStep, hs]
  | succ k ih =>
    rw [List.replicate_succ', List.foldl_append, ih, List.foldl_cons, List.foldl_nil, tickStep]
    simp [Proc.SleepsOn, UInt32.ofNat_add, UInt32.add_assoc]

theorem tickRun_wrap (hw : waits ticks0 = true) (h0 : 0 < ticks0.toNat) (hk : p.killed = 0) :
    tickRun waits ticks0 p
        (List.replicate (2 ^ 32 - ticks0.toNat) TickEvent.clockintr ++ [.dispatch]) =
      tickPass waits { ticks := 0, proc := { p with state := .running, chan := 0 } } := by
  have hlt := ticks0.toNat_lt
  obtain ⟨k, hk'⟩ : ∃ k, 2 ^ 32 - ticks0.toNat = k + 1 := ⟨2 ^ 32 - ticks0.toNat - 1, by omega⟩
  have hzero : ticks0 + UInt32.ofNat (k + 1) = 0 := by
    rw [← UInt32.toNat_inj, UInt32.toNat_add, UInt32.toNat_ofNat', UInt32.toNat_zero]
    omega
  have hcall : tickPass waits { ticks := ticks0, proc := p } =
      { ticks := ticks0, proc := { p with chan := ticksChan, state := .sleeping } } := by
    simp [tickPass, hw, hk]
  rw [tickRun, hcall, List.foldl_append, hk', foldl_clockintr ⟨rfl, rfl⟩, List.foldl_cons,
    List.foldl_nil, tickStep, if_pos ⟨rfl, rfl⟩, hzero]

theorem sleepAgrees_of_le (h0 : 0 ≤ argint x) (hle : ticks0.toNat + argint x ≤ 2 ^ 32) :
    SleepAgrees x ticks0 := by
  have hrange := argint_range x
  have hpause : pauseWaits (argint x) ticks0 =
      fun ticks => decide ((elapsed ticks0 ticks : Int) < max (argint x) 0) := by
    funext ticks
    exact pauseWaits_eq hrange.2 ticks0 ticks
  have hsleep : sleepWaits (argint x) ticks0.toUInt64 = pauseWaits (argint x) ticks0 := by
    funext ticks
    have h1 := ticks0.toNat_lt
    have h2 := ticks.toNat_lt
    rw [sleepWaits_eq h0 hrange.2, pauseWaits_eq hrange.2, decide_eq_decide, elapsed]
    omega
  intro p events
  rw [sysSleep, sysPause, waitTicks, hsleep, hpause]
  exact ⟨rfl, rfl⟩

theorem le_of_sleepAgrees (h : SleepAgrees x ticks0) : 0 ≤ argint x := by
  by_contra hneg
  have hrange := argint_range x
  have hcall := congrArg TickState.ret (h { state := .running } []).1
  have hsleep := sleepWaits_neg hrange.1 (by omega) ticks0
  have hpause : pauseWaits (argint x) ticks0 ticks0 = false := by
    rw [pauseWaits_eq hrange.2, decide_eq_false_iff_not]
    omega
  simp [sysSleep, sysPause, tickRun, tickPass, hsleep, hpause] at hcall

end

/-- `sleep` agrees with `pause` exactly when its argument is not negative and the counter does not go
past 2^32 before the time is over. -/
theorem sleepAgrees_iff (x : UInt64) (ticks0 : UInt32) :
    SleepAgrees x ticks0 ↔ 0 ≤ argint x ∧ ticks0.toNat + argint x ≤ 2 ^ 32 := by
  refine ⟨fun h => ?_, fun h => sleepAgrees_of_le h.1 h.2⟩
  have h0 := le_of_sleepAgrees h
  refine ⟨h0, ?_⟩
  by_contra hlt
  have hrange := argint_range x
  have h1 := ticks0.toNat_lt
  have hstart : pauseWaits (argint x) ticks0 ticks0 = true ∧
      sleepWaits (argint x) ticks0.toUInt64 ticks0 = true := by
    rw [pauseWaits_eq hrange.2, sleepWaits_eq h0 hrange.2, decide_eq_true_iff, decide_eq_true_iff,
      elapsed]
    omega
  -- when the counter is back at 0, the 64-bit difference is not the number of ticks
  have hlater : pauseWaits (argint x) ticks0 0 = true ∧
      sleepWaits (argint x) ticks0.toUInt64 0 = false := by
    rw [pauseWaits_eq hrange.2, sleepWaits_eq h0 hrange.2, decide_eq_true_iff,
      decide_eq_false_iff_not, elapsed, UInt32.toNat_zero]
    omega
  have hrun := congrArg TickState.ret
    (h { state := .running } (List.replicate (2 ^ 32 - ticks0.toNat) .clockintr ++ [.dispatch])).1
  rw [sysSleep, sysPause, tickRun_wrap hstart.1 (by omega) rfl,
    tickRun_wrap hstart.2 (by omega) rfl] at hrun
  simp [tickPass, hlater] at hrun

theorem sleep_minus_one :
    (sysPause minusOne 7 { state := .running } []).ret = some 0 ∧
      (sysSleep minusOne 7 { state := .running } []).ret = none := by
  decide

end OsProject
