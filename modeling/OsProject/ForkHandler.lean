import OsProject.SignalReturn
import OsProject.SignalRun
import OsProject.Fork

/-! Fork inside a signal handler. `kfork` copies the trapframe, but `sigreturn` takes the frame from
`signal_trapframe`, which in the child is still that of its slot. -/

namespace OsProject

/-- The traps of a process one after the other, as long as it comes back from each. -/
def runTraps : Proc → List (UserFrame × TrapEnv) → Option Proc
  | p, [] => some p
  | p, (user, env) :: traps =>
    match usertrap p user env with
    | .exit _ => none
    | .resume q _ => runTraps q traps

def servedFrame (p : Proc) (user : UserFrame) (env : TrapEnv) : Option UserFrame :=
  match serveTrap p user env with
  | .exit _ => none
  | .done q _ => some q.trapframe.toUserFrame

/-- The caller of `fork` leaves `usertrap` with the child's pid. -/
def forkReturn (p : Proc) (pid : Int) (env : TrapEnv) : Option Proc :=
  if p.killed ≠ 0 then none
  else
    some (prepareReturn (deliverSignals
      (env.posted.foldl Proc.post (p.setA0 (UInt64.ofInt pid)))) env)

/-- Parent and child take the same traps after `fork` and then both call `sigreturn`, which
restores the same registers in both. The child starts in `forkret`. -/
def SameReturn (p c : Proc) (pid : Int) : Prop :=
  ∀ penv cenv traps user env, (∀ t ∈ traps, ¬ Sigreturns t.1 t.2) → Sigreturns user env →
    ∀ p0 p' c', forkReturn p pid penv = some p0 → runTraps p0 traps = some p' →
      runTraps (prepareReturn c cenv) traps = some c' →
      ∀ f g, servedFrame p' user env = some f → servedFrame c' user env = some g → g = f

theorem servedFrame_sigreturn {p : Proc} {user : UserFrame} {env : TrapEnv}
    (hs : Sigreturns user env) :
    servedFrame p user env =
      if p.killed = 0 then some { p.signalTrapframe.toUserFrame with a0 := 0 } else none := by
  by_cases hk : p.killed = 0
  · simp only [servedFrame, serveTrap_sigreturn hk hs.1 hs.2, hk, if_true]
  · simp [servedFrame, serveTrap, hs.1, hk]

theorem deliver_in_handler {p : Proc} (hin : p.inSignalHandler ≠ 0) (posted : List (Fin 32))
    (env : TrapEnv) :
    (prepareReturn (deliverSignals (posted.foldl Proc.post p)) env).killed = p.killed ∧
      (prepareReturn (deliverSignals (posted.foldl Proc.post p)) env).inSignalHandler =
        p.inSignalHandler ∧
      (prepareReturn (deliverSignals (posted.foldl Proc.post p)) env).signalTrapframe =
        p.signalTrapframe := by
  obtain ⟨mask, state, he⟩ := foldl_post_eq posted p
  have hd : deliverSignals (posted.foldl Proc.post p) = posted.foldl Proc.post p := by
    rw [deliverSignals, if_pos (by rw [he]; exact hin)]
  rw [hd, he]
  exact ⟨rfl, rfl, rfl⟩

theorem usertrap_in_handler {p q : Proc} {user : UserFrame} {env : TrapEnv}
    {lines : List MailLine} (hin : p.inSignalHandler ≠ 0) (hs : ¬ Sigreturns user env)
    (h : usertrap p user env = .resume q lines) :
    q.killed = 0 ∧ q.inSignalHandler ≠ 0 ∧ q.signalTrapframe = p.signalTrapframe := by
  obtain ⟨m, hm, hk, rfl⟩ := usertrap_eq_resume h
  obtain ⟨hi, hf⟩ := (serveTrap_frames hm).resolve_right fun hr => hs hr.1
  rw [← hi] at hin
  obtain ⟨hdk, hdi, hdf⟩ := deliver_in_handler hin env.posted env
  exact ⟨hdk.trans hk, hdi.symm ▸ hin, hdf.trans hf⟩

theorem runTraps_in_handler {p q : Proc} {traps : List (UserFrame × TrapEnv)}
    (hin : p.inSignalHandler ≠ 0) (hs : ∀ t ∈ traps, ¬ Sigreturns t.1 t.2)
    (h : runTraps p traps = some q) : q.signalTrapframe = p.signalTrapframe := by
  induction traps generalizing p with
  | nil =>
    rw [runTraps, Option.some.injEq] at h
    rw [h]
  | cons t traps ih =>
    obtain ⟨user, env⟩ := t
    rw [runTraps] at h
    cases hu : usertrap p user env with
    | exit status => simp [hu] at h
    | resume r lines =>
      simp only [hu] at h
      obtain ⟨-, hri, hrf⟩ := usertrap_in_handler hin (hs _ List.mem_cons_self) hu
      exact (ih hri (fun t ht => hs t (List.mem_cons_of_mem _ ht)) h).trans hrf

theorem runTraps_killed {p q : Proc} {traps : List (UserFrame × TrapEnv)} (hk : p.killed ≠ 0)
    (h : runTraps p traps = some q) : q = p := by
  cases traps with
  | nil => exact (Option.some.inj h).symm
  | cons t traps =>
    rw [runTraps] at h
    cases hu : usertrap p t.1 t.2 with
    | exit status => simp [hu] at h
    | resume r lines => simp [usertrap_of_killed hk] at hu

theorem forkReturn_in_handler {p q : Proc} {pid : Int} {env : TrapEnv}
    (hin : p.inSignalHandler ≠ 0) (h : forkReturn p pid env = some q) :
    q.killed = 0 ∧ q.inSignalHandler ≠ 0 ∧ q.signalTrapframe = p.signalTrapframe := by
  by_cases hk : p.killed = 0
  · obtain ⟨hdk, hdi, hdf⟩ := deliver_in_handler (p := p.setA0 (UInt64.ofInt pid)) hin
      env.posted env
    rw [forkReturn, if_neg (not_not.mpr hk), Option.some.injEq] at h
    rw [← h]
    exact ⟨hdk.trans hk, hdi.symm ▸ hin, hdf⟩
  · simp [forkReturn, hk] at h

def signalAt (sig : Fin 32) (sp : UInt64) : UserFrame := { signalCall sig with sp := sp }

theorem not_sigreturns_signalAt (sig : Fin 32) (sp : UInt64) (env : TrapEnv) :
    ¬ Sigreturns (signalAt sig sp) env := by
  intro h
  have hn := (argint_signalCall sig).symm.trans h.2
  exact absurd hn (by decide)

theorem serveTrap_signalAt {p : Proc} (hk : p.killed = 0) (sig : Fin 32) (sp : UInt64) :
    ∃ q, serveTrap p (signalAt sig sp) { posted := [sig] } = .done q [] ∧ q.killed = 0 ∧
      q.inSignalHandler = p.inSignalHandler ∧ q.pendingSignals = p.pendingSignals ∧
      q.signalHandlers sig = 1 ∧ q.trapframe.sp = sp :=
  ⟨_, serveTrap_signal hk rfl (argint_signalCall sig) (argsig_ofNat sig), hk, rfl, rfl,
    Function.update_self .., rfl⟩

theorem enter_with_sp {p : Proc} (hin : p.inSignalHandler = 0) (hk : p.killed = 0)
    (sp : UInt64) :
    ∃ sig q lines, usertrap p (signalAt sig sp) { posted := [sig] } = .resume q lines ∧
      q.killed = 0 ∧ q.signalTrapframe.sp = sp := by
  obtain ⟨sig, hsig⟩ : ∃ sig, ∀ t, lowestPending p = some t → t = sig := by
    cases hl : lowestPending p with
    | none => exact ⟨0, by simp⟩
    | some t => exact ⟨t, by simp⟩
  obtain ⟨q, hq, hqk, hqi, hqp, hqh, hqs⟩ := serveTrap_signalAt hk sig sp
  have hpost : ∀ s, (q.post sig).pending s = (p.pending s || decide (s = sig)) := by
    intro s
    rw [Proc.pending_post, pending_congr hqp]
  have hlow : ∀ s, (List.finRange 32).find? (q.post sig).pending = some s → s = sig := by
    intro s hs
    by_contra hne
    -- `s` was pending before, and no signal below it was.
    have hsp : p.pending s = true := by simpa [hpost, hne] using List.find?_some hs
    refine hne (hsig s ?_)
    obtain ⟨_, front, back, hlist, hfront⟩ := List.find?_eq_some_iff_append.mp hs
    refine List.find?_eq_some_iff_append.mpr ⟨hsp, front, back, hlist, fun t ht => ?_⟩
    have hnt := hfront t ht
    rw [hpost] at hnt
    simp only [Bool.not_eq_true', Bool.or_eq_false_iff] at hnt ⊢
    exact hnt.1
  have hhandled : Handled (q.post sig) sig :=
    ⟨by simp [hpost], by change q.signalHandlers sig ≠ 0; rw [hqh]; decide⟩
  have hz : (q.post sig).inSignalHandler = 0 := hqi.trans hin
  have hd : deliverSignals (q.post sig) = deliverFrom (List.finRange 32) (q.post sig) := by
    rw [deliverSignals, if_neg (not_not.mpr hz)]
  refine ⟨sig, _, [], usertrap_of_serveTrap hq hqk, ?_, ?_⟩
  · change (deliverSignals (q.post sig)).killed = 0
    rw [hd, deliverFrom_killed (p := q.post sig) hqk]
    intro s hs
    rw [hlow s hs]
    exact hhandled.2
  · change (deliverSignals (q.post sig)).signalTrapframe.sp = sp
    rw [hd, (deliverFrom_redirect _ ⟨sig, List.mem_finRange sig, hhandled⟩).2]
    exact hqs

theorem usertrap_signalAt {p : Proc} (hk : p.killed = 0) (sig : Fin 32) (sp : UInt64) :
    ∃ q lines, usertrap p (signalAt sig sp) { posted := [sig] } = .resume q lines := by
  obtain ⟨q, hq, hqk, -⟩ := serveTrap_signalAt hk sig sp
  exact ⟨_, _, usertrap_of_serveTrap hq hqk⟩

/-- The saved frames of two processes, as far as `sigreturn` shows them. -/
def SameSaved (p c : Proc) : Prop :=
  { c.signalTrapframe.toUserFrame with a0 := 0 } = { p.signalTrapframe.toUserFrame with a0 := 0 }

theorem sameReturn_of_sameSaved {p c : Proc} (hp : p.inSignalHandler ≠ 0)
    (hc : c.inSignalHandler ≠ 0) (h : SameSaved p c) (pid : Int) : SameReturn p c pid := by
  intro penv cenv traps user env hs hsig p0 p' c' hp0 hp' hc' f g hf hg
  obtain ⟨-, hi0, hf0⟩ := forkReturn_in_handler hp hp0
  have hpf := (runTraps_in_handler hi0 hs hp').trans hf0
  have hcf : c'.signalTrapframe = c.signalTrapframe :=
    runTraps_in_handler (p := prepareReturn c cenv) hc hs hc'
  rw [servedFrame_sigreturn hsig] at hf hg
  simp only [Option.ite_none_right_eq_some, Option.some.injEq] at hf hg
  rw [← hf.2, ← hg.2, hpf, hcf]
  exact h

theorem sameReturn_of_killed {p c : Proc} (hk : p.killed ≠ 0 ∨ c.killed ≠ 0) (pid : Int) :
    SameReturn p c pid := by
  intro penv cenv traps user env _ hsig p0 p' c' hp0 _ hc' f g _ hg
  rcases hk with hk | hk
  · simp [forkReturn, hk] at hp0
  · have hc : c' = prepareReturn c cenv := runTraps_killed hk hc'
    have hkc : c'.killed ≠ 0 := by
      rw [hc]
      exact hk
    rw [servedFrame_sigreturn hsig, if_neg hkc] at hg
    cases hg

theorem forkReturn_of_alive {p : Proc} (hk : p.killed = 0) (pid : Int) :
    ∃ q, forkReturn p pid {} = some q :=
  ⟨_, if_neg (not_not.mpr hk)⟩

theorem sigreturns_sigreturnCall : Sigreturns sigreturnCall {} := by decide

theorem SameReturn.sameSaved {p c : Proc} {pid : Int} (h : SameReturn p c pid)
    (hin : p.inSignalHandler ≠ 0) (hp : p.killed = 0) (hc : c.killed = 0) : SameSaved p c := by
  obtain ⟨q, hq⟩ := forkReturn_of_alive hp pid
  obtain ⟨hqk, -, hqf⟩ := forkReturn_in_handler hin hq
  have heq := h {} {} [] sigreturnCall {} (by simp) sigreturns_sigreturnCall q q
    (prepareReturn c {}) hq rfl rfl _ _ ((servedFrame_sigreturn sigreturns_sigreturnCall).trans
      (if_pos hqk)) ((servedFrame_sigreturn sigreturns_sigreturnCall).trans (if_pos hc))
  rw [hqf] at heq
  exact heq

theorem SameReturn.in_handler {p c : Proc} {pid : Int} (h : SameReturn p c pid)
    (hin : p.inSignalHandler ≠ 0) (hp : p.killed = 0) (hc : c.killed = 0) :
    c.inSignalHandler ≠ 0 := by
  intro hz
  obtain ⟨p0, hp0⟩ := forkReturn_of_alive hp pid
  obtain ⟨hk0, hi0, hf0⟩ := forkReturn_in_handler hin hp0
  obtain ⟨sig, c', _, hc', hck, hcs⟩ := enter_with_sp (p := prepareReturn c {}) hz hc
    (p.signalTrapframe.sp + 1)
  obtain ⟨p', _, hp'⟩ := usertrap_signalAt hk0 sig (p.signalTrapframe.sp + 1)
  obtain ⟨hpk, -, hpf⟩ := usertrap_in_handler hi0 (not_sigreturns_signalAt sig _ _) hp'
  have heq := h {} {} [(signalAt sig (p.signalTrapframe.sp + 1), { posted := [sig] })]
    sigreturnCall {} (by simpa using not_sigreturns_signalAt sig _ _) sigreturns_sigreturnCall
    p0 p' c' hp0 (by simp only [runTraps, hp']) (by simp only [runTraps, hc']) _ _
    ((servedFrame_sigreturn sigreturns_sigreturnCall).trans (if_pos hpk))
    ((servedFrame_sigreturn sigreturns_sigreturnCall).trans (if_pos hck))
  have hsp := congrArg UserFrame.sp heq
  change c'.signalTrapframe.sp = p'.signalTrapframe.sp at hsp
  rw [hcs, hpf, hf0] at hsp
  simp at hsp

/-- Parent and child return to the same place exactly when one of them is killed first, or when
the slot of the child happened to be left inside a handler with the parent's saved frame. -/
theorem fork_same_return_iff {k : Kernel} {me i : Fin NPROC} {mem : ForkMem}
    (hi : unusedSlot k = some i) (hme : (k.proc me).state ≠ .unused)
    (hin : (k.proc me).inSignalHandler = 1) (hok : (kfork k me mem).2.1 ≠ -1) :
    SameReturn ((kfork k me mem).1.proc me) ((kfork k me mem).1.proc i) (kfork k me mem).2.1 ↔
      (k.proc me).killed ≠ 0 ∨ (k.proc i).killed ≠ 0 ∨
        ((k.proc i).inSignalHandler ≠ 0 ∧ SameSaved (k.proc me) (k.proc i)) := by
  have hin' : (k.proc me).inSignalHandler ≠ 0 := by
    rw [hin]
    exact one_ne_zero
  rw [kfork_parent mem hi hme, kfork_child hi hme hok]
  constructor
  · intro h
    by_contra hn
    simp only [not_or, not_not] at hn
    exact hn.2.2 ⟨h.in_handler hin' hn.1 hn.2.1, h.sameSaved hin' hn.1 hn.2.1⟩
  · rintro (hk | hk | ⟨hc, hs⟩)
    · exact sameReturn_of_killed (.inl hk) _
    · exact sameReturn_of_killed (c := forkChild k me i) (.inr hk) _
    · exact sameReturn_of_sameSaved (c := forkChild k me i) hin' hc hs _

/-- Slot 0 runs the handler of signal 10, which interrupted it at address 64. -/
def handlerKernel (slot : Proc) : Kernel where
  proc i :=
    if i = 0 then
      { state := .running, pid := 1, inSignalHandler := 1, trapframe := { epc := 128, a0 := 10 }
        signalTrapframe := { epc := 64, sp := 4096 } }
    else slot
  nextpid := 3

theorem fork_same_return_left_frame :
    SameReturn
      ((kfork (handlerKernel
        { inSignalHandler := 1, signalTrapframe := { epc := 64, sp := 4096 } }) 0 {}).1.proc 0)
      ((kfork (handlerKernel
        { inSignalHandler := 1, signalTrapframe := { epc := 64, sp := 4096 } }) 0 {}).1.proc 1)
      (kfork (handlerKernel
        { inSignalHandler := 1, signalTrapframe := { epc := 64, sp := 4096 } }) 0 {}).2.1 :=
  (fork_same_return_iff (by decide) (by decide) rfl (by decide)).mpr
    (.inr (.inr ⟨by decide, rfl⟩))

theorem fork_child_returns_to_zero :
    unusedSlot (handlerKernel {}) = some 1 ∧ (kfork (handlerKernel {}) 0 {}).2.1 = 3 ∧
    ((handlerKernel {}).proc 0).inSignalHandler = 1 ∧
    servedFrame (prepareReturn ((kfork (handlerKernel {}) 0 {}).1.proc 1) {}) sigreturnCall {} =
      some { epc := 0 } ∧
    ¬ SameReturn ((kfork (handlerKernel {}) 0 {}).1.proc 0)
      ((kfork (handlerKernel {}) 0 {}).1.proc 1) (kfork (handlerKernel {}) 0 {}).2.1 := by
  refine ⟨by decide, by decide, rfl, by decide, fun h => ?_⟩
  have hsaved := h.sameSaved (by decide) (by decide) (by decide)
  exact absurd (congrArg UserFrame.epc hsaved) (by decide)

end OsProject
