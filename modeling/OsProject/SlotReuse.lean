import OsProject.Delivery
import OsProject.Fork
import OsProject.Runs

/-! Reuse of a process slot. `freeproc`, `allocproc` and `kfork` leave the signal state and the
mailbox of the previous occupant in the slot, so the child starts with them. -/

namespace OsProject

/-- The two slots differ only in what `freeproc` does not reset. -/
def SameReset (s t : Proc) : Prop :=
  t = { s with
    signalHandlers := t.signalHandlers
    pendingSignals := t.pendingSignals
    signalTrapframe := t.signalTrapframe
    inSignalHandler := t.inSignalHandler
    message := t.message
    hasMessage := t.hasMessage }

/-- What happens to a process between two returns to user space: its own trap, or a signal, a
message or a `recv` of another process. -/
inductive ChildEvent
  | trap (user : UserFrame) (env : TrapEnv)
  | kill (sig : Fin 32)
  | send (msg : List UInt8)
  | recv

/-- What can be seen of one event: the exit, the registers the process goes on with and the
lines it prints, or the lines another process prints for it. -/
inductive Seen
  | exit (status : Int)
  | user (frame : UserFrame) (lines : List MailLine)
  | other (lines : List MailLine)
  deriving DecidableEq

def childStep (p : Proc) : ChildEvent → Seen × Option Proc
  | .trap user env =>
    match usertrap p user env with
    | .exit status => (.exit status, none)
    | .resume q lines => (.user q.trapframe.toUserFrame lines, some q)
  | .kill sig => (.other [], some (p.post sig))
  | .send msg => (.other [], some (p.putMail msg))
  | .recv => (.other p.takeMail.2, some p.takeMail.1)

/-- The child returns to user space through `forkret`, which delivers no signals. -/
def SameBehaviour (c d : Proc) : Prop :=
  ∀ env, (prepareReturn c env).trapframe.toUserFrame =
      (prepareReturn d env).trapframe.toUserFrame ∧
    ∀ events, observe childStep (prepareReturn c env) events =
      observe childStep (prepareReturn d env) events

structure Fresh (c : Proc) : Prop where
  pending : c.pendingSignals = 0
  handlers : c.signalHandlers = fun _ => 0
  inHandler : c.inSignalHandler = 0
  saved : c.signalTrapframe = {}
  mail : c.hasMessage = 0

def SlotReuseSafe (c d : Proc) : Prop := SameBehaviour c d ∧ Fresh c ∧ Fresh d

/-- What the previous occupant left is the same as far as it can ever be seen. `sigreturn`
never shows the saved `a0` or the kernel's words of the saved frame. -/
structure Alike (p q : Proc) : Prop where
  killed : q.killed = p.killed
  pid : q.pid = p.pid
  handlers : q.signalHandlers = p.signalHandlers
  pending : q.pendingSignals = p.pendingSignals
  inHandler : q.inSignalHandler = 0 ↔ p.inSignalHandler = 0
  saved : { q.signalTrapframe.toUserFrame with a0 := 0 } =
    { p.signalTrapframe.toUserFrame with a0 := 0 }
  mail : q.hasMessage = 0 ↔ p.hasMessage = 0
  text : p.hasMessage ≠ 0 → q.message = p.message

structure AlikeAt (p q : Proc) : Prop extends Alike p q where
  frame : q.trapframe.toUserFrame = p.trapframe.toUserFrame

theorem Alike.saveUser {p q : Proc} (h : Alike p q) (user : UserFrame) :
    AlikeAt (p.saveUser user) (q.saveUser user) :=
  { h with frame := rfl }

theorem AlikeAt.setA0 {p q : Proc} (h : AlikeAt p q) (v : UInt64) :
    AlikeAt (p.setA0 v) (q.setA0 v) :=
  { h with frame := by simp [Proc.setA0, h.frame] }

theorem AlikeAt.setkilled {p q : Proc} (h : AlikeAt p q) :
    AlikeAt { p with killed := 1 } { q with killed := 1 } :=
  { h with killed := rfl }

theorem AlikeAt.prepareReturn {p q : Proc} (h : AlikeAt p q) (env : TrapEnv) :
    AlikeAt (prepareReturn p env) (prepareReturn q env) :=
  { h with frame := h.frame }

theorem Alike.post {p q : Proc} (h : Alike p q) (sig : Fin 32) :
    Alike (p.post sig) (q.post sig) :=
  { h with pending := by simp [Proc.post, h.pending] }

theorem AlikeAt.foldl_post {p q : Proc} (h : AlikeAt p q) (posted : List (Fin 32)) :
    AlikeAt (posted.foldl Proc.post p) (posted.foldl Proc.post q) := by
  induction posted generalizing p q with
  | nil => exact h
  | cons sig posted ih => exact ih { h.toAlike.post sig with frame := h.frame }

theorem Alike.putMail {p q : Proc} (h : Alike p q) (msg : List UInt8) :
    Alike (p.putMail msg) (q.putMail msg) :=
  { h with mail := Iff.rfl, text := fun _ => rfl }

theorem Alike.takeMail {p q : Proc} (h : Alike p q) :
    Alike p.takeMail.1 q.takeMail.1 ∧ q.takeMail.2 = p.takeMail.2 := by
  by_cases hm : p.hasMessage = 0
  · simp [Proc.takeMail, hm, h.mail.mpr hm, h]
  · have hq : ¬ q.hasMessage = 0 := fun hz => hm (h.mail.mp hz)
    simp only [Proc.takeMail, ne_eq, hm, hq, not_false_eq_true, if_true]
    refine ⟨{ h with mail := Iff.rfl, text := fun hz => absurd rfl hz }, ?_⟩
    rw [h.pid, h.text hm]

theorem AlikeAt.sysSignal {p q : Proc} (h : AlikeAt p q) :
    AlikeAt (sysSignal p).1 (sysSignal q).1 ∧ (sysSignal q).2 = (sysSignal p).2 := by
  simp only [OsProject.sysSignal, h.frame]
  cases argsig p.trapframe.a0 with
  | none => exact ⟨h, rfl⟩
  | some sig => exact ⟨{ h with handlers := by simp only [h.handlers] }, rfl⟩

theorem AlikeAt.sysSigreturn {p q : Proc} (h : AlikeAt p q) :
    AlikeAt ((sysSigreturn p).1.setA0 0) ((sysSigreturn q).1.setA0 0) :=
  { h with inHandler := Iff.rfl, frame := h.saved }

theorem AlikeAt.sysKill {p q : Proc} (h : AlikeAt p q) (env : TrapEnv) :
    AlikeAt (sysKill p env).1 (sysKill q env).1 ∧ (sysKill q env).2 = (sysKill p env).2 := by
  simp only [OsProject.sysKill, h.frame, h.pid]
  cases argsig p.trapframe.a1 with
  | none => exact ⟨h, rfl⟩
  | some sig =>
    by_cases hp : argint p.trapframe.a0 = p.pid
    · simp only [hp, if_true, and_true]
      exact { h.toAlike.post sig with frame := h.frame }
    · simp [hp, h]

theorem AlikeAt.sysSendOwn {p q : Proc} (h : AlikeAt p q) (env : TrapEnv) :
    AlikeAt (sysSendOwn p env).1 (sysSendOwn q env).1 ∧
      (sysSendOwn q env).2 = (sysSendOwn p env).2 := by
  simp only [OsProject.sysSendOwn, h.frame, h.pid]
  by_cases hp : argint p.trapframe.a0 = p.pid
  · simp only [hp, if_true, and_true]
    exact { h.toAlike.putMail env.msg with frame := h.frame }
  · simp [hp, h]

theorem AlikeAt.sysRecvOwn {p q : Proc} (h : AlikeAt p q) (env : TrapEnv) :
    AlikeAt (sysRecvOwn p env).1 (sysRecvOwn q env).1 ∧
      (sysRecvOwn q env).2 = (sysRecvOwn p env).2 := by
  obtain ⟨htake, hlines⟩ := h.toAlike.takeMail
  have hframe : ∀ p : Proc, p.takeMail.1.trapframe = p.trapframe := fun p => by
    by_cases hm : p.hasMessage = 0 <;> simp [Proc.takeMail, hm]
  simp only [OsProject.sysRecvOwn, hlines, and_true]
  exact { htake with frame := by rw [hframe, hframe, h.frame] }

theorem AlikeAt.execImage {p q : Proc} (h : AlikeAt p q) (env : TrapEnv) :
    AlikeAt (execImage p env).1 (execImage q env).1 ∧
      (execImage q env).2 = (execImage p env).2 := by
  cases hi : env.image with
  | none => simp [OsProject.execImage, hi, h]
  | some image =>
    simp only [OsProject.execImage, hi, and_true]
    exact { h with frame := by simp [h.frame] }

inductive CallAlike : CallEnd → CallEnd → Prop
  | exit (status : Int) : CallAlike (.exit status) (.exit status)
  | done {p q : Proc} (h : AlikeAt p q) (lines : List MailLine) :
      CallAlike (.done p lines) (.done q lines)

theorem CallAlike.setA0 {p q : Proc} {v w : UInt64} (h : AlikeAt p q ∧ w = v)
    (lines : List MailLine) : CallAlike (.done (p.setA0 v) lines) (.done (q.setA0 w) lines) := by
  rw [h.2]
  exact .done (h.1.setA0 v) lines

theorem AlikeAt.syscall {p q : Proc} (h : AlikeAt p q) (env : TrapEnv) :
    CallAlike (syscall p env) (syscall q env) := by
  have hrecv := h.sysRecvOwn env
  simp only [OsProject.syscall, h.frame]
  split_ifs
  · exact .exit _
  · exact .setA0 h.sysSignal []
  · exact .done h.sysSigreturn []
  · exact .setA0 (h.sysKill env) []
  · exact .setA0 (h.sysSendOwn env) []
  · rw [hrecv.2]
    exact .setA0 ⟨hrecv.1, rfl⟩ _
  · exact .setA0 (h.execImage env) []
  · exact .setA0 ⟨h, rfl⟩ []
  · exact .setA0 ⟨h, rfl⟩ []

theorem Alike.serveTrap {p q : Proc} (h : Alike p q) (user : UserFrame) (env : TrapEnv) :
    CallAlike (serveTrap p user env) (serveTrap q user env) := by
  simp only [OsProject.serveTrap, h.killed]
  split_ifs
  · exact .exit _
  · exact (h.saveUser _).syscall env
  · exact .done (h.saveUser user) []
  · exact .done (h.saveUser user) []
  · exact .done (h.saveUser user).setkilled []

theorem AlikeAt.deliverFrom {p q : Proc} (h : AlikeAt p q) (sigs : List (Fin 32)) :
    AlikeAt (deliverFrom sigs p) (deliverFrom sigs q) := by
  induction sigs generalizing p q with
  | nil => exact h
  | cons sig sigs ih =>
    have hpend : q.pending sig = p.pending sig := by simp only [Proc.pending, h.pending]
    have hclear : (q.clearPending sig).pendingSignals = (p.clearPending sig).pendingSignals := by
      simp only [Proc.clearPending, h.pending]
    simp only [OsProject.deliverFrom, hpend, h.handlers]
    split_ifs
    · exact { h with
        pending := hclear
        inHandler := Iff.rfl
        saved := by rw [h.frame]
        frame := by simp [h.frame] }
    · exact ih (AlikeAt.setkilled { h with pending := hclear })
    · exact ih h

theorem AlikeAt.deliverSignals {p q : Proc} (h : AlikeAt p q) :
    AlikeAt (deliverSignals p) (deliverSignals q) := by
  by_cases hi : p.inSignalHandler = 0
  · simpa [OsProject.deliverSignals, hi, h.inHandler.mpr hi] using h.deliverFrom _
  · have hq : ¬ q.inSignalHandler = 0 := fun hz => hi (h.inHandler.mp hz)
    simpa [OsProject.deliverSignals, hi, hq] using h

theorem simulates_childStep : Simulates childStep Alike := by
  intro p q e h
  cases e with
  | trap user env =>
    have hserve := h.serveTrap user env
    simp only [childStep, usertrap]
    generalize OsProject.serveTrap p user env = a at hserve ⊢
    generalize OsProject.serveTrap q user env = b at hserve ⊢
    cases hserve with
    | exit status => exact ⟨rfl, .none⟩
    | @done m n hmn lines =>
      have hret := (hmn.foldl_post env.posted).deliverSignals.prepareReturn env
      by_cases hk : m.killed = 0
      · simp only [hmn.killed, hk, ne_eq, not_true_eq_false, if_false, hret.frame, true_and]
        exact .some hret.toAlike
      · simp only [hmn.killed, hk, ne_eq, not_false_eq_true, if_true, true_and]
        exact .none
  | kill sig => exact ⟨rfl, .some (h.post sig)⟩
  | send msg => exact ⟨rfl, .some (h.putMail msg)⟩
  | recv =>
    obtain ⟨htake, hlines⟩ := h.takeMail
    exact ⟨by simp only [childStep, hlines], .some htake⟩

theorem AlikeAt.sameBehaviour {c d : Proc} (h : AlikeAt c d) : SameBehaviour c d := by
  intro env
  have hret := h.prepareReturn env
  exact ⟨hret.frame.symm, simulates_childStep.observe_eq hret.toAlike⟩

theorem Alike.copyProc {s t : Proc} (h : Alike s t) (me : Fin NPROC) (parent : Proc)
    (pid : Int) :
    AlikeAt (copyProc me parent { s with pid := pid, state := .used })
      (copyProc me parent { t with pid := pid, state := .used }) :=
  { h with pid := rfl, frame := rfl }

theorem SameReset.alike {s t : Proc} (h : SameReset s t) (hs : Fresh s) (ht : Fresh t) :
    Alike s t where
  killed := by rw [h]
  pid := by rw [h]
  handlers := by rw [hs.handlers, ht.handlers]
  pending := by rw [hs.pending, ht.pending]
  inHandler := by rw [hs.inHandler, ht.inHandler]
  saved := by rw [hs.saved, ht.saved]
  mail := by rw [hs.mail, ht.mail]
  text hm := absurd hs.mail hm

theorem fresh_forkChild (k : Kernel) (me i : Fin NPROC) :
    Fresh (forkChild k me i) ↔ Fresh (k.proc i) :=
  ⟨fun h => ⟨h.pending, h.handlers, h.inHandler, h.saved, h.mail⟩,
    fun h => ⟨h.pending, h.handlers, h.inHandler, h.saved, h.mail⟩⟩

theorem unusedSlot_setProc {k : Kernel} {i : Fin NPROC} {s : Proc}
    (h : s.state = (k.proc i).state) : unusedSlot (k.setProc i s) = unusedSlot k := by
  have hstate : ∀ j, ((k.setProc i s).proc j).state = (k.proc j).state := fun j => by
    by_cases hj : j = i
    · subst hj
      simp [h]
    · rw [k.setProc_of_ne hj]
  simp only [unusedSlot, hstate]

theorem forkChild_setProc {k : Kernel} {me i : Fin NPROC} (hne : me ≠ i) (s : Proc) :
    forkChild (k.setProc i s) me i =
      copyProc me (k.proc me) { s with pid := k.nextpid, state := .used } := by
  rw [forkChild, k.setProc_same, k.setProc_of_ne hne]
  rfl

/-- A fork into a used slot is safe exactly when both previous occupants left no signal state
and no message. For the runs of the child alone it is enough that they left what looks alike. -/
theorem slotReuseSafe_iff {k : Kernel} {me i : Fin NPROC} {mem : ForkMem} {s : Proc}
    (hpick : unusedSlot k = some i) (hme : (k.proc me).state = .running)
    (hok : (kfork k me mem).2.1 ≠ -1) (hreset : SameReset (k.proc i) s) :
    (SlotReuseSafe ((kfork k me mem).1.proc i) ((kfork (k.setProc i s) me mem).1.proc i) ↔
      Fresh (k.proc i) ∧ Fresh s) ∧
    (Alike (k.proc i) s →
      SameBehaviour ((kfork k me mem).1.proc i) ((kfork (k.setProc i s) me mem).1.proc i)) := by
  have hstate : s.state = (k.proc i).state := by rw [hreset]
  have hpick' : unusedSlot (k.setProc i s) = some i := (unusedSlot_setProc hstate).trans hpick
  have hunused : (k.proc i).state = .unused := by simpa using List.find?_some hpick
  have hne : me ≠ i := by
    rintro rfl
    simp [hme] at hunused
  have hme' : ((k.setProc i s).proc me).state ≠ .unused := by simp [k.setProc_of_ne hne, hme]
  have hok' : (kfork (k.setProc i s) me mem).2.1 ≠ -1 := by
    rw [kfork_ret hpick] at hok
    rw [kfork_ret hpick']
    exact hok
  rw [kfork_child hpick (by simp [hme]) hok, kfork_child hpick' hme' hok']
  have hbehave : Alike (k.proc i) s →
      SameBehaviour (forkChild k me i) (forkChild (k.setProc i s) me i) := by
    intro h
    rw [forkChild_setProc hne]
    exact (h.copyProc me (k.proc me) k.nextpid).sameBehaviour
  refine ⟨?_, hbehave⟩
  have hfresh : Fresh (forkChild (k.setProc i s) me i) ↔ Fresh s := by
    rw [fresh_forkChild, k.setProc_same]
  rw [SlotReuseSafe, fresh_forkChild, hfresh, and_iff_right_iff_imp]
  exact fun h => hbehave (hreset.alike h.1 h.2)

def bootKernel : Kernel where
  proc i := if i = 0 then { state := .running, pid := 1, trapframe := { epc := 64 } } else {}
  nextpid := 3

theorem unusedSlot_bootKernel : unusedSlot bootKernel = some 1 := by decide

/-- A process that registered handlers at address 128 and left before it returned to user space
with signal 10 pending. -/
def leftSlot : Proc :=
  freeproc (Proc.exit { pid := 2, signalHandlers := fun _ => 128, pendingSignals := 0x400 } 0)

theorem slotReuseSafe_received : SlotReuseSafe ((kfork bootKernel 0 {}).1.proc 1)
    ((kfork (bootKernel.setProc 1 { message := [104, 105] }) 0 {}).1.proc 1) := by
  have hreset : SameReset (bootKernel.proc 1) { message := [104, 105] } := rfl
  exact (slotReuseSafe_iff unusedSlot_bootKernel rfl (by decide) hreset).1.mpr
    ⟨⟨rfl, rfl, rfl, rfl, rfl⟩, ⟨rfl, rfl, rfl, rfl, rfl⟩⟩

theorem child_runs_left_handler :
    unusedSlot bootKernel = some 1 ∧ SameReset (bootKernel.proc 1) leftSlot ∧
    (kfork bootKernel 0 {}).2.1 = 3 ∧
    ¬ SlotReuseSafe ((kfork bootKernel 0 {}).1.proc 1)
      ((kfork (bootKernel.setProc 1 leftSlot) 0 {}).1.proc 1) := by
  refine ⟨unusedSlot_bootKernel, rfl, by decide, fun h => ?_⟩
  have hobs := (h.1 {}).2 [.trap { a7 := 11, epc := 64 } { ret := 3 }]
  revert hobs
  decide

end OsProject
