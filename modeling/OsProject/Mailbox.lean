import OsProject.Fork
import OsProject.Runs

/-! Message passing: `sys_send`, `sys_recv` and runs of whole calls of them. -/

namespace OsProject

/-- The slot that `sys_send` and `kkill` find for a pid. -/
def pidSlot (k : Kernel) (pid : Int) : Option (Fin NPROC) :=
  (List.finRange NPROC).find? fun i => (k.proc i).pid = pid

def sysSend (k : Kernel) (pid : Int) (msg : List UInt8) : Kernel × Int :=
  match pidSlot k pid with
  | some i => (k.setProc i ((k.proc i).putMail msg), 0)
  | none => (k, -1)

/-- The loop of `sys_recv` over the slots that are left. -/
def recvFrom : List (Fin NPROC) → Kernel → Kernel × List MailLine
  | [], k => (k, [])
  | i :: slots, k =>
    let rest := recvFrom slots (k.setProc i (k.proc i).takeMail.1)
    (rest.1, (k.proc i).takeMail.2 ++ rest.2)

def sysRecv (k : Kernel) : Kernel × Int × List MailLine :=
  let scan := recvFrom (List.finRange NPROC) k
  (scan.1, if scan.2.isEmpty then -1 else 0, scan.2)

/-- A whole call by the process with pid `caller`. -/
inductive MailCall
  | send (caller pid : Int) (msg : List UInt8)
  | recv (caller : Int)

def mailStep (k : Kernel) : MailCall → Kernel × Int × List MailLine
  | .send _ pid msg => ((sysSend k pid msg).1, (sysSend k pid msg).2, [])
  | .recv _ => sysRecv k

def mailNext (k : Kernel) (call : MailCall) : Kernel := (mailStep k call).1

def runMail (k : Kernel) (calls : List MailCall) : Kernel := calls.foldl mailNext k

theorem recvFrom_lines {slots : List (Fin NPROC)} (h : slots.Nodup) (k : Kernel) :
    (recvFrom slots k).2 = slots.flatMap fun i => (k.proc i).takeMail.2 := by
  induction slots generalizing k with
  | nil => rfl
  | cons i slots ih =>
    obtain ⟨hi, hslots⟩ := List.nodup_cons.mp h
    simp only [recvFrom, ih hslots, List.flatMap_cons, List.append_right_inj]
    refine List.flatMap_congr fun j hj => ?_
    have hne : j ≠ i := fun he => hi (he ▸ hj)
    rw [k.setProc_of_ne hne]

theorem recvFrom_proc {slots : List (Fin NPROC)} (h : slots.Nodup) (k : Kernel) (j : Fin NPROC) :
    (recvFrom slots k).1.proc j = if j ∈ slots then (k.proc j).takeMail.1 else k.proc j := by
  induction slots generalizing k with
  | nil => simp [recvFrom]
  | cons i slots ih =>
    obtain ⟨hi, hslots⟩ := List.nodup_cons.mp h
    rw [recvFrom, ih hslots]
    by_cases hj : j = i
    · subst hj
      simp [hi]
    · simp [k.setProc_of_ne hj, hj]

theorem sysRecv_proc (k : Kernel) (j : Fin NPROC) :
    (sysRecv k).1.proc j = (k.proc j).takeMail.1 := by
  simp [sysRecv, recvFrom_proc (List.nodup_finRange NPROC)]

theorem sysRecv_lines (k : Kernel) :
    (sysRecv k).2.2 = (List.finRange NPROC).flatMap fun i => (k.proc i).takeMail.2 :=
  recvFrom_lines (List.nodup_finRange NPROC) k

theorem Proc.takeMail_eq_self (p : Proc) : p.takeMail.1 = p ↔ p.hasMessage = 0 := by
  by_cases hm : p.hasMessage = 0
  · simp [takeMail, hm]
  · refine iff_of_false (fun he => hm ?_) hm
    have hz : p.takeMail.1.hasMessage = 0 := by simp [takeMail, hm]
    rwa [he] at hz

/-- One call of `recv` by the process `caller` takes nothing that is not its own. -/
def PrivateRecv (k : Kernel) (caller : Int) : Prop :=
  (∀ line ∈ (sysRecv k).2.2, line.1 = caller) ∧
    ∀ i, (k.proc i).pid ≠ caller → (sysRecv k).1.proc i = k.proc i

/-- Every message in the table is for `caller`. -/
def OnlyMailFor (k : Kernel) (caller : Int) : Prop :=
  ∀ i, (k.proc i).pid ≠ caller → (k.proc i).hasMessage = 0

theorem privateRecv_iff (k : Kernel) (caller : Int) :
    PrivateRecv k caller ↔ OnlyMailFor k caller := by
  have hsame : (∀ i, (k.proc i).pid ≠ caller → (sysRecv k).1.proc i = k.proc i) ↔
      OnlyMailFor k caller := by
    simp only [OnlyMailFor, sysRecv_proc, Proc.takeMail_eq_self]
  refine ⟨fun h => hsame.mp h.2, fun h => ⟨?_, hsame.mpr h⟩⟩
  intro line hline
  rw [sysRecv_lines, List.mem_flatMap] at hline
  obtain ⟨i, -, hi⟩ := hline
  by_cases hm : (k.proc i).hasMessage = 0
  · simp [Proc.takeMail, hm] at hi
  · simp only [Proc.takeMail, ne_eq, hm, not_false_eq_true, if_true, List.mem_singleton] at hi
    rw [hi]
    by_contra hne
    exact hm (h i hne)

def PrivateCall (k : Kernel) : MailCall → Prop
  | .send _ _ _ => True
  | .recv caller => PrivateRecv k caller

/-- In the run of the calls from `k` every `recv` is private. -/
def PrivateRun (k : Kernel) (calls : List MailCall) : Prop := Meets mailNext PrivateCall k calls

def RecvsOnlyOwn (k : Kernel) : MailCall → Prop
  | .send _ _ _ => True
  | .recv caller => OnlyMailFor k caller

/-- Delivery is private in exactly those runs in which nobody calls `recv` while another
process has a message waiting. -/
theorem privateRun_iff (k : Kernel) (calls : List MailCall) :
    PrivateRun k calls ↔ Meets mailNext RecvsOnlyOwn k calls := by
  refine meets_congr (fun l call => ?_) k calls
  cases call with
  | send caller pid msg => rfl
  | recv caller => exact privateRecv_iff l caller

def threeProcs : Kernel where
  proc i := if i.val < 3 then { state := .runnable, pid := i.val + 1 } else {}
  nextpid := 4

theorem recv_takes_others_mail :
    ¬ PrivateRun threeProcs [.send 1 2 [104, 105], .recv 3] ∧
    (mailStep (runMail threeProcs [.send 1 2 [104, 105]]) (.recv 3)).2.2 = [(2, [104, 105])] := by
  have hline : (mailStep (runMail threeProcs [.send 1 2 [104, 105]]) (.recv 3)).2.2 =
      [(2, [104, 105])] := by decide
  refine ⟨fun h => ?_, hline⟩
  have hpid : (2 : Int) = 3 := h.2.1.1 (2, [104, 105]) (hline ▸ List.mem_singleton_self _)
  exact absurd hpid (by decide)

end OsProject
