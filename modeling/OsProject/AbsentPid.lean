import OsProject.MailLoss
import OsProject.Pids

/-! Calls on a pid that no process has. `kkill` and `sys_send` compare only pids: a slot that is not
in use is found as well, by the pid that `freeproc` left in it. -/

namespace OsProject.Life

def Alive (k : Kernel) (pid : Int) : Prop := ∃ i, (k.proc i).state ≠ .unused ∧ (k.proc i).pid = pid

def Left (k : Kernel) (pid : Int) : Prop := ∃ i, (k.proc i).state = .unused ∧ (k.proc i).pid = pid

/-- `kkill` and `sys_send` reach a process, or fail and change nothing. -/
def OnlyProcesses (k : Kernel) (pid : Int) : Prop :=
  ∀ (sig : Fin 32) (msg : List UInt8),
    (Alive k pid → (kkill k pid sig).2 = 0 ∧ (sysSend k pid msg).2 = 0) ∧
    (¬ Alive k pid → kkill k pid sig = (k, -1) ∧ sysSend k pid msg = (k, -1))

section Scan

variable {k : Kernel} {pid : Int}

theorem isSome_pidSlot : (pidSlot k pid).isSome ↔ ∃ i, (k.proc i).pid = pid := by
  simp [pidSlot]

theorem isSome_pidSlot_iff : (pidSlot k pid).isSome ↔ Alive k pid ∨ Left k pid := by
  rw [isSome_pidSlot]
  constructor
  · rintro ⟨i, hi⟩
    by_cases hu : (k.proc i).state = .unused
    · exact .inr ⟨i, hu, hi⟩
    · exact .inl ⟨i, hu, hi⟩
  · rintro (⟨i, -, hi⟩ | ⟨i, -, hi⟩) <;> exact ⟨i, hi⟩

theorem calls_found (h : (pidSlot k pid).isSome) (sig : Fin 32) (msg : List UInt8) :
    (kkill k pid sig).2 = 0 ∧ (sysSend k pid msg).2 = 0 := by
  obtain ⟨i, hi⟩ := Option.isSome_iff_exists.mp h
  simp [kkill, sysSend, hi]

theorem calls_missed (h : ¬ (pidSlot k pid).isSome) (sig : Fin 32) (msg : List UInt8) :
    kkill k pid sig = (k, -1) ∧ sysSend k pid msg = (k, -1) := by
  rw [Option.not_isSome_iff_eq_none] at h
  simp [kkill, sysSend, h]

theorem onlyProcesses_iff : OnlyProcesses k pid ↔ Alive k pid ∨ ¬ Left k pid := by
  constructor
  · intro h
    by_contra! hne
    obtain ⟨habsent, hleft⟩ := hne
    have hret : (kkill k pid 0).2 = 0 := (calls_found (isSome_pidSlot_iff.mpr (.inr hleft)) 0 []).1
    have hfail : (kkill k pid 0).2 = -1 := congrArg Prod.snd ((h 0 []).2 habsent).1
    omega
  · intro h sig msg
    constructor
    · intro hex
      exact calls_found (isSome_pidSlot_iff.mpr (.inl hex)) sig msg
    · intro habsent
      have hleft := h.resolve_left habsent
      refine calls_missed (fun hsome => ?_) sig msg
      exact (isSome_pidSlot_iff.mp hsome).elim habsent hleft

end Scan

theorem Clean.left_iff {k : Kernel} (h : Clean k) (pid : Int) :
    Left k pid ↔ pid = 0 ∧ ∃ i, (k.proc i).state = .unused := by
  constructor
  · rintro ⟨i, hu, rfl⟩
    exact ⟨(h i hu).1, i, hu⟩
  · rintro ⟨rfl, i, hu⟩
    exact ⟨i, hu, (h i hu).1⟩

theorem lifeInv_run (es : List LifeEvent) : LifeInv (es.foldl lifeStep lifeBoot) := by
  induction es using List.reverseRecOn with
  | nil => exact lifeInv_boot
  | append_singleton es e ih =>
    rw [List.foldl_append]
    exact lifeInv_step _ e ih

/-- The calls reach processes only when no unused slot has the pid. In the tables that forks, exits
and waits make this excludes pid 0 alone, as long as some slot is unused. -/
theorem absent_pid_iff (k : Kernel) (es : List LifeEvent) (pid : Int) :
    (OnlyProcesses k pid ↔ Alive k pid ∨ ¬ Left k pid) ∧
    (OnlyProcesses (es.foldl lifeStep lifeBoot).kernel pid ↔
      Alive (es.foldl lifeStep lifeBoot).kernel pid ∨ pid ≠ 0 ∨
        ∀ i, ((es.foldl lifeStep lifeBoot).kernel.proc i).state ≠ .unused) := by
  refine ⟨onlyProcesses_iff, ?_⟩
  rw [onlyProcesses_iff, (lifeInv_run es).clean.left_iff pid, not_and_or, not_exists]

theorem boot_pid_zero : ¬ Alive lifeBoot.kernel 0 ∧ (lifeBoot.kernel.proc 1).state = .unused ∧
    ¬ OnlyProcesses lifeBoot.kernel 0 ∧
    (kkill lifeBoot.kernel 0 9).2 = 0 ∧ ((kkill lifeBoot.kernel 0 9).1.proc 1).pending 9 = true ∧
    (sysSend lifeBoot.kernel 0 [104, 105]).2 = 0 ∧
      ((sysSend lifeBoot.kernel 0 [104, 105]).1.proc 1).message = [104, 105] := by
  have habsent : ¬ Alive lifeBoot.kernel 0 := by
    rintro ⟨i, hi, hpid⟩
    by_cases h0 : i = initproc
    · rw [h0] at hpid
      cases hpid
    · exact hi (congrArg Proc.state (if_neg h0))
  have hleft : Left lifeBoot.kernel 0 := ⟨1, rfl, rfl⟩
  have hbad : ¬ OnlyProcesses lifeBoot.kernel 0 := by
    rw [onlyProcesses_iff]
    exact fun h => h.elim habsent fun hnot => hnot hleft
  refine ⟨habsent, rfl, hbad, ?_⟩
  decide +kernel

end OsProject.Life
