import OsProject.Scheduler

/-! A process runs on at most one CPU. The lock of a process is held by the CPU that its thread or
its scheduler says, so whoever changes the state of a slot knows that no CPU has the process. -/

namespace OsProject.Cpus

section Locks

variable {κ π : Type} [DecidableEq κ] [DecidableEq π] {held : κ → Option π} {lock : π → Option κ}
  {c d : κ} {q : π}

def Locked (held : κ → Option π) (lock : π → Option κ) : Prop :=
  ∀ c q, held c = some q → lock q = some c

omit [DecidableEq κ] [DecidableEq π] in
theorem Locked.inj (h : Locked held lock) (hc : held c = some q) (hd : held d = some q) : c = d :=
  Option.some.inj ((h c q hc).symm.trans (h d q hd))

theorem Locked.acquire (h : Locked held lock) (hq : lock q = none) :
    Locked (Function.update held c (some q)) (Function.update lock q (some c)) := by
  intro d r hd
  by_cases hdc : d = c
  · subst hdc
    rw [Function.update_self] at hd
    cases hd
    exact Function.update_self _ _ _
  · rw [Function.update_of_ne hdc] at hd
    have hrq : r ≠ q := fun he => by simp [h d r hd, ← he] at hq
    rw [Function.update_of_ne hrq]
    exact h d r hd

theorem Locked.release (h : Locked held lock) (hc : held c = some q) :
    Locked (Function.update held c none) (Function.update lock q none) := by
  intro d r hd
  have hdc : d ≠ c := fun he => by
    rw [he, Function.update_self] at hd
    cases hd
  rw [Function.update_of_ne hdc] at hd
  have hrq : r ≠ q := fun he => hdc (h.inj (he ▸ hd) hc)
  rw [Function.update_of_ne hrq]
  exact h d r hd

end Locks

variable {κ : Type} [DecidableEq κ]

def Pos.held (p : Fin NPROC) : Pos → Option (Fin NPROC)
  | .free => none
  | .own _ | .swtch _ | .resumed _ => some p
  | .other q _ | .fill q | .leave q => some q

def Thread.held (pos : Fin NPROC → Pos) : Thread → Option (Fin NPROC)
  | .scan => none
  | .picked p | .waking p _ | .back p | .done p => some p
  | .away p => (pos p).held p

def CpuState.held (s : CpuState κ) (c : κ) : Option (Fin NPROC) := (s.thread c).held s.pos

def Own.state : Own → ProcState
  | .yield => .runnable
  | .sleep _ => .sleeping
  | .kexit _ => .zombie

/-- Which process is on which CPU: `c->proc` is the process that the scheduler of `c` has switched to;
that process is `RUNNING` until it is about to switch back, and no other is; and a process that waits
for a CPU has its own lock to release when it gets one. -/
structure Placed (s : CpuState κ) : Prop where
  current : ∀ c p, s.current c = some p ↔ s.thread c = .away p ∨ s.thread c = .back p
  running : ∀ c p, s.thread c = .away p → (∀ k, s.pos p ≠ .swtch k) →
    (s.kernel.proc p).state = .running
  leaving : ∀ c p k, s.thread c = .away p → s.pos p = .swtch k → (s.kernel.proc p).state = k.state
  placed : ∀ p, (s.kernel.proc p).state = .running → ∃ c, s.thread c = .away p
  single : ∀ c d p, s.current c = some p → s.current d = some p → c = d
  parked : ∀ p, (∀ c, s.thread c ≠ .away p) → (s.kernel.proc p).state = .runnable ∨
    (s.kernel.proc p).state = .sleeping ∨ (s.kernel.proc p).state = .used → ∃ k, s.pos p = .resumed k

structure Making (s : CpuState κ) : Prop where
  used : ∀ p q, s.making p = some q → (s.kernel.proc q).state = .used
  once : ∀ p p' q, s.making p = some q → s.making p' = some q → p = p'
  filling : ∀ c p q, s.thread c = .away p → s.pos p = .fill q →
    (s.kernel.proc q).state = .used ∧ s.making p = none ∧ ∀ p', s.making p' ≠ some q
  alloc : ∀ c p q, s.thread c = .away p → s.pos p = .other q .allocproc → s.making p = none
  publish : ∀ c p q, s.thread c = .away p → s.pos p = .other q .publish → s.making p = some q
  wakeup : ∀ c p q chan, s.thread c = .away p → s.pos p = .other q (.wakeup chan) → q ≠ p

structure CpuInv (s : CpuState κ) : Prop where
  locked : Locked s.held s.lock
  placed : Placed s
  making : Making s

section Held

variable {s : CpuState κ} {c d : κ} {p q : Fin NPROC}

omit [DecidableEq κ] in
theorem Placed.away_inj (h : Placed s) (hc : s.thread c = .away p) (hd : s.thread d = .away p) :
    c = d :=
  h.single c d p ((h.current c p).mpr (.inl hc)) ((h.current d p).mpr (.inl hd))

theorem held_setThread (s : CpuState κ) (c : κ) (t : Thread) :
    (s.setThread c t).held = Function.update s.held c (t.held s.pos) := by
  funext d
  simp only [CpuState.held, CpuState.setThread, Function.update_apply]
  split_ifs <;> rfl

theorem held_setPos (h : Placed s) (hc : s.thread c = .away p) (x : Pos) :
    (s.setPos p x).held = Function.update s.held c (x.held p) := by
  funext d
  simp only [CpuState.held, CpuState.setPos, Function.update_apply]
  split_ifs with hdc
  · rw [hdc, hc, Thread.held, Function.update_self]
  · cases hd : s.thread d with
    | away r =>
      have hrp : r ≠ p := fun he => hdc (h.away_inj (he ▸ hd) hc)
      rw [Thread.held, Thread.held, Function.update_of_ne hrp]
    | _ => rfl

omit [DecidableEq κ] in
theorem held_setPos_off (hq : ∀ d, s.thread d ≠ .away q) (x : Pos) : (s.setPos q x).held = s.held := by
  funext d
  simp only [CpuState.held, CpuState.setPos]
  cases hd : s.thread d with
  | away r =>
    have hrq : r ≠ q := fun he => hq d (he ▸ hd)
    rw [Thread.held, Thread.held, Function.update_of_ne hrq]
  | _ => rfl

omit [DecidableEq κ] in
theorem held_away (hc : s.thread c = .away p) {x : Pos} (hpos : s.pos p = x) :
    s.held c = x.held p := by
  rw [CpuState.held, hc, Thread.held, hpos]

omit [DecidableEq κ] in
theorem CpuInv.off (h : CpuInv s) (hc : s.held c = some q)
    (hrun : (s.kernel.proc q).state ≠ .running) (hcur : s.current c ≠ some q) (d : κ) :
    s.current d ≠ some q := by
  intro hd
  have hheld : s.held d = some q := by
    rcases (h.placed.current d q).mp hd with ht | ht
    · have hswtch : ∃ k, s.pos q = .swtch k := by
        by_contra hno
        exact hrun (h.placed.running d q ht fun k hk => hno ⟨k, hk⟩)
      obtain ⟨k, hk⟩ := hswtch
      exact held_away ht hk
    · rw [CpuState.held, ht]
      rfl
  exact hcur (h.locked.inj hheld hc ▸ hd)

omit [DecidableEq κ] in
theorem CpuInv.ne_of_state (h : CpuInv s) (hc : s.thread c = .away p)
    (hpos : ∀ k, s.pos p ≠ .swtch k) (hq : (s.kernel.proc q).state ≠ .running) : q ≠ p := by
  rintro rfl
  exact hq (h.placed.running c q hc hpos)

omit [DecidableEq κ] in
theorem CpuInv.off_visit (h : CpuInv s) (hc : s.thread c = .away p)
    (hpos : ∀ k, s.pos p ≠ .swtch k) (hheld : s.held c = some q)
    (hq : (s.kernel.proc q).state ≠ .running) (d : κ) : s.current d ≠ some q := by
  refine h.off hheld hq (fun hcur => ?_) d
  rcases (h.placed.current c q).mp hcur with ht | ht <;> rw [hc] at ht <;> cases ht
  exact h.ne_of_state hc hpos hq rfl

end Held

section Steps

variable {s : CpuState κ} {c : κ} {p q : Fin NPROC}

omit [DecidableEq κ] in
theorem setProc_self (s : CpuState κ) (q : Fin NPROC) : s.setProc q (s.kernel.proc q) = s := by
  rw [CpuState.setProc, Kernel.setProc, Function.update_eq_self]

/-- The scheduler has the lock of `p` and no process. -/
def Thread.Looks (p : Fin NPROC) (t : Thread) : Prop := t = .picked p ∨ ∃ chan, t = .waking p chan

theorem Thread.Looks.held {t : Thread} (ht : t.Looks p) (pos : Fin NPROC → Pos) :
    t.held pos = some p := by
  rcases ht with rfl | ⟨chan, rfl⟩ <;> rfl

theorem Thread.Looks.off {t : Thread} (ht : t.Looks p) (q : Fin NPROC) : t ≠ .away q ∧ t ≠ .back q := by
  rcases ht with rfl | ⟨chan, rfl⟩ <;> simp

theorem CpuInv.acquire (h : CpuInv s) {t : Thread} (ht : t.Looks q) (hc : s.thread c = .scan)
    (hq : s.lock q = none) : CpuInv ((s.setLock q (some c)).setThread c t) := by
  have hoff := ht.off
  obtain ⟨hl, ⟨h1, h2, h3, h4, h5, h6⟩, ⟨m1, m2, m3, m4, m5, m6⟩⟩ := h
  refine ⟨?_, ?_, ?_⟩
  · rw [held_setThread]
    exact ht.held _ ▸ hl.acquire hq
  all_goals
    constructor <;> simp only [CpuState.setLock, CpuState.setThread, Function.update_apply] <;> grind

omit [DecidableEq κ] in
theorem CpuInv.off_looks (h : CpuInv s) (hc : (s.thread c).Looks p)
    (hr : (s.kernel.proc p).state ≠ .running) (d : κ) : s.current d ≠ some p :=
  h.off (hc.held s.pos) hr
    (fun hcur => ((h.placed.current c p).mp hcur).elim (hc.off p).1 (hc.off p).2) d

theorem CpuInv.dispatch (h : CpuInv s) (hc : s.thread c = .picked p)
    (hr : (s.kernel.proc p).state = .runnable) :
    CpuInv { (s.setProc p { s.kernel.proc p with state := .running }).setThread c (.away p) with
      current := Function.update s.current c (some p) } := by
  have hheld : s.held c = some p := by rw [CpuState.held, hc]; rfl
  have hoff := h.off_looks (.inl hc) (by simp [hr])
  obtain ⟨k, hk⟩ := h.placed.parked p
    (fun d hd => hoff d ((h.placed.current d p).mpr (.inl hd))) (.inl hr)
  obtain ⟨hl, ⟨h1, h2, h3, h4, h5, h6⟩, ⟨m1, m2, m3, m4, m5, m6⟩⟩ := h
  refine ⟨?_, ?_, ?_⟩
  · have hsame : (s.setThread c (.away p)).held = s.held := by
      rw [held_setThread, Thread.held, hk, Pos.held, ← hheld, Function.update_eq_self]
    intro d r hd
    exact hl d r (hsame ▸ hd)
  all_goals constructor <;> simp only [CpuState.setThread, CpuState.setProc, Kernel.setProc,
      Function.update_apply] <;> grind

theorem CpuInv.looked (h : CpuInv s) (hc : (s.thread c).Looks p) {x : Proc}
    (hx : x.state = (s.kernel.proc p).state ∨
      (s.kernel.proc p).state = .sleeping ∧ x.state = .runnable) :
    CpuInv ((s.setProc p x).setThread c (.done p)) := by
  have hheld : s.held c = some p := hc.held s.pos
  have haway : (s.kernel.proc p).state ≠ .running → ∀ d, s.thread d ≠ .away p := fun hr d hd =>
    h.off_looks hc hr d ((h.placed.current d p).mpr (.inl hd))
  have hoff := hc.off
  obtain ⟨hl, ⟨h1, h2, h3, h4, h5, h6⟩, ⟨m1, m2, m3, m4, m5, m6⟩⟩ := h
  refine ⟨?_, ?_, ?_⟩
  · show Locked (s.setThread c (.done p)).held s.lock
    rw [held_setThread, Thread.held, ← hheld, Function.update_eq_self]
    exact hl
  all_goals constructor <;> simp only [CpuState.setThread, CpuState.setProc, Kernel.setProc,
      Function.update_apply] <;> grind

theorem CpuInv.sched (h : CpuInv s) (c : κ) : CpuInv (s.sched c) := by
  have hdone : ∀ p, (s.thread c).Looks p → CpuInv (s.setThread c (.done p)) := fun p hc => by
    have hlooked := h.looked hc (x := s.kernel.proc p) (.inl rfl)
    rwa [setProc_self] at hlooked
  rw [CpuState.sched]
  split
  · rename_i p hc
    split_ifs with hr
    · exact h.dispatch hc hr
    · exact hdone p (.inl hc)
  · rename_i p chan hc
    split_ifs with hs
    · exact h.looked (.inr ⟨chan, hc⟩) (.inr ⟨hs.1, rfl⟩)
    · exact hdone p (.inr ⟨chan, hc⟩)
  · rename_i p hc
    have hheld : s.held c = some p := by rw [CpuState.held, hc]; rfl
    obtain ⟨hl, ⟨h1, h2, h3, h4, h5, h6⟩, ⟨m1, m2, m3, m4, m5, m6⟩⟩ := h
    refine ⟨?_, ?_, ?_⟩
    · have hsame : (s.setThread c (.done p)).held = s.held := by
        rw [held_setThread, Thread.held, ← hheld, Function.update_eq_self]
      intro d r hd
      exact hl d r (hsame ▸ hd)
    all_goals constructor <;> simp only [CpuState.setThread, Function.update_apply] <;> grind
  · rename_i p hc
    have hheld : s.held c = some p := by rw [CpuState.held, hc]; rfl
    obtain ⟨hl, ⟨h1, h2, h3, h4, h5, h6⟩, ⟨m1, m2, m3, m4, m5, m6⟩⟩ := h
    refine ⟨?_, ?_, ?_⟩
    · rw [held_setThread]
      exact hl.release hheld
    all_goals
      constructor <;> simp only [CpuState.setLock, CpuState.setThread, Function.update_apply] <;> grind
  · exact h
  · exact h

theorem CpuInv.call (h : CpuInv s) {k : Own} (hc : s.thread c = .away p) (hpos : s.pos p = .free)
    (hp : s.lock p = none) : CpuInv ((s.setLock p (some c)).setPos p (.own k)) := by
  have hone := fun d => h.placed.away_inj (d := d) hc
  have hheld := held_setPos h.placed hc (.own k)
  obtain ⟨hl, ⟨h1, h2, h3, h4, h5, h6⟩, ⟨m1, m2, m3, m4, m5, m6⟩⟩ := h
  refine ⟨?_, ?_, ?_⟩
  · show Locked (s.setPos p (.own k)).held (Function.update s.lock p (some c))
    rw [hheld]
    exact hl.acquire hp
  all_goals constructor <;> simp only [CpuState.setLock, CpuState.setPos, Function.update_apply] <;> grind

theorem CpuInv.enter (h : CpuInv s) {v : Visit} (hc : s.thread c = .away p) (hpos : s.pos p = .free)
    (hq : s.lock q = none) (hv : s.May p q v) :
    CpuInv ((s.setLock q (some c)).setPos p (.other q v)) := by
  have hone := fun d => h.placed.away_inj (d := d) hc
  have hheld := held_setPos h.placed hc (.other q v)
  have hv1 : v = .allocproc → s.making p = none := by rintro rfl; exact hv
  have hv2 : v = .publish → s.making p = some q := by rintro rfl; exact hv.1
  have hv3 : ∀ chan, v = .wakeup chan → q ≠ p := by rintro chan rfl; exact hv
  obtain ⟨hl, ⟨h1, h2, h3, h4, h5, h6⟩, ⟨m1, m2, m3, m4, m5, m6⟩⟩ := h
  refine ⟨?_, ?_, ?_⟩
  · show Locked (s.setPos p (.other q v)).held (Function.update s.lock q (some c))
    rw [hheld]
    exact hl.acquire hq
  all_goals constructor <;> simp only [CpuState.setLock, CpuState.setPos, Function.update_apply] <;> grind

theorem Own.leave_state (k : Own) (x : Proc) : (Own.leave x k).state = k.state := by cases k <;> rfl

theorem Own.state_ne (k : Own) : k.state ≠ .running ∧ k.state ≠ .used ∧ k.state ≠ .unused := by
  cases k <;> simp [Own.state]

theorem CpuInv.give (h : CpuInv s) {k : Own} (hc : s.thread c = .away p) (hpos : s.pos p = .own k) :
    CpuInv ((s.setProc p (k.leave (s.kernel.proc p))).setPos p (.swtch k)) := by
  have hone := fun d => h.placed.away_inj (d := d) hc
  have hheld := held_setPos h.placed hc (.swtch k)
  have hrun := h.placed.running c p hc (by simp [hpos])
  have hstate := Own.leave_state k (s.kernel.proc p)
  have hne := Own.state_ne k
  have hsame : s.held c = some p := held_away hc hpos
  obtain ⟨hl, ⟨h1, h2, h3, h4, h5, h6⟩, ⟨m1, m2, m3, m4, m5, m6⟩⟩ := h
  refine ⟨?_, ?_, ?_⟩
  · show Locked (s.setPos p (.swtch k)).held s.lock
    rw [hheld, Pos.held, ← hsame, Function.update_eq_self]
    exact hl
  all_goals constructor <;> simp only [CpuState.setPos, CpuState.setProc, Kernel.setProc,
      Function.update_apply] <;> grind

theorem CpuInv.swtch (h : CpuInv s) {k : Own} (hc : s.thread c = .away p)
    (hpos : s.pos p = .swtch k) :
    CpuInv ((s.setPos p (.resumed (some k))).setThread c (.back p)) := by
  have hone := fun d => h.placed.away_inj (d := d) hc
  have hheld := held_setPos h.placed hc (.resumed (some k))
  have hstate := h.placed.leaving c p k hc hpos
  have hne := Own.state_ne k
  have hsame : s.held c = some p := held_away hc hpos
  obtain ⟨hl, ⟨h1, h2, h3, h4, h5, h6⟩, ⟨m1, m2, m3, m4, m5, m6⟩⟩ := h
  refine ⟨?_, ?_, ?_⟩
  · rw [held_setThread, hheld, Function.update_idem, Thread.held, ← hsame, Function.update_eq_self]
    exact hl
  all_goals constructor <;> simp only [CpuState.setPos, CpuState.setThread, Function.update_apply] <;> grind

theorem CpuInv.resume (h : CpuInv s) {k : Option Own} (hc : s.thread c = .away p)
    (hpos : s.pos p = .resumed k) :
    CpuInv (((s.setProc p (Own.wake (s.kernel.proc p) k)).setLock p none).setPos p .free) := by
  have hone := fun d => h.placed.away_inj (d := d) hc
  have hheld := held_setPos h.placed hc .free
  have hsame : s.held c = some p := held_away hc hpos
  have hstate : (Own.wake (s.kernel.proc p) k).state = (s.kernel.proc p).state := by
    unfold Own.wake
    split <;> rfl
  obtain ⟨hl, ⟨h1, h2, h3, h4, h5, h6⟩, ⟨m1, m2, m3, m4, m5, m6⟩⟩ := h
  refine ⟨?_, ?_, ?_⟩
  · show Locked (s.setPos p .free).held (Function.update s.lock p none)
    rw [hheld]
    exact hl.release hsame
  all_goals constructor <;> simp only [CpuState.setPos, CpuState.setLock, CpuState.setProc, Kernel.setProc,
      Function.update_apply] <;> grind

theorem CpuInv.leave (h : CpuInv s) (hc : s.thread c = .away p) (hpos : s.pos p = .leave q) :
    CpuInv ((s.setLock q none).setPos p .free) := by
  have hone := fun d => h.placed.away_inj (d := d) hc
  have hheld := held_setPos h.placed hc .free
  have hsame : s.held c = some q := held_away hc hpos
  obtain ⟨hl, ⟨h1, h2, h3, h4, h5, h6⟩, ⟨m1, m2, m3, m4, m5, m6⟩⟩ := h
  refine ⟨?_, ?_, ?_⟩
  · show Locked (s.setPos p .free).held (Function.update s.lock q none)
    rw [hheld]
    exact hl.release hsame
  all_goals constructor <;> simp only [CpuState.setPos, CpuState.setLock, Function.update_apply] <;> grind

def Waits (x : ProcState) : Prop := x = .runnable ∨ x = .sleeping ∨ x = .used

/-- Process `p` changes slot `q`, whose lock it holds: the state stays, or it is not `RUNNING` before
and after, and only a process that waits is left to wait. -/
structure Touch (s : CpuState κ) (p q : Fin NPROC) (x : Proc) : Prop where
  before : x.state ≠ (s.kernel.proc q).state → q ≠ p ∧ (s.kernel.proc q).state ≠ .running
  after : x.state ≠ (s.kernel.proc q).state → x.state ≠ .running
  waits : x.state ≠ (s.kernel.proc q).state → Waits x.state → Waits (s.kernel.proc q).state

omit [DecidableEq κ] in
theorem Placed.touch {x : Proc} {y : Pos} (h : CpuInv s) (hc : s.thread c = .away p)
    (hpos : ∀ k, s.pos p ≠ .swtch k) (hy : ∀ k, y ≠ .swtch k) (hheld : s.held c = some q)
    (hx : Touch s p q x) : Placed ((s.setProc q x).setPos p y) := by
  have hrun := h.placed.running c p hc hpos
  have hone := fun d => h.placed.away_inj (d := d) hc
  by_cases hsame : x.state = (s.kernel.proc q).state
  · obtain ⟨h1, h2, h3, h4, h5, h6⟩ := h.placed
    constructor <;> simp only [CpuState.setPos, CpuState.setProc, Kernel.setProc,
      Function.update_apply] <;> grind
  · obtain ⟨hqp, hq⟩ := hx.before hsame
    have hx' := hx.after hsame
    have hw := hx.waits hsame
    have hoff := h.off_visit hc hpos hheld hq
    have haway : ∀ d, s.thread d ≠ .away q := fun d hd =>
      hoff d ((h.placed.current d q).mpr (.inl hd))
    obtain ⟨h1, h2, h3, h4, h5, h6⟩ := h.placed
    simp only [Waits] at hw
    constructor <;> simp only [CpuState.setPos, CpuState.setProc, Kernel.setProc,
      Function.update_apply] <;> grind

theorem Locked.touch {x : Proc} {y : Pos} (h : CpuInv s) (hc : s.thread c = .away p)
    (hheld : s.held c = some q) (hy : y.held p = some q) :
    Locked ((s.setProc q x).setPos p y).held s.lock := by
  show Locked (s.setPos p y).held s.lock
  rw [held_setPos h.placed hc y, hy, ← hheld, Function.update_eq_self]
  exact h.locked

omit [DecidableEq κ] in
theorem Making.touch {x : Proc} (h : CpuInv s) (hc : s.thread c = .away p)
    (hx : x.state = (s.kernel.proc q).state ∨ (s.kernel.proc q).state ≠ .used) :
    Making ((s.setProc q x).setPos p (.leave q)) := by
  have hone := fun d => h.placed.away_inj (d := d) hc
  obtain ⟨m1, m2, m3, m4, m5, m6⟩ := h.making
  constructor <;> simp only [CpuState.setPos, CpuState.setProc, Kernel.setProc,
    Function.update_apply] <;> grind

theorem CpuInv.touch {x : Proc} (h : CpuInv s) (hc : s.thread c = .away p)
    (hpos : ∀ k, s.pos p ≠ .swtch k) (hheld : s.held c = some q) (hx : Touch s p q x)
    (hused : x.state = (s.kernel.proc q).state ∨ (s.kernel.proc q).state ≠ .used) :
    CpuInv ((s.setProc q x).setPos p (.leave q)) :=
  ⟨Locked.touch h hc hheld rfl, Placed.touch h hc hpos nofun hheld hx,
    Making.touch h hc hused⟩

theorem CpuInv.pass (h : CpuInv s) (hc : s.thread c = .away p) (hpos : ∀ k, s.pos p ≠ .swtch k)
    (hheld : s.held c = some q) : CpuInv (s.setPos p (.leave q)) := by
  have htouch := h.touch (x := s.kernel.proc q) hc hpos hheld
    ⟨fun hne => absurd rfl hne, fun hne => absurd rfl hne, fun hne => absurd rfl hne⟩ (.inl rfl)
  rwa [setProc_self] at htouch

theorem CpuInv.alloc (h : CpuInv s) (hc : s.thread c = .away p)
    (hpos : s.pos p = .other q .allocproc) (hq : (s.kernel.proc q).state = .unused) (n : Int) :
    CpuInv ((({ s with kernel := { s.kernel with nextpid := n } }.setProc q
      { s.kernel.proc q with pid := s.kernel.nextpid, state := .used }).setPos q
        (.resumed none)).setPos p (.fill q)) := by
  have hheld : s.held c = some q := held_away hc hpos
  have hrun := h.placed.running c p hc (by simp [hpos])
  have hone := fun d => h.placed.away_inj (d := d) hc
  have hqp : q ≠ p := h.ne_of_state hc (by simp [hpos]) (by simp [hq])
  have hoff := h.off_visit hc (by simp [hpos]) hheld (by simp [hq])
  have haway : ∀ d, s.thread d ≠ .away q := fun d hd =>
    hoff d ((h.placed.current d q).mpr (.inl hd))
  have hfill : ((s.setPos q (.resumed none)).setPos p (.fill q)).held = s.held := by
    have hp : Placed (s.setPos q (.resumed none)) := by
      obtain ⟨h1, h2, h3, h4, h5, h6⟩ := h.placed
      constructor <;> simp only [CpuState.setPos, Function.update_apply] <;> grind
    rw [held_setPos hp hc (.fill q), held_setPos_off haway, Pos.held, ← hheld,
      Function.update_eq_self]
  have hnone := h.making.alloc c p q hc hpos
  obtain ⟨hl, ⟨h1, h2, h3, h4, h5, h6⟩, ⟨m1, m2, m3, m4, m5, m6⟩⟩ := h
  refine ⟨?_, ?_, ?_⟩
  · show Locked ((s.setPos q (.resumed none)).setPos p (.fill q)).held s.lock
    rw [hfill]
    exact hl
  all_goals constructor <;> simp only [CpuState.setPos, CpuState.setProc, Kernel.setProc,
      Function.update_apply] <;> grind

theorem CpuInv.publish (h : CpuInv s) (hc : s.thread c = .away p)
    (hpos : s.pos p = .other q .publish) :
    CpuInv { (s.setProc q { s.kernel.proc q with state := .runnable }).setPos p (.leave q) with
      making := Function.update s.making p none } := by
  have hheld : s.held c = some q := held_away hc hpos
  have hswtch : ∀ k, s.pos p ≠ .swtch k := by simp [hpos]
  have hone := fun d => h.placed.away_inj (d := d) hc
  have hmaking := h.making.publish c p q hc hpos
  have hused := h.making.used p q hmaking
  have hqp : q ≠ p := h.ne_of_state hc hswtch (by simp [hused])
  have hplaced : Placed ((s.setProc q { s.kernel.proc q with state := .runnable }).setPos p
      (.leave q)) :=
    Placed.touch h hc hswtch nofun hheld
      ⟨fun _ => ⟨hqp, by simp [hused]⟩, fun _ => nofun, fun _ _ => .inr (.inr hused)⟩
  refine ⟨Locked.touch h hc hheld rfl, ?_, ?_⟩
  · exact ⟨hplaced.current, hplaced.running, hplaced.leaving, hplaced.placed, hplaced.single,
      hplaced.parked⟩
  · obtain ⟨m1, m2, m3, m4, m5, m6⟩ := h.making
    constructor <;> simp only [CpuState.setPos, CpuState.setProc, Kernel.setProc,
      Function.update_apply] <;> grind

theorem CpuInv.visit (h : CpuInv s) {v : Visit} (hc : s.thread c = .away p)
    (hpos : s.pos p = .other q v) (ok : Bool) : CpuInv (s.visit p q ok v) := by
  have hheld : s.held c = some q := held_away hc hpos
  have hswtch : ∀ k, s.pos p ≠ .swtch k := by simp [hpos]
  cases v with
  | wakeup chan =>
    rw [CpuState.visit]
    split_ifs with hs
    · have hsleep := hs.1
      refine h.touch hc hswtch hheld ⟨fun _ => ⟨?_, ?_⟩, fun _ => ?_, fun _ _ => ?_⟩ (.inr ?_)
      · exact h.making.wakeup c p q chan hc hpos
      · simp [hsleep]
      · intro hunused
        cases hunused
      · exact .inr (.inl hsleep)
      · simp [hsleep]
    · exact h.pass hc hswtch hheld
  | kkill pid sig =>
    rw [CpuState.visit]
    split_ifs with hpid
    · have hstate : ((s.kernel.proc q).post sig).state = (s.kernel.proc q).state ∨
          (s.kernel.proc q).state = .sleeping ∧ ((s.kernel.proc q).post sig).state = .runnable := by
        rw [Proc.post]
        dsimp only
        split_ifs with hs
        · exact .inr ⟨hs, rfl⟩
        · exact .inl rfl
      rcases hstate with hsame | ⟨hsleep, hpost⟩
      · exact h.touch hc hswtch hheld ⟨fun hne => absurd hsame hne, fun hne => absurd hsame hne,
          fun hne => absurd hsame hne⟩ (.inl hsame)
      · have hqp : q ≠ p := h.ne_of_state hc hswtch (by simp [hsleep])
        exact h.touch hc hswtch hheld ⟨fun _ => ⟨hqp, by simp [hsleep]⟩, fun _ => by simp [hpost],
          fun _ _ => .inr (.inl hsleep)⟩ (.inr (by simp [hsleep]))
    · exact h.pass hc hswtch hheld
  | allocproc =>
    rw [CpuState.visit]
    split_ifs with hunused
    · exact h.alloc hc hpos hunused _
    · exact h.pass hc hswtch hheld
  | publish => exact h.publish hc hpos
  | kwait =>
    rw [CpuState.visit]
    split_ifs with hz
    · have hne : q ≠ p := h.ne_of_state hc hswtch (by simp [hz.1])
      refine h.touch hc hswtch hheld ⟨fun _ => ⟨hne, by simp [hz.1]⟩, fun _ hm => ?_, fun _ hw => ?_⟩
        (.inr (by simp [hz.1]))
      · cases hm
      · simp [Waits, freeproc] at hw
    · exact h.pass hc hswtch hheld

theorem CpuInv.fill (h : CpuInv s) (hc : s.thread c = .away p) (hpos : s.pos p = .fill q)
    {x : Proc} (hx : x.state = .used) :
    CpuInv { (s.setProc q x).setPos p (.leave q) with
      making := Function.update s.making p (some q) } := by
  have hheld : s.held c = some q := held_away hc hpos
  have hswtch : ∀ k, s.pos p ≠ .swtch k := by simp [hpos]
  have hone := fun d => h.placed.away_inj (d := d) hc
  obtain ⟨hused, hnone, hnew⟩ := h.making.filling c p q hc hpos
  have hsame : x.state = (s.kernel.proc q).state := hx.trans hused.symm
  have hplaced : Placed ((s.setProc q x).setPos p (.leave q)) :=
    Placed.touch h hc hswtch nofun hheld ⟨fun hne => absurd hsame hne, fun hne => absurd hsame hne,
      fun hne => absurd hsame hne⟩
  refine ⟨Locked.touch h hc hheld rfl, ?_, ?_⟩
  · exact ⟨hplaced.current, hplaced.running, hplaced.leaving, hplaced.placed, hplaced.single,
      hplaced.parked⟩
  · have hlock := h.locked
    have hother : ∀ d r, s.thread d = .away r → s.pos r = .fill q → r = p := by
      intro d r hd hr
      have hdc := hlock.inj (held_away hd hr) hheld
      rw [hdc, hc] at hd
      cases hd
      rfl
    obtain ⟨m1, m2, m3, m4, m5, m6⟩ := h.making
    constructor <;> simp only [CpuState.setPos, CpuState.setProc, Kernel.setProc,
      Function.update_apply] <;> grind

theorem CpuInv.unfill (h : CpuInv s) (hc : s.thread c = .away p) (hpos : s.pos p = .fill q)
    {x : Proc} (hx : x.state = .unused) : CpuInv ((s.setProc q x).setPos p (.leave q)) := by
  have hheld : s.held c = some q := held_away hc hpos
  have hswtch : ∀ k, s.pos p ≠ .swtch k := by simp [hpos]
  have hone := fun d => h.placed.away_inj (d := d) hc
  obtain ⟨hused, hnone, hnew⟩ := h.making.filling c p q hc hpos
  have hqp : q ≠ p := h.ne_of_state hc hswtch (by simp [hused])
  refine ⟨Locked.touch h hc hheld rfl, Placed.touch h hc hswtch nofun hheld
    ⟨fun _ => ⟨hqp, by simp [hused]⟩, fun _ => by simp [hx], fun _ hw => ?_⟩, ?_⟩
  · simp [Waits, hx] at hw
  · have hlock := h.locked
    have hother : ∀ d r, s.thread d = .away r → s.pos r = .fill q → r = p := by
      intro d r hd hr
      have hdc := hlock.inj (held_away hd hr) hheld
      rw [hdc, hc] at hd
      cases hd
      rfl
    obtain ⟨m1, m2, m3, m4, m5, m6⟩ := h.making
    constructor <;> simp only [CpuState.setPos, CpuState.setProc, Kernel.setProc,
      Function.update_apply] <;> grind

omit [DecidableEq κ] in
theorem CpuInv.relabel (h : CpuInv s) {x : Proc} (hx : x.state = (s.kernel.proc q).state) :
    CpuInv (s.setProc q x) := by
  obtain ⟨hl, ⟨h1, h2, h3, h4, h5, h6⟩, ⟨m1, m2, m3, m4, m5, m6⟩⟩ := h
  refine ⟨hl, ?_, ?_⟩
  all_goals constructor <;> simp only [CpuState.setProc, Kernel.setProc, Function.update_apply] <;> grind

theorem CpuInv.go (h : CpuInv s) (hc : s.thread c = .away p) (ok : Bool) : CpuInv (s.go c p ok) := by
  rw [CpuState.go]
  split
  · exact h
  · exact h.give hc ‹_›
  · exact h.swtch hc ‹_›
  · exact h.resume hc ‹_›
  · exact h.visit hc ‹_› ok
  · split_ifs
    · exact h.fill hc ‹_› rfl
    · exact h.unfill hc ‹_› rfl
  · exact h.leave hc ‹_›

theorem cpuInv_step (s : CpuState κ) (e : CpuEvent κ) (h : CpuInv s) : CpuInv (cpuStep s e) := by
  cases e with
  | acquire c q =>
    rw [cpuStep]
    split_ifs with hok
    · exact h.acquire (.inl rfl) hok.1 hok.2
    · exact h
  | interrupt c q chan =>
    rw [cpuStep]
    split_ifs with hok
    · exact h.acquire (.inr ⟨chan, rfl⟩) hok.1 hok.2
    · exact h
  | sched c => exact h.sched c
  | call c k =>
    rw [cpuStep]
    split
    · split_ifs with hok
      · exact h.call ‹_› hok.1 hok.2.1
      · exact h
    · exact h
  | visit c q v =>
    rw [cpuStep]
    split
    · split_ifs with hok
      · exact h.enter ‹_› hok.1 hok.2.1 hok.2.2
      · exact h
    · exact h
  | adopt c =>
    rw [cpuStep]
    split
    · split
      · exact h.relabel rfl
      · exact h
    · exact h
  | reparent c q =>
    rw [cpuStep]
    split
    · split_ifs
      · exact h.relabel rfl
      · exact h
    · exact h
  | go c ok =>
    rw [cpuStep]
    split
    · exact h.go ‹_› ok
    · exact h

end Steps

/-- No two CPUs have the same process, and a process that is `RUNNING` is on one. -/
structure OneCpuEach (s : CpuState κ) : Prop where
  distinct : ∀ c d p, s.current c = some p → s.current d = some p → c = d
  running : ∀ p, (s.kernel.proc p).state = .running → ∃! c, s.current c = some p

omit [DecidableEq κ] in
theorem CpuInv.oneCpuEach {s : CpuState κ} (h : CpuInv s) : OneCpuEach s := by
  refine ⟨h.placed.single, fun p hp => ?_⟩
  obtain ⟨c, hc⟩ := h.placed.placed p hp
  have hcur := (h.placed.current c p).mpr (.inl hc)
  exact ⟨c, hcur, fun d hd => h.placed.single d c p hd hcur⟩

def SlotSafe (s : CpuState κ) (e : CpuEvent κ) : Prop :=
  ∀ q, ¬ ((s.kernel.proc q).state = .unused ↔ ((cpuStep s e).kernel.proc q).state = .unused) →
    ∀ c, s.current c ≠ some q

section Slots

variable {s : CpuState κ} {c : κ} {p q r : Fin NPROC}

omit [DecidableEq κ] in
theorem CpuInv.setProc_safe (h : CpuInv s) {x : Proc} {t : CpuState κ} (hc : s.thread c = .away p)
    (hpos : ∀ k, s.pos p ≠ .swtch k) (hheld : s.held c = some q)
    (hk : t.kernel.proc = (s.setProc q x).kernel.proc)
    (hx : (s.kernel.proc q).state = .running → x.state ≠ .unused)
    (hr : ¬ ((s.kernel.proc r).state = .unused ↔ (t.kernel.proc r).state = .unused)) (d : κ) :
    s.current d ≠ some r := by
  rw [hk] at hr
  by_cases hrq : r = q
  · subst hrq
    rw [CpuState.setProc, Kernel.setProc_same] at hr
    refine h.off_visit hc hpos hheld (fun hrun => hr ?_) d
    simp [hrun, hx hrun]
  · rw [CpuState.setProc, Kernel.setProc_of_ne _ hrq] at hr
    exact absurd Iff.rfl hr

omit [DecidableEq κ] in
theorem CpuInv.visit_safe (h : CpuInv s) {v : Visit} (hc : s.thread c = .away p)
    (hpos : s.pos p = .other q v) (ok : Bool)
    (hr : ¬ ((s.kernel.proc r).state = .unused ↔ ((s.visit p q ok v).kernel.proc r).state = .unused))
    (d : κ) : s.current d ≠ some r := by
  have hheld : s.held c = some q := held_away hc hpos
  have hswtch : ∀ k, s.pos p ≠ .swtch k := by simp [hpos]
  cases v with
  | wakeup chan =>
    rw [CpuState.visit] at hr
    split_ifs at hr
    · exact h.setProc_safe hc hswtch hheld rfl (fun _ => by simp) hr d
    · exact absurd Iff.rfl hr
  | kkill pid sig =>
    rw [CpuState.visit] at hr
    split_ifs at hr
    · refine h.setProc_safe hc hswtch hheld rfl (fun hrun => ?_) hr d
      simp [Proc.post, hrun]
    · exact absurd Iff.rfl hr
  | allocproc =>
    rw [CpuState.visit] at hr
    split_ifs at hr
    · exact h.setProc_safe hc hswtch hheld rfl (fun _ => by simp) hr d
    · exact absurd Iff.rfl hr
  | publish => exact h.setProc_safe hc hswtch hheld rfl (fun _ => by simp) hr d
  | kwait =>
    rw [CpuState.visit] at hr
    split_ifs at hr with hz
    · refine h.setProc_safe hc hswtch hheld rfl (fun hrun => ?_) hr d
      rw [hz.1] at hrun
      cases hrun
    · exact absurd Iff.rfl hr

omit [DecidableEq κ] in
theorem not_freed {x : Proc} {k : Kernel} (hk : k.proc = (s.kernel.setProc q x).proc)
    (hq : (s.kernel.proc q).state = .unused ↔ x.state = .unused)
    (hr : ¬ ((s.kernel.proc r).state = .unused ↔ (k.proc r).state = .unused)) : False := by
  refine hr ?_
  rw [hk]
  by_cases hrq : r = q
  · subst hrq
    rwa [Kernel.setProc_same]
  · rw [Kernel.setProc_of_ne _ hrq]

theorem slotSafe (h : CpuInv s) (e : CpuEvent κ) : SlotSafe s e := by
  intro r hr d
  cases e with
  | acquire c q | interrupt c q chan =>
    rw [cpuStep] at hr
    split_ifs at hr <;> exact absurd Iff.rfl hr
  | sched c =>
    rw [cpuStep, CpuState.sched] at hr
    split at hr
    · split_ifs at hr with hrun
      · exact (not_freed rfl (by simp [hrun]) hr).elim
      · exact absurd Iff.rfl hr
    · split_ifs at hr with hs
      · exact (not_freed rfl (by simp [hs.1]) hr).elim
      · exact absurd Iff.rfl hr
    all_goals exact absurd Iff.rfl hr
  | call c k | visit c q v =>
    rw [cpuStep] at hr
    split at hr
    · split_ifs at hr <;> exact absurd Iff.rfl hr
    · exact absurd Iff.rfl hr
  | adopt c =>
    rw [cpuStep] at hr
    split at hr
    · split at hr
      · exact (not_freed rfl (by rfl) hr).elim
      · exact absurd Iff.rfl hr
    · exact absurd Iff.rfl hr
  | reparent c q =>
    rw [cpuStep] at hr
    split at hr
    · split_ifs at hr
      · exact (not_freed rfl (by rfl) hr).elim
      · exact absurd Iff.rfl hr
    · exact absurd Iff.rfl hr
  | go c ok =>
    rw [cpuStep] at hr
    split at hr
    · rename_i p hc
      rw [CpuState.go] at hr
      split at hr
      · exact absurd Iff.rfl hr
      · rename_i k hpos
        have hrun := h.placed.running c p hc (by simp [hpos])
        refine (not_freed rfl ?_ hr).elim
        simp [hrun, Own.leave_state, (Own.state_ne k).2.2]
      · exact absurd Iff.rfl hr
      · rename_i k hpos
        refine (not_freed rfl ?_ hr).elim
        unfold Own.wake
        split <;> rfl
      · exact h.visit_safe hc ‹_› ok hr d
      · rename_i q hpos
        have hheld : s.held c = some q := held_away hc hpos
        obtain ⟨hused, -⟩ := h.making.filling c p q hc hpos
        split_ifs at hr
        · exact h.setProc_safe hc (by simp [hpos]) hheld rfl (fun _ => by simp) hr d
        · refine h.setProc_safe hc (by simp [hpos]) hheld rfl (fun hrun => ?_) hr d
          rw [hused] at hrun
          cases hrun
      · exact absurd Iff.rfl hr
    · exact absurd Iff.rfl hr

omit [DecidableEq κ] in
theorem cpuInv_boot : CpuInv (cpuBoot (κ := κ)) := by
  have hstate : ∀ p, ((cpuBoot (κ := κ)).kernel.proc p).state ≠ .running := by
    intro p
    simp only [cpuBoot, Life.lifeBoot]
    split_ifs <;> nofun
  have hscan : ∀ (c : κ) p, (cpuBoot (κ := κ)).thread c ≠ .away p := fun _ _ => nofun
  refine ⟨fun _ _ hq => (nomatch hq), ?_, ?_⟩
  · refine ⟨fun c p => by simp [cpuBoot], fun c p hc => absurd hc (hscan c p),
      fun c p _ hc => absurd hc (hscan c p), fun p hp => absurd hp (hstate p), nofun,
      fun p _ _ => ⟨none, rfl⟩⟩
  · exact ⟨nofun, nofun, fun c p _ hc => absurd hc (hscan c p),
      fun c p _ hc => absurd hc (hscan c p), fun c p _ hc => absurd hc (hscan c p),
      fun c p _ _ hc => absurd hc (hscan c p)⟩

end Slots

/-- On any number of CPUs and in every interleaving: a process is on at most one CPU, a process that
is `RUNNING` is on exactly one, and no slot is freed or taken while a CPU has its process. -/
theorem process_on_one_cpu (es : List (CpuEvent κ)) :
    Always cpuStep OneCpuEach cpuBoot es ∧ Meets cpuStep SlotSafe cpuBoot es :=
  ⟨always_of_inv cpuInv_step (fun _ => CpuInv.oneCpuEach) cpuInv_boot es,
    meets_of_inv (fun s e h _ => cpuInv_step s e h) (fun _ e h _ => slotSafe h e) cpuInv_boot
      (meets_true _ es)⟩

end OsProject.Cpus
