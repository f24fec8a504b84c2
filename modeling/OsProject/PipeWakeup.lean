import OsProject.PipeFifo

/-! Nobody sleeps in a pipe that could go on. A wakeup may come late, at the end of the critical
section that made it necessary, but it comes before the lock is free. -/

namespace OsProject.Pipes

/-- When the lock is free, readers sleep only on an empty pipe that somebody can still write to,
and writers only on a full one that somebody can still read from. -/
def NobodyStranded (s : PipeState) : Prop :=
  s.lock = none → ∀ q,
    ((s.kernel.proc q).SleepsOn s.nreadAddr → s.pipe.Empty ∧ s.pipe.writeopen = true) ∧
      ((s.kernel.proc q).SleepsOn s.nwriteAddr → s.pipe.Full ∧ s.pipe.readopen = true)

/-- The lock is with a writer that cannot return before its wakeup of the readers: it would have
to find the read end closed or itself killed, and neither changes while it has the lock. -/
def WriterOwes (s : PipeState) : Prop :=
  ∃ p n i, s.phase p = .inside (.write n i) ∧ s.pipe.readopen = true ∧
    (s.kernel.proc p).killed = 0

def ReaderOwes (s : PipeState) : Prop := ∃ p n i, s.phase p = .inside (.copy n i)

structure WakeInv (s : PipeState) : Prop where
  held : LockHeld s
  awake : ∀ p c, s.phase p = .inside c → (s.kernel.proc p).state ≠ .sleeping
  readers : ∀ q, (s.kernel.proc q).SleepsOn s.nreadAddr →
    s.pipe.Empty ∧ s.pipe.writeopen = true ∨ WriterOwes s
  writers : ∀ q, (s.kernel.proc q).SleepsOn s.nwriteAddr →
    s.pipe.Full ∧ s.pipe.readopen = true ∨ ReaderOwes s

theorem WakeInv.nobodyStranded {s : PipeState} (h : WakeInv s) : NobodyStranded s := by
  intro hfree q
  have hout : ∀ p c, s.phase p ≠ .inside c := fun p c hp =>
    absurd ((h.held p).mpr ⟨c, hp⟩) (by simp [hfree])
  refine ⟨fun hq => (h.readers q hq).resolve_right ?_, fun hq => (h.writers q hq).resolve_right ?_⟩
  · rintro ⟨p, n, i, hp, -⟩
    exact hout p _ hp
  · rintro ⟨p, n, i, hp⟩
    exact hout p _ hp

section Pass

variable {s t : PipeState} {p q : Fin NPROC} {c : PipeCode} {x : PipePhase}

theorem LockHeld.unique (h : LockHeld s) {c' : PipeCode} (hp : s.phase p = .inside c)
    (hq : s.phase q = .inside c') : q = p := by
  have hlock := (h p).mpr ⟨c, hp⟩
  rw [(h q).mpr ⟨c', hq⟩, Option.some.injEq] at hlock
  exact hlock

theorem WakeInv.reader_waits (h : WakeInv s) (hp : s.phase p = .inside c)
    (hc : ∀ n i, c ≠ .write n i) (hq : (s.kernel.proc q).SleepsOn s.nreadAddr) :
    s.pipe.Empty ∧ s.pipe.writeopen = true := by
  refine (h.readers q hq).resolve_right ?_
  rintro ⟨p', n, i, hp', -⟩
  have he := h.held.unique hp hp'
  rw [he, hp, PipePhase.inside.injEq] at hp'
  exact hc n i hp'

theorem WakeInv.writer_waits (h : WakeInv s) (hp : s.phase p = .inside c)
    (hc : ∀ n i, c ≠ .copy n i) (hq : (s.kernel.proc q).SleepsOn s.nwriteAddr) :
    s.pipe.Full ∧ s.pipe.readopen = true := by
  refine (h.writers q hq).resolve_right ?_
  rintro ⟨p', n, i, hp'⟩
  have he := h.held.unique hp hp'
  rw [he, hp, PipePhase.inside.injEq] at hp'
  exact hc n i hp'

theorem WakeInv.of_pass (h : WakeInv s) (hp : s.phase p = .inside c) (ht : PassTo s t p)
    (hawake : t.lock = none ∨ (t.kernel.proc p).state ≠ .sleeping)
    (hreaders : ∀ q, (t.kernel.proc q).SleepsOn t.nreadAddr →
      t.pipe.Empty ∧ t.pipe.writeopen = true ∨ WriterOwes t)
    (hwriters : ∀ q, (t.kernel.proc q).SleepsOn t.nwriteAddr →
      t.pipe.Full ∧ t.pipe.readopen = true ∨ ReaderOwes t) : WakeInv t := by
  have hheld := h.held.pass hp ht
  refine ⟨hheld, fun q c' hq => ?_, hreaders, hwriters⟩
  have hlock := (hheld q).mpr ⟨c', hq⟩
  rcases hawake with hnone | hstate
  · simp [hnone] at hlock
  · cases ht with
    | stay c'' _ hkeep =>
      rw [hkeep, (h.held p).mpr ⟨c, hp⟩, Option.some.injEq] at hlock
      exact hlock ▸ hstate
    | out _ hfree => simp [hfree] at hlock
    | asleep c'' _ _ hfree => simp [hfree] at hlock

theorem sleepsOn_of_sleep {chan chan' : Nat} (hne : chan ≠ chan')
    (h : ((s.sleep p chan c).kernel.proc q).SleepsOn chan') : (s.kernel.proc q).SleepsOn chan' :=
  sleepsOn_of_setProc (fun hs => hne hs.2) h

theorem nreadAddr_ne : s.nreadAddr ≠ s.nwriteAddr := by
  simp [PipeState.nreadAddr, PipeState.nwriteAddr]

theorem WakeInv.pass_write {n : Int} {i : Nat} (h : WakeInv s) (hp : s.phase p = .inside (.write n i))
    (byte : Option UInt8) : WakeInv (s.pass p byte (.write n i)).1 := by
  have hstate := h.awake p _ hp
  have hto := pass_to s p byte (.write n i)
  have hnoRead : ∀ q, ¬ ((wakeup s.kernel p s.nreadAddr).proc q).SleepsOn s.nreadAddr :=
    fun q => wakeup_none hstate
  have hwriter : ∀ q, (s.kernel.proc q).SleepsOn s.nwriteAddr →
      s.pipe.Full ∧ s.pipe.readopen = true := fun q => h.writer_waits hp (by simp)
  have hwoken : ∀ q, ((wakeup s.kernel p s.nreadAddr).proc q).SleepsOn s.nwriteAddr →
      s.pipe.Full ∧ s.pipe.readopen = true := fun q hq => hwriter q (sleepsOn_of_wakeup hq)
  simp only [PipeState.pass] at hto ⊢
  by_cases hi : (i : Int) < n
  · by_cases hstop : s.pipe.readopen = false ∨ (s.kernel.proc p).killed ≠ 0
    · -- Nothing was written since the lock was taken, so nobody has to be woken.
      simp only [hi, hstop, if_true] at hto ⊢
      refine h.of_pass hp hto (.inl rfl) (fun q hq => ?_) fun q hq => .inl (hwriter q hq)
      refine .inl ((h.readers q hq).resolve_right ?_)
      rintro ⟨p', n', i', hp', hopen, hkilled⟩
      rw [h.held.unique hp hp'] at hkilled
      rcases hstop with hclosed | hk
      · simp [hopen] at hclosed
      · exact hk hkilled
    · simp only [hi, hstop, if_true, if_false] at hto ⊢
      obtain ⟨hopen, hkilled⟩ : s.pipe.readopen = true ∧ (s.kernel.proc p).killed = 0 := by
        simpa using hstop
      by_cases hfull : s.pipe.Full
      · simp only [hfull, if_true] at hto ⊢
        refine h.of_pass hp hto (.inl rfl) (fun q hq => ?_) fun q hq => .inl ⟨hfull, hopen⟩
        exact absurd (sleepsOn_of_sleep nreadAddr_ne.symm hq) (hnoRead q)
      · simp only [hfull, if_false] at hto ⊢
        cases byte with
        | none =>
          exact h.of_pass hp hto (.inl rfl) (fun q hq => absurd hq (hnoRead q))
            fun q hq => .inl (hwoken q hq)
        | some ch =>
          refine h.of_pass hp hto (.inr hstate) (fun q _ => .inr ⟨p, n, i + 1, ?_, hopen, hkilled⟩)
            fun q hq => absurd (hwriter q hq).1 hfull
          exact Function.update_self p _ s.phase
  · simp only [hi, if_false] at hto ⊢
    exact h.of_pass hp hto (.inl rfl) (fun q hq => absurd hq (hnoRead q))
      fun q hq => .inl (hwoken q hq)

theorem WakeInv.pass_await {n : Int} (h : WakeInv s) (hp : s.phase p = .inside (.await n))
    (byte : Option UInt8) : WakeInv (s.pass p byte (.await n)).1 := by
  have hstate := h.awake p _ hp
  have hto := pass_to s p byte (.await n)
  have hreader : ∀ q, (s.kernel.proc q).SleepsOn s.nreadAddr →
      s.pipe.Empty ∧ s.pipe.writeopen = true := fun q => h.reader_waits hp (by simp)
  have hwriter : ∀ q, (s.kernel.proc q).SleepsOn s.nwriteAddr →
      s.pipe.Full ∧ s.pipe.readopen = true := fun q => h.writer_waits hp (by simp)
  simp only [PipeState.pass] at hto ⊢
  by_cases hwait : s.pipe.Empty ∧ s.pipe.writeopen = true
  · by_cases hkilled : (s.kernel.proc p).killed ≠ 0
    · simp only [hwait, hkilled, and_self, if_true, ne_eq, not_false_eq_true] at hto ⊢
      exact h.of_pass hp hto (.inl rfl) (fun q hq => .inl (hreader q hq))
        fun q hq => .inl (hwriter q hq)
    · simp only [hwait, hkilled, and_self, if_true, if_false] at hto ⊢
      exact h.of_pass hp hto (.inl rfl) (fun q _ => .inl hwait)
        fun q hq => .inl (hwriter q (sleepsOn_of_sleep nreadAddr_ne hq))
  · simp only [hwait, if_false] at hto ⊢
    exact h.of_pass hp hto (.inr hstate) (fun q hq => .inl (hreader q hq))
      fun q hq => .inl (hwriter q hq)

theorem WakeInv.pass_copy {n : Int} {i : Nat} (h : WakeInv s) (hp : s.phase p = .inside (.copy n i))
    (byte : Option UInt8) : WakeInv (s.pass p byte (.copy n i)).1 := by
  have hstate := h.awake p _ hp
  have hto := pass_to s p byte (.copy n i)
  have hnoWrite : ∀ q, ¬ ((wakeup s.kernel p s.nwriteAddr).proc q).SleepsOn s.nwriteAddr :=
    fun q => wakeup_none hstate
  have hreader : ∀ q, (s.kernel.proc q).SleepsOn s.nreadAddr →
      s.pipe.Empty ∧ s.pipe.writeopen = true := fun q => h.reader_waits hp (by simp)
  have hexit : ∀ q, ((wakeup s.kernel p s.nwriteAddr).proc q).SleepsOn s.nreadAddr →
      s.pipe.Empty ∧ s.pipe.writeopen = true := fun q hq => hreader q (sleepsOn_of_wakeup hq)
  simp only [PipeState.pass] at hto ⊢
  by_cases hi : (i : Int) < n
  · by_cases hempty : s.pipe.Empty
    · simp only [hi, hempty, if_true] at hto ⊢
      exact h.of_pass hp hto (.inl rfl) (fun q hq => .inl (hexit q hq))
        fun q hq => absurd hq (hnoWrite q)
    · simp only [hi, hempty, if_true, if_false] at hto ⊢
      cases byte with
      | none =>
        exact h.of_pass hp hto (.inl rfl) (fun q hq => .inl (hexit q hq))
          fun q hq => absurd hq (hnoWrite q)
      | some ch =>
        refine h.of_pass hp hto (.inr hstate) (fun q hq => absurd (hreader q hq).1 hempty)
          fun q _ => .inr ⟨p, n, i + 1, ?_⟩
        exact Function.update_self p _ s.phase
  · simp only [hi, if_false] at hto ⊢
    exact h.of_pass hp hto (.inl rfl) (fun q hq => .inl (hexit q hq))
      fun q hq => absurd hq (hnoWrite q)

theorem WakeInv.pass_close {writable : Bool} (h : WakeInv s) (hp : s.phase p = .inside (.close writable))
    (byte : Option UInt8) : WakeInv (s.pass p byte (.close writable)).1 := by
  have hstate := h.awake p _ hp
  have hto := pass_to s p byte (.close writable)
  cases writable with
  | true =>
    refine h.of_pass hp hto (.inl rfl) (fun q hq => ?_) fun q hq => ?_
    · exact absurd hq (wakeup_none hstate)
    · exact .inl (h.writer_waits hp (by simp) (sleepsOn_of_wakeup hq))
  | false =>
    refine h.of_pass hp hto (.inl rfl) (fun q hq => ?_) fun q hq => ?_
    · exact .inl (h.reader_waits hp (by simp) (sleepsOn_of_wakeup hq))
    · exact absurd hq (wakeup_none hstate)

theorem WakeInv.pass (h : WakeInv s) (hp : s.phase p = .inside c) (byte : Option UInt8) :
    WakeInv (s.pass p byte c).1 := by
  cases c with
  | write n i => exact h.pass_write hp byte
  | await n => exact h.pass_await hp byte
  | copy n i => exact h.pass_copy hp byte
  | close writable => exact h.pass_close hp byte

theorem WakeInv.quiet (h : WakeInv s) (haddr : t.addr = s.addr) (hpipe : t.pipe = s.pipe)
    (hlock : t.lock = s.lock) (hphase : ∀ q c, t.phase q = .inside c ↔ s.phase q = .inside c)
    (hproc : ∀ q c, s.phase q = .inside c →
      (t.kernel.proc q).killed = (s.kernel.proc q).killed ∧
        ((s.kernel.proc q).state ≠ .sleeping → (t.kernel.proc q).state ≠ .sleeping))
    (hsleep : ∀ q, ((t.kernel.proc q).SleepsOn s.nreadAddr → (s.kernel.proc q).SleepsOn s.nreadAddr) ∧
      ((t.kernel.proc q).SleepsOn s.nwriteAddr → (s.kernel.proc q).SleepsOn s.nwriteAddr)) :
    WakeInv t := by
  have hread : t.nreadAddr = s.nreadAddr := by rw [PipeState.nreadAddr, haddr]; rfl
  have hwrite : t.nwriteAddr = s.nwriteAddr := by rw [PipeState.nwriteAddr, haddr]; rfl
  refine ⟨h.held.congr hlock hphase, fun q c hq => ?_, fun q hq => ?_, fun q hq => ?_⟩
  · have hq' := (hphase q c).mp hq
    exact (hproc q c hq').2 (h.awake q c hq')
  · rw [hread] at hq
    rw [hpipe]
    refine (h.readers q ((hsleep q).1 hq)).imp_right ?_
    rintro ⟨p, n, i, hp, hopen, hkilled⟩
    exact ⟨p, n, i, (hphase p _).mpr hp, hpipe ▸ hopen, (hproc p _ hp).1.trans hkilled⟩
  · rw [hwrite] at hq
    rw [hpipe]
    refine (h.writers q ((hsleep q).2 hq)).imp_right ?_
    rintro ⟨p, n, i, hp⟩
    exact ⟨p, n, i, (hphase p _).mpr hp⟩

theorem WakeInv.setProc (h : WakeInv s) {y : Proc} (hy : s.Elsewhere y)
    (hkilled : ∀ c, s.phase p = .inside c → y.killed = (s.kernel.proc p).killed)
    (hstate : ∀ c, s.phase p = .inside c → y.state ≠ .sleeping)
    (haddr : t.addr = s.addr) (hpipe : t.pipe = s.pipe) (hlock : t.lock = s.lock)
    (hphase : ∀ q c, t.phase q = .inside c ↔ s.phase q = .inside c)
    (hkernel : t.kernel = s.kernel.setProc p y) : WakeInv t := by
  refine h.quiet haddr hpipe hlock hphase (fun q c hq => ?_) fun q => ?_
  · rw [hkernel]
    by_cases hqp : q = p
    · subst hqp
      rw [Kernel.setProc_same]
      exact ⟨hkilled c hq, fun _ => hstate c hq⟩
    · rw [Kernel.setProc_of_ne _ hqp]
      exact ⟨rfl, id⟩
  · rw [hkernel]
    exact ⟨sleepsOn_of_setProc hy.1, sleepsOn_of_setProc hy.2⟩

theorem WakeInv.setState (h : WakeInv s) {y : ProcState} (hy : y ≠ .sleeping) :
    WakeInv (s.setState p y) :=
  h.setProc (y := { s.kernel.proc p with state := y }) ⟨fun hs => hy hs.1, fun hs => hy hs.1⟩
    (fun _ _ => rfl) (fun _ _ => hy) rfl rfl rfl (fun _ _ => Iff.rfl) rfl

end Pass

theorem kkill_kept (k : Kernel) (pid : Int) (sig : Fin 32) (q : Fin NPROC) :
    ((kkill k pid sig).1.proc q).killed = (k.proc q).killed ∧
      ((k.proc q).state ≠ .sleeping → ((kkill k pid sig).1.proc q).state ≠ .sleeping) := by
  unfold kkill
  split
  · rename_i i hi
    by_cases hq : q = i
    · rw [hq, Kernel.setProc_same]
      exact ⟨rfl, fun _ => Proc.post_not_sleeping _ sig⟩
    · rw [Kernel.setProc_of_ne _ hq]
      exact ⟨rfl, id⟩
  · exact ⟨rfl, id⟩

theorem wakeInv_step {s : PipeState} (h : WakeInv s) (e : PipeEvent) : WakeInv (pipeStep s e) := by
  cases e with
  | pipewrite p n | piperead p n | pipeclose p w =>
    simp only [pipeStep]
    split_ifs with hr
    · exact h.quiet rfl rfl rfl (inside_begin (by simp [hr.2]) _) (fun _ _ _ => ⟨rfl, id⟩)
        fun _ => ⟨id, id⟩
    · exact h
  | acquire p =>
    simp only [pipeStep]
    split
    · rename_i c hp
      split_ifs with ha
      · have hfree := h.nobodyStranded ha.2.1
        refine ⟨?_, fun q c' hq => ?_, fun q hq => .inl ((hfree q).1 hq), fun q hq => .inl ((hfree q).2 hq)⟩
        · simpa only [pipeStep, hp, if_pos ha] using lockHeld_step h.held (.acquire p)
        · by_cases hqp : q = p
          · rw [hqp]
            simp [PipeState.setPhase, ha.1]
          · simp only [PipeState.setPhase, Function.update_of_ne hqp] at hq
            exact h.awake q c' hq
      · exact h
    · exact h
  | pass p byte =>
    simp only [pipeStep]
    split
    · rename_i c hp
      split_ifs
      · exact h.pass hp byte
      · exact h
    · exact h
  | kill p pid sig =>
    simp only [pipeStep]
    split_ifs
    · exact h.quiet rfl rfl rfl (fun _ _ => Iff.rfl) (fun q _ _ => kkill_kept _ pid sig q)
        fun _ => ⟨sleepsOn_of_kkill, sleepsOn_of_kkill⟩
    · exact h
  | dispatch p =>
    simp only [pipeStep]
    split_ifs
    · split
      · rename_i c hp
        exact h.setProc (by simp [PipeState.Elsewhere, Proc.SleepsOn]) (by simp [hp]) (by simp [hp])
          rfl rfl rfl (inside_begin (by simp [hp]) c) rfl
      · exact h.setState (by simp)
    · exact h
  | preempt p =>
    simp only [pipeStep]
    split_ifs
    · exact h.setState (by simp)
    · exact h
  | other p x =>
    simp only [pipeStep]
    split_ifs with ho
    · exact h.setProc ho.2 (by simp [ho.1]) (by simp [ho.1]) rfl rfl rfl (fun _ _ => Iff.rfl) rfl
    · exact h

/-- The pipe's two channels are in a page that was free, so nobody sleeps on them at first. -/
theorem pipe_sleepers_served {kernel : Kernel} {addr : Nat}
    (hfresh : ∀ q, (pipeNew kernel addr).Elsewhere (kernel.proc q)) (events : List PipeEvent) :
    Always pipeStep NobodyStranded (pipeNew kernel addr) events := by
  refine always_of_inv (fun _ e h => wakeInv_step h e) (fun _ h => h.nobodyStranded) ?_ events
  exact ⟨fun p => by simp [pipeNew], by simp [pipeNew], fun q hq => absurd hq (hfresh q).1,
    fun q hq => absurd hq (hfresh q).2⟩

theorem pipe_sleepers_served_write :
    Always pipeStep NobodyStranded (pipeNew semBoot.kernel 0x87000000)
      [.piperead 0 1, .acquire 0, .pass 0 none, .pipewrite 1 2, .acquire 1, .pass 1 (some 7),
        .pass 1 (some 8), .pass 1 none, .dispatch 0, .acquire 0, .pass 0 none, .pass 0 (some 7)] := by
  refine pipe_sleepers_served (fun q => ?_) _
  by_cases h : q.val < 3 <;>
    simp [PipeState.Elsewhere, Proc.SleepsOn, semBoot, h]

end OsProject.Pipes
