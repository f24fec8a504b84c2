import OsProject.Pipe
import OsProject.Runs

/-! A pipe is a lossless queue. What has come out and what is in the buffer make up what has gone
in, whatever the order of the steps and however often the two counters wrap. -/

namespace OsProject.Pipes

/-- The reader has seen a prefix of what was written, and the buffer holds the remainder. -/
def Fifo (s : PipeState) : Prop :=
  s.taken ++ s.pipe.buffered = s.written ∧ (s.pipe.nwrite - s.pipe.nread).toNat ≤ PIPESIZE

def ZeroAtEnd (s : PipeState) (e : PipeEvent) : Prop :=
  ∀ n, 0 < n → readReturns s e = some (n, 0) → s.pipe.Empty ∧ s.pipe.writeopen = false

section Ring

variable {pi : Pipe}

theorem Pipe.full_iff : pi.Full ↔ (pi.nwrite - pi.nread).toNat = PIPESIZE := by
  have hiff : pi.Full ↔ pi.nwrite - pi.nread = UInt32.ofNat PIPESIZE := by
    rw [Pipe.Full]
    constructor <;> grind
  rw [hiff, ← UInt32.toNat_inj]
  rfl

theorem Pipe.empty_iff : pi.Empty ↔ (pi.nwrite - pi.nread).toNat = 0 := by
  have hiff : pi.Empty ↔ pi.nwrite - pi.nread = 0 := by
    rw [Pipe.Empty]
    constructor <;> grind
  rw [hiff, ← UInt32.toNat_inj]
  rfl

theorem Pipe.put_length (h : (pi.nwrite - pi.nread).toNat < PIPESIZE) (ch : UInt8) :
    ((pi.put ch).nwrite - (pi.put ch).nread).toNat = (pi.nwrite - pi.nread).toNat + 1 := by
  have he : (pi.put ch).nwrite - (pi.put ch).nread = (pi.nwrite - pi.nread) + 1 := by
    simp only [Pipe.put]
    grind
  have hsize : PIPESIZE = 512 := rfl
  rw [he, UInt32.toNat_add]
  simp only [UInt32.toNat_one]
  omega

theorem Pipe.drop_length (h : 0 < (pi.nwrite - pi.nread).toNat) :
    (pi.drop.nwrite - pi.drop.nread).toNat + 1 = (pi.nwrite - pi.nread).toNat := by
  have he : pi.nwrite - pi.nread = (pi.drop.nwrite - pi.drop.nread) + 1 := by
    simp only [Pipe.drop]
    grind
  have hlt := (pi.drop.nwrite - pi.drop.nread).toNat_lt
  rw [he, UInt32.toNat_add] at h ⊢
  simp only [UInt32.toNat_one] at h ⊢
  omega

theorem Pipe.nwrite_index :
    (pi.nread.toNat + (pi.nwrite - pi.nread).toNat) % PIPESIZE = pi.nwrite.toNat % PIPESIZE := by
  have hlt := pi.nread.toNat_lt
  have hlt' := pi.nwrite.toNat_lt
  rw [UInt32.toNat_sub]
  unfold PIPESIZE
  omega

theorem Pipe.buffered_put (h : (pi.nwrite - pi.nread).toNat < PIPESIZE) (ch : UInt8) :
    (pi.put ch).buffered = pi.buffered ++ [ch] := by
  rw [Pipe.buffered, Pipe.put_length h, List.range_succ, List.map_append, List.map_singleton]
  congr 1
  · refine List.map_congr_left fun j hj => ?_
    have hj' := List.mem_range.mp hj
    have hne : (pi.nread.toNat + j) % PIPESIZE ≠ pi.nwrite.toNat % PIPESIZE := by
      rw [← Pipe.nwrite_index]
      unfold PIPESIZE at h ⊢
      omega
    exact Function.update_of_ne hne _ _
  · have hnext := pi.nwrite_index
    simp [Pipe.put, hnext]

theorem Pipe.buffered_drop (h : 0 < (pi.nwrite - pi.nread).toNat) :
    pi.buffered = pi.front :: pi.drop.buffered := by
  rw [Pipe.buffered, ← Pipe.drop_length h, List.range_succ_eq_map, List.map_cons, List.map_map]
  congr 1
  refine List.map_congr_left fun j _ => ?_
  have hlt := pi.nread.toNat_lt
  have hplace : (pi.nread.toNat + (j + 1)) % PIPESIZE = (pi.drop.nread.toNat + j) % PIPESIZE := by
    simp only [Pipe.drop, UInt32.toNat_add, UInt32.toNat_one]
    unfold PIPESIZE
    omega
  simp only [Function.comp, Nat.succ_eq_add_one, hplace]
  rfl

end Ring

theorem Fifo.congr {s t : PipeState} (h : Fifo s) (hdata : t.pipe.data = s.pipe.data)
    (hread : t.pipe.nread = s.pipe.nread) (hwrite : t.pipe.nwrite = s.pipe.nwrite)
    (hin : t.written = s.written) (hout : t.taken = s.taken) : Fifo t := by
  unfold Fifo Pipe.buffered at h ⊢
  rw [hdata, hread, hwrite, hin, hout]
  exact h

theorem Fifo.put {s : PipeState} (h : Fifo s) (hfull : ¬ s.pipe.Full) {t : PipeState} {ch : UInt8}
    (hpipe : t.pipe = s.pipe.put ch) (hin : t.written = s.written ++ [ch])
    (hout : t.taken = s.taken) : Fifo t := by
  have hlt : (s.pipe.nwrite - s.pipe.nread).toNat < PIPESIZE := by
    have hne := mt Pipe.full_iff.mpr hfull
    have hle := h.2
    omega
  refine ⟨?_, ?_⟩
  · rw [hout, hpipe, Pipe.buffered_put hlt, ← List.append_assoc, h.1, hin]
  · rw [hpipe, Pipe.put_length hlt]
    omega

theorem Fifo.drop {s : PipeState} (h : Fifo s) (hempty : ¬ s.pipe.Empty) {t : PipeState}
    (hpipe : t.pipe = s.pipe.drop) (hin : t.written = s.written)
    (hout : t.taken = s.taken ++ [s.pipe.front]) : Fifo t := by
  have hpos : 0 < (s.pipe.nwrite - s.pipe.nread).toNat :=
    Nat.pos_of_ne_zero (mt Pipe.empty_iff.mpr hempty)
  refine ⟨?_, ?_⟩
  · rw [hout, hpipe, List.append_assoc, List.singleton_append, ← Pipe.buffered_drop hpos, h.1, hin]
  · have hlen := Pipe.drop_length hpos
    have hle := h.2
    rw [hpipe]
    omega

theorem fifo_pass {s : PipeState} (h : Fifo s) (p : Fin NPROC) (byte : Option UInt8)
    (c : PipeCode) : Fifo (s.pass p byte c).1 := by
  cases c with
  | write n i =>
    simp only [PipeState.pass]
    split_ifs with hi hstop hfull
    · exact h.congr rfl rfl rfl rfl rfl
    · exact h.congr rfl rfl rfl rfl rfl
    · cases byte with
      | none => exact h.congr rfl rfl rfl rfl rfl
      | some ch => exact h.put hfull rfl rfl rfl
    · exact h.congr rfl rfl rfl rfl rfl
  | await n =>
    simp only [PipeState.pass]
    split_ifs <;> exact h.congr rfl rfl rfl rfl rfl
  | copy n i =>
    cases byte with
    | none =>
      simp only [PipeState.pass]
      split_ifs <;> exact h.congr rfl rfl rfl rfl rfl
    | some ch =>
      simp only [PipeState.pass]
      split_ifs with hi hempty
      · exact h.congr rfl rfl rfl rfl rfl
      · exact h.drop hempty rfl rfl rfl
      · exact h.congr rfl rfl rfl rfl rfl
  | close writable =>
    cases writable <;> exact h.congr rfl rfl rfl rfl rfl

theorem fifo_step {s : PipeState} (h : Fifo s) (e : PipeEvent) : Fifo (pipeStep s e) := by
  cases e with
  | pass p byte =>
    simp only [pipeStep]
    split
    · split_ifs
      · exact fifo_pass h p byte _
      · exact h
    · exact h
  | acquire p =>
    simp only [pipeStep]
    split
    · split_ifs
      · exact h.congr rfl rfl rfl rfl rfl
      · exact h
    · exact h
  | dispatch p =>
    simp only [pipeStep]
    split_ifs
    · split <;> exact h.congr rfl rfl rfl rfl rfl
    · exact h
  | pipewrite p n | piperead p n | pipeclose p w | kill p pid sig | preempt p | other p x =>
    simp only [pipeStep]
    split_ifs
    · exact h.congr rfl rfl rfl rfl rfl
    · exact h

/-- A reader in the second loop that has read nothing yet found something to read, or nobody who
writes. The second loop is never left and entered again. -/
structure ReadReady (s : PipeState) : Prop where
  start : ∀ p n, s.phase p = .inside (.copy n 0) → ¬ s.pipe.Empty ∨ s.pipe.writeopen = false
  paused : ∀ p n i, s.phase p ≠ .locking (.copy n i) ∧ s.phase p ≠ .asleep (.copy n i)

theorem pass_start {s : PipeState} {p : Fin NPROC} {c : PipeCode} {byte : Option UInt8} {n : Int}
    (h : (s.pass p byte c).1.phase p = .inside (.copy n 0)) :
    ¬ (s.pass p byte c).1.pipe.Empty ∨ (s.pass p byte c).1.pipe.writeopen = false := by
  cases c with
  | write n' i =>
    simp only [PipeState.pass] at h
    cases byte with
    | none => split_ifs at h <;> simp [PipeState.leave, PipeState.sleep, PipeState.setPhase] at h
    | some ch => split_ifs at h <;> simp [PipeState.leave, PipeState.sleep, PipeState.setPhase] at h
  | await n' =>
    simp only [PipeState.pass] at h ⊢
    split_ifs at h ⊢ with hwait
    · simp [PipeState.leave, PipeState.setPhase] at h
    · simp [PipeState.sleep, PipeState.setPhase] at h
    · rcases not_and_or.mp hwait with hempty | hopen
      · exact .inl hempty
      · exact .inr (Bool.eq_false_of_not_eq_true hopen)
  | copy n' i =>
    cases byte with
    | none =>
      simp only [PipeState.pass] at h
      split_ifs at h <;> simp [PipeState.leave, PipeState.setPhase] at h
    | some ch =>
      simp only [PipeState.pass] at h
      split_ifs at h <;> simp [PipeState.leave, PipeState.setPhase] at h
  | close writable =>
    cases writable <;> simp [PipeState.pass, PipeState.leave, PipeState.setPhase] at h

theorem ReadReady.pass {s : PipeState} {p : Fin NPROC} {c : PipeCode} (hlock : LockHeld s)
    (h : ReadReady s) (hp : s.phase p = .inside c) (byte : Option UInt8) :
    ReadReady (s.pass p byte c).1 := by
  have hto := pass_to s p byte c
  refine ⟨fun q n hq => ?_, fun q n i => ?_⟩
  · -- Only the process that made the pass is inside.
    have hq' := (hlock.pass hp hto q).mpr ⟨_, hq⟩
    by_cases hqp : q = p
    · rw [hqp] at hq
      exact pass_start hq
    · cases hto with
      | stay c' _ hkeep =>
        rw [hkeep, (hlock p).mpr ⟨c, hp⟩, Option.some.injEq] at hq'
        exact absurd hq'.symm hqp
      | out _ hfree => simp [hfree] at hq'
      | asleep c' _ _ hfree => simp [hfree] at hq'
  · by_cases hqp : q = p
    · cases hto with
      | stay c' hphase _ => simp [hphase, hqp]
      | out hphase _ => simp [hphase, hqp]
      | asleep c' hc hphase _ => simp [hphase, hqp, hc]
    · cases hto with
      | stay c' hphase _ | out hphase _ | asleep c' _ hphase _ =>
        rw [hphase, Function.update_of_ne hqp]
        exact h.paused q n i

theorem ReadReady.begin {s : PipeState} {p : Fin NPROC} {c : PipeCode} (h : ReadReady s)
    (hp : ∀ c', s.phase p ≠ .inside c') (hc : ∀ n i, c ≠ .copy n i) {t : PipeState}
    (hphase : t.phase = (s.begin p c).phase) (hpipe : t.pipe = s.pipe) : ReadReady t := by
  refine ⟨fun q n hq => ?_, fun q n i => ?_⟩
  · rw [hphase, inside_begin hp] at hq
    rw [hpipe]
    exact h.start q n hq
  · rw [hphase]
    by_cases hqp : q = p
    · simp [PipeState.begin, PipeState.setPhase, hqp, hc]
    · simpa [PipeState.begin, PipeState.setPhase, hqp] using h.paused q n i

theorem readReady_step {s : PipeState} (hlock : LockHeld s) (h : ReadReady s) (e : PipeEvent) :
    ReadReady (pipeStep s e) := by
  cases e with
  | pass p byte =>
    simp only [pipeStep]
    split
    · rename_i c hp
      split_ifs
      · exact h.pass hlock hp byte
      · exact h
    · exact h
  | pipewrite p n | piperead p n | pipeclose p w =>
    simp only [pipeStep]
    split_ifs with hr
    · exact h.begin (by simp [hr.2]) (by simp) rfl rfl
    · exact h
  | acquire p =>
    simp only [pipeStep]
    split
    · rename_i c hp
      split_ifs
      · refine ⟨fun q n hq => ?_, fun q n i => ?_⟩
        · by_cases hqp : q = p
          · subst hqp
            simp only [PipeState.setPhase, Function.update_self, PipePhase.inside.injEq] at hq
            rw [hq] at hp
            exact absurd hp (h.paused q n 0).1
          · simp only [PipeState.setPhase, Function.update_of_ne hqp] at hq
            exact h.start q n hq
        · by_cases hqp : q = p
          · simp [PipeState.setPhase, hqp]
          · simpa [PipeState.setPhase, hqp] using h.paused q n i
      · exact h
    · exact h
  | dispatch p =>
    simp only [pipeStep]
    split_ifs
    · split
      · rename_i c hp
        refine h.begin (by simp [hp]) (fun n i hc => ?_) rfl rfl
        rw [hc] at hp
        exact (h.paused p n i).2 hp
      · exact ⟨h.start, h.paused⟩
    · exact h
  | kill p pid sig | preempt p | other p x =>
    simp only [pipeStep]
    split_ifs
    · exact ⟨h.start, h.paused⟩
    · exact h

theorem zeroAtEnd_of_ready {s : PipeState} (h : ReadReady s) (e : PipeEvent) : ZeroAtEnd s e := by
  intro n hn hr
  cases e with
  | pass p byte =>
    simp only [readReturns] at hr
    split at hr
    · simp only [PipeState.pass] at hr
      split_ifs at hr <;> simp at hr
    · rename_i n' i hp
      cases byte with
      | none =>
        simp only [PipeState.pass] at hr
        split_ifs at hr with hrun hi hempty hzero
        all_goals simp only [Option.map_some, Option.some.injEq, Prod.mk.injEq] at hr
        · obtain ⟨rfl, hz⟩ := hr
          have hz' : i = 0 := by omega
          subst hz'
          exact ⟨hempty, (h.start p n' hp).resolve_left (not_not.mpr hempty)⟩
        · omega
        · omega
        · omega
      | some ch =>
        simp only [PipeState.pass] at hr
        split_ifs at hr with hrun hi hempty
        all_goals simp only [Option.map_some, Option.map_none, Option.some.injEq,
          Prod.mk.injEq, reduceCtorEq] at hr
        · obtain ⟨rfl, hz⟩ := hr
          have hz' : i = 0 := by omega
          subst hz'
          exact ⟨hempty, (h.start p n' hp).resolve_left (not_not.mpr hempty)⟩
        · omega
    · cases hr
  | pipewrite p n | piperead p n | pipeclose p w | acquire p | kill p pid sig | dispatch p
  | preempt p | other p x => cases hr

/-- A pipe as `pipealloc` leaves it, with nobody in its code. -/
def pipeNew (kernel : Kernel) (addr : Nat) : PipeState := { kernel, addr }

theorem pipe_lossless (kernel : Kernel) (addr : Nat) (events : List PipeEvent) :
    Always pipeStep Fifo (pipeNew kernel addr) events ∧
      Meets pipeStep ZeroAtEnd (pipeNew kernel addr) events := by
  have hfifo : Fifo (pipeNew kernel addr) := ⟨by simp [pipeNew, Pipe.buffered], by simp [pipeNew]⟩
  have hlock : LockHeld (pipeNew kernel addr) := by
    intro p
    simp [pipeNew]
  have hready : ReadReady (pipeNew kernel addr) := by
    constructor <;> simp [pipeNew]
  refine ⟨always_of_inv (I := Fifo) (fun _ e h => fifo_step h e) (fun _ h => h) hfifo events, ?_⟩
  exact meets_of_inv (I := fun s => LockHeld s ∧ ReadReady s) (A := fun _ _ => True)
    (fun s e h _ => ⟨lockHeld_step h.1 e, readReady_step h.1 h.2 e⟩)
    (fun s e h _ => zeroAtEnd_of_ready h.2 e) ⟨hlock, hready⟩ (meets_true _ events)

end OsProject.Pipes
