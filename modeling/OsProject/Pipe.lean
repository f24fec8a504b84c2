import OsProject.Semaphore

/-! The pipes of `pipe.c`. Every process is at some place of `pipewrite`, `piperead` or
`pipeclose`, or outside; one pass of a loop with the lock held is one step, and the steps of the
processes come in any order. -/

namespace OsProject.Pipes

def PIPESIZE : Nat := 512

structure Pipe where
  data : Buffer := fun _ => 5
  nread : UInt32 := 0
  nwrite : UInt32 := 0
  readopen : Bool := true
  writeopen : Bool := true

def Pipe.Empty (pi : Pipe) : Prop := pi.nread = pi.nwrite

instance (pi : Pipe) : Decidable pi.Empty := inferInstanceAs (Decidable (pi.nread = pi.nwrite))

def Pipe.Full (pi : Pipe) : Prop := pi.nwrite = pi.nread + UInt32.ofNat PIPESIZE

instance (pi : Pipe) : Decidable pi.Full :=
  inferInstanceAs (Decidable (pi.nwrite = pi.nread + UInt32.ofNat PIPESIZE))

def Pipe.put (pi : Pipe) (ch : UInt8) : Pipe :=
  { pi with
    data := Function.update pi.data (pi.nwrite.toNat % PIPESIZE) ch
    nwrite := pi.nwrite + 1 }

def Pipe.front (pi : Pipe) : UInt8 := pi.data (pi.nread.toNat % PIPESIZE)

def Pipe.drop (pi : Pipe) : Pipe := { pi with nread := pi.nread + 1 }

/-- The bytes between `nread` and `nwrite`. -/
def Pipe.buffered (pi : Pipe) : List UInt8 :=
  (List.range (pi.nwrite - pi.nread).toNat).map fun j => pi.data ((pi.nread.toNat + j) % PIPESIZE)

/-- Where a process goes on when it has the lock: the loop of `pipewrite` with `i` bytes written,
the first loop of `piperead`, its second loop with `i` bytes read, or `pipeclose`. -/
inductive PipeCode
  | write (n : Int) (i : Nat)
  | await (n : Int)
  | copy (n : Int) (i : Nat)
  | close (writable : Bool)
  deriving DecidableEq, Repr

inductive PipePhase
  | out
  | locking (c : PipeCode)
  | inside (c : PipeCode)
  | asleep (c : PipeCode)
  deriving DecidableEq, Repr

/-- `addr` is the address of the page. The bytes that went into the pipe and those that came out
are recorded in `written` and `taken`. -/
structure PipeState where
  kernel : Kernel
  addr : Nat
  pipe : Pipe := {}
  lock : Option (Fin NPROC) := none
  freed : Bool := false
  phase : Fin NPROC → PipePhase := fun _ => .out
  written : List UInt8 := []
  taken : List UInt8 := []

/-- The address of `pi->nread`, behind the lock and the data. -/
def PipeState.nreadAddr (s : PipeState) : Nat := s.addr + 24 + PIPESIZE

def PipeState.nwriteAddr (s : PipeState) : Nat := s.addr + 24 + PIPESIZE + 4

/-- A call begins, takes the lock, or makes one pass with it; `byte` is what the user copy of that
pass gives or takes, or nothing if it fails. The rest is `kkill`, the scheduler, and anything a
process does to itself outside the pipe. -/
inductive PipeEvent
  | pipewrite (p : Fin NPROC) (n : Int)
  | piperead (p : Fin NPROC) (n : Int)
  | pipeclose (p : Fin NPROC) (writable : Bool)
  | acquire (p : Fin NPROC)
  | pass (p : Fin NPROC) (byte : Option UInt8)
  | kill (p : Fin NPROC) (pid : Int) (sig : Fin 32)
  | dispatch (p : Fin NPROC)
  | preempt (p : Fin NPROC)
  | other (p : Fin NPROC) (x : Proc)

namespace PipeState

variable (s : PipeState) (p : Fin NPROC)

def setPhase (x : PipePhase) : PipeState := { s with phase := Function.update s.phase p x }

def setState (x : ProcState) : PipeState :=
  { s with kernel := s.kernel.setProc p { s.kernel.proc p with state := x } }

def wake (chan : Nat) : PipeState := { s with kernel := wakeup s.kernel p chan }

/-- `release(&pi->lock)` and the return from the call. -/
def leave : PipeState := { s.setPhase p .out with lock := none }

/-- `sleep(chan, &pi->lock)`, after which the process goes on at `c`. -/
def sleep (chan : Nat) (c : PipeCode) : PipeState :=
  { s.setPhase p (.asleep c) with
    kernel := s.kernel.setProc p { s.kernel.proc p with chan := chan, state := .sleeping }
    lock := none }

def begin (c : PipeCode) : PipeState := s.setPhase p (.locking c)

/-- One pass with the lock held, and the return value if it is the last one of a call that has
one. -/
def pass (byte : Option UInt8) : PipeCode → PipeState × Option Int
  | .write n i =>
    if i < n then
      if s.pipe.readopen = false ∨ (s.kernel.proc p).killed ≠ 0 then (s.leave p, some (-1))
      else if s.pipe.Full then
        ((s.wake p s.nreadAddr).sleep p s.nwriteAddr (.write n i), none)
      else
        match byte with
        | none => ((s.wake p s.nreadAddr).leave p, some i)
        | some ch =>
          ({ s.setPhase p (.inside (.write n (i + 1))) with
              pipe := s.pipe.put ch
              written := s.written ++ [ch] }, none)
    else ((s.wake p s.nreadAddr).leave p, some i)
  | .await n =>
    if s.pipe.Empty ∧ s.pipe.writeopen = true then
      if (s.kernel.proc p).killed ≠ 0 then (s.leave p, some (-1))
      else (s.sleep p s.nreadAddr (.await n), none)
    else (s.setPhase p (.inside (.copy n 0)), none)
  | .copy n i =>
    if i < n then
      if s.pipe.Empty then ((s.wake p s.nwriteAddr).leave p, some i)
      else
        match byte with
        | none => ((s.wake p s.nwriteAddr).leave p, some (if i = 0 then -1 else i))
        | some _ =>
          ({ s.setPhase p (.inside (.copy n (i + 1))) with
              pipe := s.pipe.drop
              taken := s.taken ++ [s.pipe.front] }, none)
    else ((s.wake p s.nwriteAddr).leave p, some i)
  | .close writable =>
    let s := if writable then { s.wake p s.nreadAddr with pipe := { s.pipe with writeopen := false } }
      else { s.wake p s.nwriteAddr with pipe := { s.pipe with readopen := false } }
    ({ s.leave p with freed := s.pipe.readopen = false ∧ s.pipe.writeopen = false }, none)

def Runs : Prop := (s.kernel.proc p).state = .running ∧ s.phase p = .out

instance : Decidable (s.Runs p) :=
  inferInstanceAs (Decidable ((s.kernel.proc p).state = .running ∧ s.phase p = .out))

end PipeState

def PipeState.Elsewhere (s : PipeState) (x : Proc) : Prop :=
  ¬ x.SleepsOn s.nreadAddr ∧ ¬ x.SleepsOn s.nwriteAddr

instance (s : PipeState) (x : Proc) : Decidable (s.Elsewhere x) :=
  inferInstanceAs (Decidable (¬ x.SleepsOn s.nreadAddr ∧ ¬ x.SleepsOn s.nwriteAddr))

/-- An event that is not possible in `s` changes nothing. Nobody uses a pipe that is freed. A
sleeper that gets the CPU clears its channel and takes the lock again. -/
def pipeStep (s : PipeState) : PipeEvent → PipeState
  | .pipewrite p n => if s.Runs p then s.begin p (.write n 0) else s
  | .piperead p n => if s.Runs p then s.begin p (.await n) else s
  | .pipeclose p writable => if s.Runs p then s.begin p (.close writable) else s
  | .acquire p =>
    match s.phase p with
    | .locking c =>
      if (s.kernel.proc p).state = .running ∧ s.lock = none ∧ s.freed = false then
        { s.setPhase p (.inside c) with lock := some p }
      else s
    | _ => s
  | .pass p byte =>
    match s.phase p with
    | .inside c => if (s.kernel.proc p).state = .running then (s.pass p byte c).1 else s
    | _ => s
  | .kill p pid sig => if s.Runs p then { s with kernel := (kkill s.kernel pid sig).1 } else s
  | .dispatch p =>
    if (s.kernel.proc p).state = .runnable then
      match s.phase p with
      | .asleep c =>
        { s.begin p c with
          kernel := s.kernel.setProc p { s.kernel.proc p with state := .running, chan := 0 } }
      | _ => s.setState p .running
    else s
  | .preempt p => if (s.kernel.proc p).state = .running then s.setState p .runnable else s
  | .other p x =>
    if s.phase p = .out ∧ s.Elsewhere x then { s with kernel := s.kernel.setProc p x } else s

def LockHeld (s : PipeState) : Prop := ∀ p, s.lock = some p ↔ ∃ c, s.phase p = .inside c

/-- What a pass does to the lock: the process goes on inside, or it is outside or asleep and the
lock is free. -/
inductive PassTo (s t : PipeState) (p : Fin NPROC) : Prop
  | stay (c : PipeCode) (hphase : t.phase = Function.update s.phase p (.inside c))
      (hlock : t.lock = s.lock)
  | out (hphase : t.phase = Function.update s.phase p .out) (hlock : t.lock = none)
  | asleep (c : PipeCode) (hc : ∀ n i, c ≠ .copy n i)
      (hphase : t.phase = Function.update s.phase p (.asleep c)) (hlock : t.lock = none)

theorem pass_to (s : PipeState) (p : Fin NPROC) (byte : Option UInt8) (c : PipeCode) :
    PassTo s (s.pass p byte c).1 p := by
  cases c with
  | write n i =>
    simp only [PipeState.pass]
    cases byte with
    | none =>
      split_ifs
      · exact .out rfl rfl
      · exact .asleep _ (by simp) rfl rfl
      · exact .out rfl rfl
      · exact .out rfl rfl
    | some ch =>
      split_ifs
      · exact .out rfl rfl
      · exact .asleep _ (by simp) rfl rfl
      · exact .stay _ rfl rfl
      · exact .out rfl rfl
  | await n =>
    simp only [PipeState.pass]
    split_ifs
    · exact .out rfl rfl
    · exact .asleep _ (by simp) rfl rfl
    · exact .stay _ rfl rfl
  | copy n i =>
    cases byte with
    | none =>
      simp only [PipeState.pass]
      split_ifs <;> exact .out rfl rfl
    | some ch =>
      simp only [PipeState.pass]
      split_ifs
      · exact .out rfl rfl
      · exact .stay _ rfl rfl
      · exact .out rfl rfl
  | close writable => cases writable <;> exact .out rfl rfl

theorem LockHeld.pass {s t : PipeState} {p : Fin NPROC} {c : PipeCode} (h : LockHeld s)
    (hp : s.phase p = .inside c) (ht : PassTo s t p) : LockHeld t := by
  have hlock : s.lock = some p := (h p).mpr ⟨c, hp⟩
  have hother : ∀ q, q ≠ p → ∀ c', s.phase q ≠ .inside c' := by
    intro q hq c' hc
    have hq' := (h q).mpr ⟨c', hc⟩
    rw [hlock, Option.some.injEq] at hq'
    exact hq hq'.symm
  -- Nobody else is inside, so only the new place of `p` counts.
  intro q
  cases ht with
  | stay c' hphase hkeep =>
    rw [hkeep, hphase, hlock, Option.some.injEq]
    by_cases hq : q = p
    · simp [hq]
    · simp [Function.update_of_ne hq, hother q hq, Ne.symm hq]
  | out hphase hfree =>
    rw [hfree, hphase]
    by_cases hq : q = p
    · simp [hq]
    · simp [Function.update_of_ne hq, hother q hq]
  | asleep c' _ hphase hfree =>
    rw [hfree, hphase]
    by_cases hq : q = p
    · simp [hq]
    · simp [Function.update_of_ne hq, hother q hq]

theorem LockHeld.congr {s t : PipeState} (h : LockHeld s) (hlock : t.lock = s.lock)
    (hphase : ∀ q c, t.phase q = .inside c ↔ s.phase q = .inside c) : LockHeld t := by
  intro q
  simp only [hlock, hphase]
  exact h q

theorem inside_begin {s : PipeState} {p : Fin NPROC} (h : ∀ c, s.phase p ≠ .inside c)
    (c : PipeCode) (q : Fin NPROC) (c' : PipeCode) :
    (s.begin p c).phase q = .inside c' ↔ s.phase q = .inside c' := by
  by_cases hq : q = p
  · subst hq
    simp [PipeState.begin, PipeState.setPhase, h]
  · simp [PipeState.begin, PipeState.setPhase, hq]

theorem lockHeld_step {s : PipeState} (h : LockHeld s) (e : PipeEvent) :
    LockHeld (pipeStep s e) := by
  cases e with
  | pipewrite p n | piperead p n | pipeclose p w =>
    simp only [pipeStep]
    split_ifs with hr
    · refine h.congr rfl fun q c => inside_begin (fun c' hc => ?_) _ q c
      rw [hr.2] at hc
      cases hc
    · exact h
  | acquire p =>
    simp only [pipeStep]
    split
    · rename_i c hp
      split_ifs with ha
      · intro q
        have hnone : ∀ c', s.phase q ≠ .inside c' := fun c' hc =>
          absurd ((h q).mpr ⟨c', hc⟩) (by simp [ha.2.1])
        by_cases hq : q = p
        · simp [hq, PipeState.setPhase]
        · simp [hq, PipeState.setPhase, hnone, Ne.symm hq]
      · exact h
    · exact h
  | pass p byte =>
    simp only [pipeStep]
    split
    · rename_i c hp
      split_ifs
      · exact h.pass hp (pass_to s p byte c)
      · exact h
    · exact h
  | dispatch p =>
    simp only [pipeStep]
    split_ifs
    · split
      · rename_i c hp
        refine h.congr rfl fun q c' => inside_begin (fun c'' hc => ?_) c q c'
        rw [hp] at hc
        cases hc
      · exact h.congr rfl fun _ _ => Iff.rfl
    · exact h
  | kill p pid sig | preempt p | other p x =>
    simp only [pipeStep]
    split_ifs
    · exact h.congr rfl fun _ _ => Iff.rfl
    · exact h

/-- The return value of the read of `n` bytes that ends in this step. -/
def readReturns (s : PipeState) : PipeEvent → Option (Int × Int)
  | .pass p byte =>
    match s.phase p with
    | .inside (.await n) =>
      if (s.kernel.proc p).state = .running then ((s.pass p byte (.await n)).2).map (n, ·) else none
    | .inside (.copy n i) =>
      if (s.kernel.proc p).state = .running then ((s.pass p byte (.copy n i)).2).map (n, ·)
      else none
    | _ => none
  | _ => none

end OsProject.Pipes
