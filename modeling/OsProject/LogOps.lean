import Mathlib.Data.Fintype.Card
import OsProject.Log
import OsProject.Runs

/-! The calls of `begin_op`, `log_write` and `end_op` by any number of processes. Each critical
section under `log.lock` is one step, and so is each block that `commit` copies without it. -/

namespace OsProject

/-- Where a process is: outside, in the loop of `begin_op` (asleep on `&log` or woken up), in an
operation, or in the commit that its `end_op` has to make. -/
inductive OpPhase
  | idle | asleep | woken | active
  | writingLog (tail : Nat) | installing (tail : Nat) | committed
  deriving DecidableEq, Repr

def OpPhase.Commits : OpPhase → Prop
  | .writingLog _ | .installing _ | .committed => True
  | _ => False

inductive LogPanic
  | tooBig | outsideTrans | committing
  deriving DecidableEq, Repr

/-- A finished commit: the blocks logged by each operation that called `end_op` since the commit
before it, the blocks it copied to the log, and the blocks it installed. -/
structure CommitRecord where
  ops : List (List Nat)
  toLog : List Nat
  home : List Nat
  deriving DecidableEq, Repr

/-- `outstanding`, `committing` and `lh` are the fields of `struct log`. The fields after `panic`
record what was done: the blocks logged by each running operation, those logged by the operations
that have ended since the last commit, what the running commit has written, and the commits. -/
structure LogSys (ι : Type) where
  outstanding : Int := 0
  committing : Bool := false
  lh : List Nat := []
  phase : ι → OpPhase := fun _ => .idle
  panic : Option LogPanic := none
  logged : ι → List Nat := fun _ => []
  ended : List (List Nat) := []
  toLog : List Nat := []
  home : List Nat := []
  commits : List CommitRecord := []

inductive LogEvent (ι : Type)
  | beginOp (i : ι)
  | logWrite (i : ι) (b : Nat)
  | endOp (i : ι)
  | commit (i : ι)
  | wake (i : ι)
  deriving Repr

variable {ι : Type} [DecidableEq ι]

namespace LogSys

def setPhase (s : LogSys ι) (i : ι) (x : OpPhase) : LogSys ι :=
  { s with phase := Function.update s.phase i x }

@[simp] theorem setPhase_phase (s : LogSys ι) (i : ι) (x : OpPhase) :
    (s.setPhase i x).phase = Function.update s.phase i x := rfl

/-- `wakeup(&log)`. -/
def wakeup (s : LogSys ι) : LogSys ι :=
  { s with phase := fun i => if s.phase i = .asleep then .woken else s.phase i }

/-- One pass of the loop of `begin_op`. -/
def beginOp (s : LogSys ι) (i : ι) : LogSys ι :=
  if s.committing then s.setPhase i .asleep
  else if s.lh.length + (s.outstanding + 1) * MAXOPBLOCKS > LOGBLOCKS then s.setPhase i .asleep
  else { s.setPhase i .active with outstanding := s.outstanding + 1 }

/-- `log.lh.block[0..n)` after `log_write` has looked for block `b` in it. -/
def absorb (lh : List Nat) (b : Nat) : List Nat := if b ∈ lh then lh else lh ++ [b]

def logWrite (s : LogSys ι) (i : ι) (b : Nat) : LogSys ι :=
  if s.lh.length ≥ LOGBLOCKS then { s with panic := some .tooBig }
  else if s.outstanding < 1 then { s with panic := some .outsideTrans }
  else
    { s with
      lh := absorb s.lh b
      logged := Function.update s.logged i (s.logged i ++ [b]) }

/-- The first critical section of `end_op`. -/
def endOp (s : LogSys ι) (i : ι) : LogSys ι :=
  let s :=
    { s with
      outstanding := s.outstanding - 1
      logged := Function.update s.logged i []
      ended := s.ended ++ [s.logged i] }
  if s.committing then { s with panic := some .committing }
  else if s.outstanding = 0 then
    { s.setPhase i (.writingLog 0) with committing := true, toLog := [], home := [] }
  else (s.setPhase i .idle).wakeup

/-- The end of `commit`: the transaction is erased from the log. -/
def erase (s : LogSys ι) (i : ι) : LogSys ι :=
  { s.setPhase i .committed with
    lh := []
    ended := []
    commits := s.commits ++ [⟨s.ended, s.toLog, s.home⟩] }

/-- The next step of the process that commits: a block of `write_log`, the header, a block of
`install_trans`, the empty header, and at last the second critical section of `end_op`. -/
def commitStep (s : LogSys ι) (i : ι) : LogSys ι :=
  match s.phase i with
  | .writingLog tail =>
    match s.lh[tail]? with
    | some b => { s.setPhase i (.writingLog (tail + 1)) with toLog := s.toLog ++ [b] }
    | none => if s.lh.length = 0 then s.erase i else s.setPhase i (.installing 0)
  | .installing tail =>
    match s.lh[tail]? with
    | some b => { s.setPhase i (.installing (tail + 1)) with home := s.home ++ [b] }
    | none => s.erase i
  | .committed => { (s.setPhase i .idle).wakeup with committing := false }
  | _ => s

theorem mem_absorb {lh : List Nat} {b b' : Nat} : b' ∈ absorb lh b ↔ b' ∈ lh ∨ b' = b := by
  by_cases hb : b ∈ lh
  · simp only [absorb, hb, if_true]
    exact ⟨.inl, fun h => h.elim id fun he => he ▸ hb⟩
  · simp [absorb, hb]

theorem nodup_absorb {lh : List Nat} (h : lh.Nodup) (b : Nat) : (absorb lh b).Nodup := by
  by_cases hb : b ∈ lh
  · simpa [absorb, hb] using h
  · simpa [absorb, hb, List.nodup_append] using ⟨h, fun x hx he => hb (he ▸ hx)⟩

end LogSys

/-- A panic stops the system, and an event that is not possible in `s` changes nothing. -/
def logStep (s : LogSys ι) (e : LogEvent ι) : LogSys ι :=
  if s.panic ≠ none then s
  else
    match e with
    | .beginOp i => if s.phase i = .idle ∨ s.phase i = .woken then s.beginOp i else s
    | .logWrite i b => if s.phase i = .active then s.logWrite i b else s
    | .endOp i => if s.phase i = .active then s.endOp i else s
    | .commit i => s.commitStep i
    | .wake i => if s.phase i = .asleep then s.setPhase i .woken else s

end OsProject
