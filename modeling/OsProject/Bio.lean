import OsProject.Hoare
import OsProject.Log

/-! The buffer cache of `bio.c`, and the log functions with the buffers that they take and give
back. A sleep-lock that is taken when it is already held is never given back here, since only
one process runs. -/

namespace OsProject

def NBUF : Nat := MAXOPBLOCKS * 3
def ROOTDEV : Nat := 1

structure Buf where
  valid : Bool := false
  dev : Nat := 0
  blockno : Nat := 0
  locked : Bool := false
  refcnt : UInt32 := 0
  data : Block := fun _ => 0

/-- `ring` lists the buffers in the order of their `next` pointers, from `head.next` on. -/
structure Bio where
  buf : Fin NBUF → Buf := fun _ => {}
  ring : List (Fin NBUF) := (List.finRange NBUF).reverse
  disk : Disk := fun _ _ => 0

inductive BioPanic
  | noBuffers | bwrite | brelse | stuck
  deriving DecidableEq, Repr

abbrev BioM := StateT Bio (Except BioPanic)

def Buf.IsBlock (x : Buf) (dev blockno : Nat) : Prop := x.dev = dev ∧ x.blockno = blockno

instance (x : Buf) (dev blockno : Nat) : Decidable (x.IsBlock dev blockno) :=
  inferInstanceAs (Decidable (x.dev = dev ∧ x.blockno = blockno))

namespace Bio

def setBuf (s : Bio) (i : Fin NBUF) (x : Buf) : Bio :=
  { s with buf := Function.update s.buf i x }

@[simp] theorem setBuf_same (s : Bio) (i : Fin NBUF) (x : Buf) : (s.setBuf i x).buf i = x :=
  Function.update_self _ _ _

theorem setBuf_of_ne (s : Bio) {i j : Fin NBUF} (h : j ≠ i) (x : Buf) :
    (s.setBuf i x).buf j = s.buf j := Function.update_of_ne h _ _

@[simp] theorem setBuf_setBuf (s : Bio) (i : Fin NBUF) (x y : Buf) :
    (s.setBuf i x).setBuf i y = s.setBuf i y := by
  simp [setBuf]

def acquiresleep (i : Fin NBUF) : BioM Unit := do
  let s ← get
  if (s.buf i).locked then throw .stuck
  else set (s.setBuf i { s.buf i with locked := true })

def bget (dev blockno : Nat) : BioM (Fin NBUF) := do
  let s ← get
  match s.ring.find? fun i => (s.buf i).IsBlock dev blockno with
  | some i =>
    set (s.setBuf i { s.buf i with refcnt := (s.buf i).refcnt + 1 })
    acquiresleep i
    return i
  | none =>
    match s.ring.reverse.find? fun i => (s.buf i).refcnt = 0 with
    | some i =>
      set (s.setBuf i
        { s.buf i with dev := dev, blockno := blockno, valid := false, refcnt := 1 })
      acquiresleep i
      return i
    | none => throw .noBuffers

def bread (dev blockno : Nat) : BioM (Fin NBUF) := do
  let i ← bget dev blockno
  let s ← get
  if (s.buf i).valid then return i
  else
    set (s.setBuf i { s.buf i with data := s.disk (s.buf i).blockno, valid := true })
    return i

def bwrite (i : Fin NBUF) : BioM Unit := do
  let s ← get
  if (s.buf i).locked then
    set { s with disk := Function.update s.disk (s.buf i).blockno (s.buf i).data }
  else throw .bwrite

def brelse (i : Fin NBUF) : BioM Unit := do
  let s ← get
  if (s.buf i).locked then
    let s := s.setBuf i { s.buf i with locked := false, refcnt := (s.buf i).refcnt - 1 }
    set (if (s.buf i).refcnt = 0 then { s with ring := i :: s.ring.erase i } else s)
  else throw .brelse

def bpin (i : Fin NBUF) : BioM Unit :=
  modify fun s => s.setBuf i { s.buf i with refcnt := (s.buf i).refcnt + 1 }

def bunpin (i : Fin NBUF) : BioM Unit :=
  modify fun s => s.setBuf i { s.buf i with refcnt := (s.buf i).refcnt - 1 }

/-- The `memmove` from one buffer to another, or of new contents into a buffer. -/
def store (i : Fin NBUF) (data : Bio → Block) : BioM Unit :=
  modify fun s => s.setBuf i { s.buf i with data := data s }

/-- What an operation does to change block `b`, with the part of `log_write` that concerns the
buffer: a block that is new in the log is pinned. -/
def logWrite (lh : List Nat) (b : Nat) (data : Block) : BioM Unit := do
  let i ← bread ROOTDEV b
  store i fun _ => data
  if b ∈ lh then pure () else bpin i
  brelse i

/-- One pass of the loop of `write_log`, for a block and its place in the log. -/
def writeLogBlock (p : Nat × Nat) : BioM Unit := do
  let toBuf ← bread ROOTDEV p.2
  let fromBuf ← bread ROOTDEV p.1
  store toBuf fun s => (s.buf fromBuf).data
  bwrite toBuf
  brelse fromBuf
  brelse toBuf

def writeLog (start : Nat) (lh : List Nat) : BioM Unit :=
  forM (logSlots start lh) writeLogBlock

/-- One pass of the loop of `install_trans`. -/
def installBlock (recovering : Bool) (p : Nat × Nat) : BioM Unit := do
  let lbuf ← bread ROOTDEV p.2
  let dbuf ← bread ROOTDEV p.1
  store dbuf fun s => (s.buf lbuf).data
  bwrite dbuf
  if recovering then pure () else bunpin dbuf
  brelse lbuf
  brelse dbuf

def installTrans (start : Nat) (lh : List Nat) (recovering : Bool) : BioM Unit :=
  forM (logSlots start lh) (installBlock recovering)

def writeHead (start : Nat) (lh : List Nat) : BioM Unit := do
  let i ← bread ROOTDEV start
  store i fun s => encodeHead lh (s.buf i).data
  bwrite i
  brelse i

def commit (start : Nat) (lh : List Nat) : BioM Unit := do
  if 0 < lh.length then
    writeLog start lh
    writeHead start lh
    installTrans start lh false
    writeHead start []
  else pure ()

end Bio

end OsProject
