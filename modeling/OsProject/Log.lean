import OsProject.ByteField
import OsProject.WriteTrace

/-! The redo log of `log.c`: log absorption, commit and recovery. Every `bwrite` is recorded
in a trace, so a crash between two block writes is a prefix of that trace. -/

namespace OsProject

abbrev Block := Buffer
abbrev Disk := Nat → Block

def BSIZE : Nat := 1024
def MAXOPBLOCKS : Nat := 10
def LOGBLOCKS : Nat := MAXOPBLOCKS * 3

/-- `cache b` is what `bread` returns for block `b`: its buffer if there is one, the disk
block otherwise. `lh` is `log.lh.block[0..n)`, and `trace` holds the disk writes so far. -/
structure LogState where
  disk : Disk
  cache : Disk
  lh : List Nat
  trace : List (Nat × Block)

def boot (d : Disk) : LogState := ⟨d, d, [], []⟩

def bwrite (st : LogState) (b : Nat) : LogState :=
  { st with disk := Function.update st.disk b (st.cache b), trace := st.trace ++ [(b, st.cache b)] }

def putBuffer (st : LogState) (b : Nat) (data : Block) : LogState :=
  { st with cache := Function.update st.cache b data }

/-- The caller has stored `data` in the buffer of block `b`. `none` is the panic
"too big a transaction", which is tested before absorption. -/
def logWrite (st : LogState) (w : Nat × Block) : Option LogState :=
  if st.lh.length ≥ LOGBLOCKS then none
  else
    let st := putBuffer st w.1 w.2
    some (if w.1 ∈ st.lh then st else { st with lh := st.lh ++ [w.1] })

/-- The body shared by the loops of `write_log` and `install_trans`: copy one buffer to
another and write the copy to disk. -/
def copyBlock (st : LogState) (p : Nat × Nat) : LogState :=
  bwrite (putBuffer st p.2 (st.cache p.1)) p.2

def logSlots (start : Nat) (lh : List Nat) : List (Nat × Nat) :=
  lh.zipIdx (start + 1)

def writeLog (start : Nat) (st : LogState) : LogState :=
  (logSlots start st.lh).foldl copyBlock st

def installTrans (start : Nat) (st : LogState) : LogState :=
  ((logSlots start st.lh).map Prod.swap).foldl copyBlock st

def decodeHead (b : Block) : List Nat :=
  (List.range (int32 (getLE b 0 4)).toNat).map (fun i => getLE b (4 * (i + 1)) 4)

/-- The entries are stored after `n`; the words behind them keep their old contents. -/
def encodeHead (lh : List Nat) (b : Block) : Block :=
  lh.zipIdx.foldl (fun b e => putLE b (4 * (e.2 + 1)) 4 e.1) (putLE b 0 4 lh.length)

def readHead (start : Nat) (st : LogState) : LogState :=
  { st with lh := decodeHead (st.cache start) }

def writeHead (start : Nat) (st : LogState) : LogState :=
  bwrite (putBuffer st start (encodeHead st.lh (st.cache start))) start

def recoverFromLog (start : Nat) (st : LogState) : LogState :=
  let st := installTrans start (readHead start st)
  writeHead start { st with lh := [] }

def commit (start : Nat) (st : LogState) : LogState :=
  if 0 < st.lh.length then
    let st := writeHead start (writeLog start st)
    let st := installTrans start st
    writeHead start { st with lh := [] }
  else st

/-- The `log_write` calls of the operations that commit together, in the order they ran. -/
abbrev Tx := List (Nat × Block)

def logTx (st : LogState) (tx : Tx) : Option LogState :=
  tx.foldlM logWrite st

def runTxs (start : Nat) (st : LogState) (txs : List Tx) : Option LogState :=
  txs.foldlM (fun st tx => (logTx st tx).map (commit start)) st

end OsProject
