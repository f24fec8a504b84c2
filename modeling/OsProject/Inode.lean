import OsProject.FsState

/-! Blocks and inodes of `fs.c`: `balloc`, `bfree`, `ialloc`, the inode table, `bmap`, `itrunc`,
`readi` and `writei`. -/

namespace OsProject

variable (sb : Superblock)

def bzero (b : Nat) : FsM Unit := do
  modify fun s => { s with data := Function.update s.data b fun _ => 0 }
  logBlock b

/-- The two loops of `balloc` pass the blocks of the volume in order. -/
def balloc : FsM Nat := do
  let s ← get
  match (List.range sb.size).find? fun b => s.bitmap b = false with
  | some b =>
    modify fun s => { s with bitmap := Function.update s.bitmap b true }
    logBlock (b / BPB + sb.bmapstart)
    bzero b
    return b
  | none => return 0

def bfree (b : Nat) : FsM Unit := do
  let s ← get
  if s.bitmap b = false then throw .freeingFreeBlock
  else
    modify fun s => { s with bitmap := Function.update s.bitmap b false }
    logBlock (b / BPB + sb.bmapstart)

def iget (inum : Nat) : FsM Slot := do
  let s ← get
  match (List.finRange NINODE).find? fun ip => 0 < (s.inode ip).ref ∧ (s.inode ip).inum = inum with
  | some ip =>
    modInode ip fun i => { i with ref := i.ref + 1 }
    return ip
  | none =>
    match (List.finRange NINODE).find? fun ip => (s.inode ip).ref = 0 with
    | some ip =>
      modInode ip fun i => { i with inum := inum, ref := 1, valid := false }
      return ip
    | none => throw .igetNoInodes

def idup (ip : Slot) : FsM Slot := do
  modInode ip fun i => { i with ref := i.ref + 1 }
  return ip

def setDinode (inum : Nat) (d : Dinode) : FsM Unit := do
  modify fun s => { s with dinode := Function.update s.dinode inum d }
  logBlock (inum / IPB + sb.inodestart)

def ialloc (type : FileType) : FsM (Option Slot) := do
  let s ← get
  match (List.range sb.ninodes).find? fun inum => 0 < inum ∧ (s.dinode inum).type = .free with
  | some inum =>
    setDinode sb inum { type := type }
    let ip ← iget inum
    return some ip
  | none => return none

def iupdate (ip : Slot) : FsM Unit := do
  let i ← getInode ip
  setDinode sb i.inum i.toDinode

def ilock (ip : Slot) : FsM Unit := do
  let i ← getInode ip
  if i.ref < 1 then throw .ilock
  else if i.locked then throw .stuck
  else if i.valid then modInode ip fun i => { i with locked := true }
  else
    let s ← get
    modInode ip fun i => { i with locked := true, valid := true, toDinode := s.dinode i.inum }
    if (s.dinode i.inum).type = .free then throw .ilockNoType else return ()

def iunlock (ip : Slot) : FsM Unit := do
  let i ← getInode ip
  if i.locked = false ∨ i.ref < 1 then throw .iunlock
  else modInode ip fun i => { i with locked := false }

def setAddr (ip : Slot) (i addr : Nat) : FsM Unit :=
  modInode ip fun d => { d with addrs := Function.update d.addrs i addr }

/-- The body that `itrunc` runs for each direct block. -/
def truncDirect (ip : Slot) (i : Nat) : FsM Unit := do
  let d ← getInode ip
  if d.addrs i = 0 then return ()
  else
    bfree sb (d.addrs i)
    setAddr ip i 0

def truncEntry (a : Block) (j : Nat) : FsM Unit :=
  if word a j = 0 then return () else bfree sb (word a j)

def truncIndirect (ip : Slot) : FsM Unit := do
  let d ← getInode ip
  if d.addrs NDIRECT = 0 then return ()
  else
    let s ← get
    forM (List.range NINDIRECT) (truncEntry sb (s.data (d.addrs NDIRECT)))
    bfree sb (d.addrs NDIRECT)
    setAddr ip NDIRECT 0

def itrunc (ip : Slot) : FsM Unit := do
  forM (List.range NDIRECT) (truncDirect sb ip)
  truncIndirect sb ip
  modInode ip fun d => { d with size := 0 }
  iupdate sb ip

/-- The part of `iput` that deletes an inode nobody refers to. -/
def ifree (ip : Slot) : FsM Unit := do
  let i ← getInode ip
  if i.locked then throw .stuck
  else
    itrunc sb ip
    modInode ip fun i => { i with type := .free }
    iupdate sb ip
    modInode ip fun i => { i with valid := false }

def iput (ip : Slot) : FsM Unit := do
  let i ← getInode ip
  if i.ref = 1 ∧ i.valid = true ∧ i.nlink = 0 then ifree sb ip else pure ()
  modInode ip fun i => { i with ref := i.ref - 1 }

def iunlockput (ip : Slot) : FsM Unit := do
  iunlock ip
  iput sb ip

/-- The block number in `addrs[i]`, allocated when it is 0. -/
def loadAddr (ip : Slot) (i : Nat) : FsM Nat := do
  let d ← getInode ip
  if d.addrs i = 0 then
    let addr ← balloc sb
    if addr = 0 then return 0
    else
      setAddr ip i addr
      return addr
  else return d.addrs i

/-- The block number in word `j` of the indirect block `ind`, allocated when it is 0. -/
def loadWord (ind j : Nat) : FsM Nat := do
  let s ← get
  if word (s.data ind) j = 0 then
    let addr ← balloc sb
    if addr = 0 then return 0
    else
      modify fun s =>
        { s with data := Function.update s.data ind (putLE (s.data ind) (4 * j) 4 addr) }
      logBlock ind
      return addr
  else return word (s.data ind) j

def bmap (ip : Slot) (bn : Nat) : FsM Nat := do
  if bn < NDIRECT then loadAddr sb ip bn
  else if bn - NDIRECT < NINDIRECT then
    let ind ← loadAddr sb ip NDIRECT
    if ind = 0 then return 0 else loadWord sb ind (bn - NDIRECT)
  else throw .bmapOutOfRange

/-- How many of the `m` bytes from byte `tot` of the destination on are copied until one of them
cannot be written. -/
def storable (dst : Nat → Bool) (tot m : Nat) : Nat :=
  ((List.range m).takeWhile fun i => dst (tot + i)).length

/-- The loop of `readi`: `dst i` tells whether byte `i` of the destination can be written, and
`acc` is what has been copied. -/
def readLoop (ip : Slot) (dst : Nat → Bool) :
    Nat → Nat → Nat → Nat → List UInt8 → FsM (Int × List UInt8)
  | 0, _, _, tot, acc => return (tot, acc)
  | fuel + 1, off, n, tot, acc => do
    if tot < n then
      let addr ← bmap sb ip (off / BSIZE)
      if addr = 0 then return (tot, acc)
      else
        let s ← get
        let m := min (n - tot) (BSIZE - off % BSIZE)
        if (List.range m).all fun i => dst (tot + i) then
          readLoop ip dst fuel (off + m) n (tot + m)
            (acc ++ bytesFrom (s.data addr) (off % BSIZE) m)
        else return (-1, acc ++ bytesFrom (s.data addr) (off % BSIZE) (storable dst tot m))
    else return (tot, acc)

/-- `off` and `n` are `uint`. The result comes with the bytes copied to `dst`. -/
def readi (ip : Slot) (dst : Nat → Bool) (off n : Nat) : FsM (Int × List UInt8) := do
  let d ← getInode ip
  if d.size < off ∨ (off + n) % 2 ^ 32 < off then return (0, [])
  else
    let n := if d.size < (off + n) % 2 ^ 32 then d.size - off else n
    readLoop sb ip dst n off n 0 []

/-- `either_copyin` of `m` bytes from `src + tot` to offset `o` of block `b`: `src i` is byte `i`
of the source, or nothing where it is not mapped, and what comes before that is copied. -/
def copyIn (src : Nat → Option UInt8) (b o tot m : Nat) : FsM Bool := do
  let got := ((List.range m).map fun i => src (tot + i)).takeWhile Option.isSome
  modify fun s =>
    { s with data := Function.update s.data b fun x =>
        if o ≤ x ∧ x < o + got.length then (src (tot + (x - o))).getD 0 else s.data b x }
  return got.length = m

def writeLoop (ip : Slot) (src : Nat → Option UInt8) : Nat → Nat → Nat → Nat → FsM Nat
  | 0, _, _, tot => return tot
  | fuel + 1, off, n, tot => do
    if tot < n then
      let addr ← bmap sb ip (off / BSIZE)
      if addr = 0 then return tot
      else
        let m := min (n - tot) (BSIZE - off % BSIZE)
        let ok ← copyIn src addr (off % BSIZE) tot m
        if ok then
          logBlock addr
          writeLoop ip src fuel (off + m) n (tot + m)
        else return tot
    else return tot

def writei (ip : Slot) (src : Nat → Option UInt8) (off n : Nat) : FsM Int := do
  let d ← getInode ip
  if d.size < off ∨ (off + n) % 2 ^ 32 < off then return -1
  else if MAXFILE * BSIZE < (off + n) % 2 ^ 32 then return -1
  else
    let tot ← writeLoop sb ip src n off n 0
    modInode ip fun d => { d with size := if d.size < off + tot then off + tot else d.size }
    iupdate sb ip
    return tot

end OsProject
