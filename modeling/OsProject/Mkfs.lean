import OsProject.FileContent

/-! The program `mkfs`, which writes the volume that the kernel starts from. Blocks and inodes are
handed out in order, and the bitmap is written at the end. -/

namespace OsProject.Mkfs

open Function

def FSSIZE : Nat := 2000
def NINODES : Nat := 200
def nlog : Nat := LOGBLOCKS + 1
def ninodeblocks : Nat := NINODES / IPB + 1
def nbitmap : Nat := FSSIZE / BPB + 1
def nmeta : Nat := 2 + nlog + ninodeblocks + nbitmap

def sb : Superblock where
  size := FSSIZE
  nblocks := FSSIZE - nmeta
  ninodes := NINODES
  inodestart := 2 + nlog
  bmapstart := 2 + nlog + ninodeblocks

structure Image where
  dinode : Nodes := fun _ => {}
  data : Nat → Block := fun _ _ => 0
  bitmap : Nat → Bool := fun _ => false
  freeinode : Nat := 1
  freeblock : Nat := nmeta

/-- A file that cannot be opened, an assertion that fails, or a block beyond the image. -/
inductive Stop
  | noFile | assertion | read
  deriving DecidableEq, Repr

abbrev MkfsM := StateT Image (Except Stop)

def rsect (sec : Nat) : MkfsM Block := do
  if FSSIZE ≤ sec then throw .read
  return (← get).data sec

def wsect (sec : Nat) (buf : Block) : MkfsM Unit :=
  modify fun s => { s with data := update s.data sec buf }

def rinode (inum : Nat) : MkfsM Dinode := do return (← get).dinode inum

def winode (inum : Nat) (d : Dinode) : MkfsM Unit :=
  modify fun s => { s with dinode := update s.dinode inum d }

def ialloc (type : FileType) : MkfsM Nat := do
  let inum := (← get).freeinode
  modify fun s => { s with freeinode := inum + 1 }
  winode inum { type := type, nlink := 1 }
  return inum

/-- `freeblock++` -/
def nextBlock : MkfsM Nat := do
  let b := (← get).freeblock
  modify fun s => { s with freeblock := b + 1 }
  return b

/-- `addrs[i]` of the copy `d` of an inode, with a new block if there is none. -/
def fillAddr (d : Dinode) (i : Nat) : MkfsM Dinode := do
  if d.addrs i = 0 then
    let b ← nextBlock
    return d.setAddr i b
  return d

/-- The block `x` of the loop of `iappend`, and what becomes of `din`. -/
def appendBlock (d : Dinode) (fbn : Nat) : MkfsM (Dinode × Nat) := do
  if fbn < NDIRECT then
    let d ← fillAddr d fbn
    return (d, d.addrs fbn)
  let d ← fillAddr d NDIRECT
  let indirect ← rsect (d.addrs NDIRECT)
  if word indirect (fbn - NDIRECT) = 0 then
    let b ← nextBlock
    wsect (d.addrs NDIRECT) (putLE indirect (4 * (fbn - NDIRECT)) 4 b)
    return (d, b)
  return (d, word indirect (fbn - NDIRECT))

def bcopy (bs : List UInt8) (buf : Block) (o : Nat) : Block := fun i =>
  if o ≤ i ∧ i < o + bs.length then bs.getD (i - o) 0 else buf i

/-- The loop of `iappend`, with a bound on its turns. -/
def appendLoop : Nat → Dinode → Nat → List UInt8 → MkfsM (Dinode × Nat)
  | 0, d, off, _ => pure (d, off)
  | fuel + 1, d, off, bs =>
    if bs = [] then pure (d, off)
    else if MAXFILE ≤ off / BSIZE then throw .assertion
    else do
      let (d, x) ← appendBlock d (off / BSIZE)
      let n1 := min bs.length ((off / BSIZE + 1) * BSIZE - off)
      let buf ← rsect x
      wsect x (bcopy (bs.take n1) buf (off - off / BSIZE * BSIZE))
      appendLoop fuel d (off + n1) (bs.drop n1)

def iappend (inum : Nat) (bs : List UInt8) : MkfsM Unit := do
  let d ← rinode inum
  -- every turn appends a byte
  let (d, off) ← appendLoop bs.length d d.size bs
  winode inum { d with size := off }

def balloc (used : Nat) : MkfsM Unit := do
  if BPB ≤ used then throw .assertion
  modify fun s => { s with
    bitmap := (List.range used).foldl (fun m i => update m i true) fun _ => false }

/-- The bytes of an entry of the root directory. -/
def direntBytes (inum : Nat) (name : Name) : List UInt8 :=
  bytesFrom (encodeDirent { inum := inum, name := name }) 0 16

def shortname (path : List UInt8) : Name :=
  if path.take 5 = [117, 115, 101, 114, SLASH] then path.drop 5 else path

/-- A leading underscore is skipped. -/
def filename (path : List UInt8) : Name :=
  if (shortname path).head? = some 95 then (shortname path).tail else shortname path

/-- An argument of `mkfs`, with what the calls of `read` return. -/
structure Source where
  path : List UInt8
  chunks : Option (List (List UInt8))

/-- The loop ends at the first `read` that returns nothing. -/
def untilEmpty (chunks : List (List UInt8)) : List (List UInt8) := chunks.takeWhile (· ≠ [])

def Source.bytes (f : Source) : List UInt8 := (untilEmpty (f.chunks.getD [])).flatten

def addFile (f : Source) : MkfsM Unit := do
  if SLASH ∈ shortname f.path then throw .assertion
  let some chunks := f.chunks | throw .noFile
  if DIRSIZ < (filename f.path).length then throw .assertion
  let inum ← ialloc .file
  iappend ROOTINO (direntBytes inum (filename f.path))
  forM (untilEmpty chunks) (iappend inum)

def main (files : List Source) : MkfsM Unit := do
  let rootino ← ialloc .dir
  if rootino ≠ ROOTINO then throw .assertion
  iappend rootino (direntBytes rootino dotName)
  iappend rootino (direntBytes rootino dotDotName)
  forM files addFile
  let d ← rinode rootino
  winode rootino { d with size := (d.size / BSIZE + 1) * BSIZE }
  balloc (← get).freeblock

end OsProject.Mkfs
