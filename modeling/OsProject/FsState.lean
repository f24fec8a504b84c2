import OsProject.Fork
import OsProject.Log

/-! The state of the file system: the volume as `bread` shows it, the inode table, the file
table and the process table. Whole system calls run one after the other, so a sleep-lock that
is taken when it is already held is never given back. -/

namespace OsProject

def NDIRECT : Nat := 12
def NINDIRECT : Nat := BSIZE / 4
def MAXFILE : Nat := NDIRECT + NINDIRECT
def DIRSIZ : Nat := 14
def MAXPATH : Nat := 128
def NDEV : Nat := 10
def ROOTINO : Nat := 1
def IPB : Nat := BSIZE / 64
def BPB : Nat := BSIZE * 8

structure Superblock where
  size : Nat
  nblocks : Nat
  ninodes : Nat
  inodestart : Nat
  bmapstart : Nat

/-- The blocks before the data blocks: boot block, superblock, log, inodes and bitmap. -/
def Superblock.nmeta (sb : Superblock) : Nat := sb.size - sb.nblocks

inductive FileType
  | free | dir | file | device
  deriving DecidableEq, Repr

/-- Only the first `NDIRECT + 1` entries of `addrs` exist. -/
structure Dinode where
  type : FileType := .free
  major : Int := 0
  minor : Int := 0
  nlink : Int := 0
  size : Nat := 0
  addrs : Nat → Nat := fun _ => 0

/-- A slot of the inode table, with the copy of the disk inode. The device is always
`ROOTDEV`. -/
structure Inode extends Dinode where
  inum : Nat := 0
  ref : Int := 0
  locked : Bool := false
  valid : Bool := false

inductive FdType
  | none | pipe | inode | device
  deriving DecidableEq, Repr

abbrev Slot := Fin NINODE

structure File where
  type : FdType := .none
  ref : Int := 0
  readable : Bool := false
  writable : Bool := false
  ip : Slot := 0
  off : Nat := 0
  major : Int := 0

/-- `dinode`, `bitmap` and `data` are the three kinds of blocks of the volume, and `logged`
holds the blocks given to `log_write` in the current transaction. -/
structure Fs where
  dinode : Nat → Dinode
  bitmap : Nat → Bool
  data : Nat → Block
  inode : Slot → Inode := fun _ => {}
  file : Fin NFILE → File := fun _ => {}
  kernel : Kernel
  logged : List Nat := []

/-- `stuck` is a process that sleeps, on a lock it holds itself or until a child exits, and
`kerneltrap` is a null pointer. -/
inductive Panic
  | freeingFreeBlock | bmapOutOfRange | igetNoInodes | ilock | ilockNoType | iunlock
  | dirlookupNotDir | dirlookupRead | dirlinkRead | isdiremptyReadi
  | unlinkNlink | unlinkWritei | filedup | fileclose | fileread | filewrite | initExiting
  | kerneltrap | stuck
  deriving DecidableEq, Repr

abbrev FsM := StateT Fs (Except Panic)

def getInode (ip : Slot) : FsM Inode := do
  let s ← get
  return s.inode ip

def Fs.setInode (s : Fs) (ip : Slot) (i : Inode) : Fs :=
  { s with inode := Function.update s.inode ip i }

def modInode (ip : Slot) (f : Inode → Inode) : FsM Unit :=
  modify fun s => s.setInode ip (f (s.inode ip))

def absorb (logged : List Nat) (b : Nat) : List Nat :=
  if b ∈ logged then logged else logged ++ [b]

/-- `log_write` of block `b`. -/
def logBlock (b : Nat) : FsM Unit := modify fun s => { s with logged := absorb s.logged b }

def beginOp : FsM Unit := pure ()

def endOp : FsM Unit := modify fun s => { s with logged := [] }

/-- The value that a `short` holds after `v` is stored in it. -/
def short (v : Int) : Int := v.bmod (2 ^ 16)

@[simp] theorem short_short (v : Int) : short (short v) = short v := Int.bmod_bmod

/-- The `j`-th word of an indirect block. -/
def word (b : Block) (j : Nat) : Nat := getLE b (4 * j) 4

end OsProject
