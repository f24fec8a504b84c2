import OsProject.Directory

/-! The system calls of `sysfile.c` on files and directories, and the parts of `kfork` and `kexit`
that touch them. A path is what `argstr` finds at the user address, if it is mapped. The calls are
written over a monad above the file system: the file system alone, or with the pipes and a count of
the transactions. -/

namespace OsProject

/-- What the calls use besides the file system. `closePipe f writable` is `pipeclose` for the pipe of
the file `f`. -/
class CallOps (m : Type → Type) where
  beginOp : m Unit
  endOp : m Unit
  closePipe : Fin NFILE → Bool → m Unit

/-- The file system alone does not have the pipes. -/
instance : CallOps FsM where
  beginOp := OsProject.beginOp
  endOp := OsProject.endOp
  closePipe _ _ := pure ()

theorem liftM_fs {α : Type} (x : FsM α) : (liftM x : FsM α) = x := rfl

theorem beginOp_fs : (CallOps.beginOp : FsM Unit) = pure () := rfl

theorem endOp_fs : (CallOps.endOp : FsM Unit) = modify fun s => { s with logged := [] } := rfl

variable {m : Type → Type} [Monad m] [MonadLiftT FsM m] [CallOps m] (sb : Superblock)

def getFs : FsM Fs := get

def argstr (p : Option (List UInt8)) : Option (List UInt8) :=
  match p with
  | none => none
  | some b => if (b.takeWhile (· ≠ 0)).length < MAXPATH then some (b.takeWhile (· ≠ 0)) else none

def addNlink (ip : Slot) (v : Int) : FsM Unit := do
  modInode ip fun i => { i with nlink := short (i.nlink + v) }
  iupdate sb ip

/-- The failure path of `sys_link`. -/
def linkBad (ip : Slot) : m Int := do
  ilock ip
  addNlink sb ip (-1)
  iunlockput sb ip
  CallOps.endOp
  return -1

/-- The part of `sys_link` after the link is counted: the entry for it. -/
def linkEntry (me : Fin NPROC) (ip : Slot) (inum : Nat) (new : List UInt8) : m Int := do
  match ← nameiparent sb me new with
  | none => linkBad sb ip
  | some (dp, name) =>
    ilock dp
    let r ← dirlink sb dp name inum
    iunlockput sb dp
    if r < 0 then linkBad sb ip
    else
      iput sb ip
      CallOps.endOp
      return 0

def sysLink (me : Fin NPROC) (old new : Option (List UInt8)) : m Int := do
  match argstr old, argstr new with
  | some old, some new =>
    CallOps.beginOp
    match ← namei sb me old with
    | none =>
      CallOps.endOp
      return -1
    | some ip =>
      ilock ip
      let i ← getInode ip
      if i.type = .dir then
        iunlockput sb ip
        CallOps.endOp
        return -1
      else
        addNlink sb ip 1
        iunlock ip
        linkEntry sb me ip i.inum new
  | _, _ => return -1

/-- The loop of `isdirempty` over the offsets from the third entry on. -/
def dirEmptyFrom (dp : Slot) : List Nat → FsM Bool
  | [] => return true
  | off :: offs => do
    let de ← readDirent sb dp .isdiremptyReadi off
    if de.inum = 0 then dirEmptyFrom dp offs else return false

def isdirempty (dp : Slot) : FsM Bool := do
  let d ← getInode dp
  dirEmptyFrom sb dp ((direntOffs d.size).drop 2)

def unlinkBad (dp : Slot) : m Int := do
  iunlockput sb dp
  CallOps.endOp
  return -1

/-- The end of `sys_unlink`: the inode loses its link. -/
def unlinkInode (dp ip : Slot) : m Int := do
  iunlockput sb dp
  addNlink sb ip (-1)
  iunlockput sb ip
  CallOps.endOp
  return 0

/-- The part of `sys_unlink` after its checks: the entry at `off` goes, and with a directory the
link of its "..". -/
def unlinkEntry (dp ip : Slot) (isDir : Bool) (off : Nat) : m Int := do
  let r ← writeDirent sb dp {} off
  if r ≠ 16 then (throw .unlinkWritei : FsM Int)
  else
    (if isDir then addNlink sb dp (-1) else pure () : FsM Unit)
    unlinkInode sb dp ip

def sysUnlink (me : Fin NPROC) (path : Option (List UInt8)) : m Int := do
  match argstr path with
  | none => return -1
  | some path =>
    CallOps.beginOp
    match ← nameiparent sb me path with
    | none =>
      CallOps.endOp
      return -1
    | some (dp, name) =>
      ilock dp
      if name = dotName ∨ name = dotDotName then unlinkBad sb dp
      else
        match ← dirlookup sb dp name with
        | none => unlinkBad sb dp
        | some (ip, off) =>
          ilock ip
          let i ← getInode ip
          if i.nlink < 1 then (throw .unlinkNlink : FsM Int)
          else if i.type = .dir then
            if ← isdirempty sb ip then unlinkEntry sb dp ip true off
            else
              iunlockput sb ip
              unlinkBad sb dp
          else unlinkEntry sb dp ip false off

/-- The failure path of `create`. -/
def createFail (dp ip : Slot) : FsM (Option Slot) := do
  modInode ip fun i => { i with nlink := 0 }
  iupdate sb ip
  iunlockput sb ip
  iunlockput sb dp
  return none

def makeDots (ip : Slot) (self parent : Nat) : FsM Bool := do
  let r ← dirlink sb ip dotName self
  if r < 0 then return false
  else
    let r ← dirlink sb ip dotDotName parent
    return 0 ≤ r

/-- The entry for a new inode. The parent gets a link for the ".." of a new directory. -/
def createEntry (dp ip : Slot) (name : Name) (inum : Nat) (type : FileType) :
    FsM (Option Slot) := do
  let r ← dirlink sb dp name inum
  if r < 0 then createFail sb dp ip
  else
    if type = .dir then addNlink sb dp 1 else pure ()
    iunlockput sb dp
    return some ip

/-- The part of `create` that makes the new inode, with `dp` locked. -/
def createNew (dp : Slot) (name : Name) (type : FileType) (major minor : Int) :
    FsM (Option Slot) := do
  match ← ialloc sb type with
  | none =>
    iunlockput sb dp
    return none
  | some ip =>
    ilock ip
    modInode ip fun i => { i with major := short major, minor := short minor, nlink := 1 }
    iupdate sb ip
    let d ← getInode dp
    let i ← getInode ip
    let ok ← if type = .dir then makeDots sb ip i.inum d.inum else pure true
    if ok then createEntry sb dp ip name i.inum type else createFail sb dp ip

def create (me : Fin NPROC) (path : List UInt8) (type : FileType) (major minor : Int) :
    FsM (Option Slot) := do
  match ← nameiparent sb me path with
  | none => return none
  | some (dp, name) =>
    ilock dp
    match ← dirlookup sb dp name with
    | some (ip, _) =>
      iunlockput sb dp
      ilock ip
      let i ← getInode ip
      if type = .file ∧ (i.type = .file ∨ i.type = .device) then return some ip
      else
        iunlockput sb ip
        return none
    | none => createNew sb dp name type major minor

def filealloc : FsM (Option (Fin NFILE)) := do
  let s ← get
  match (List.finRange NFILE).find? fun f => (s.file f).ref = 0 with
  | some f =>
    modify fun s => { s with file := Function.update s.file f { s.file f with ref := 1 } }
    return some f
  | none => return none

def Fs.setFd (s : Fs) (me : Fin NPROC) (fd : Fin NOFILE) (f : Option (Fin NFILE)) : Fs :=
  { s with
    kernel := s.kernel.setProc me
      { s.kernel.proc me with ofile := Function.update (s.kernel.proc me).ofile fd f } }

def fdalloc (me : Fin NPROC) (f : Fin NFILE) : FsM (Option (Fin NOFILE)) := do
  let s ← get
  match (List.finRange NOFILE).find? fun fd => (s.kernel.proc me).ofile fd = none with
  | some fd =>
    modify fun s => s.setFd me fd (some f)
    return some fd
  | none => return none

def filedup (f : Fin NFILE) : FsM Unit := do
  let s ← get
  if (s.file f).ref < 1 then throw .filedup
  else modify fun s =>
    { s with file := Function.update s.file f { s.file f with ref := (s.file f).ref + 1 } }

def setFile (f : Fin NFILE) (x : File) : FsM Unit :=
  modify fun s => { s with file := Function.update s.file f x }

def fileclose (f : Fin NFILE) : m Unit := do
  let ff := (← getFs).file f
  if ff.ref < 1 then (throw .fileclose : FsM Unit)
  else if 0 < ff.ref - 1 then setFile f { ff with ref := ff.ref - 1 }
  else
    setFile f { ff with ref := 0, type := .none }
    if ff.type = .pipe then CallOps.closePipe f ff.writable
    else if ff.type = .inode ∨ ff.type = .device then
      CallOps.beginOp
      iput sb ff.ip
      CallOps.endOp
    else return ()

def O_WRONLY : BitVec 32 := 0x001
def O_RDWR : BitVec 32 := 0x002
def O_CREATE : BitVec 32 := 0x200
def O_TRUNC : BitVec 32 := 0x400

/-- The open file that `sys_open` makes of `x`. -/
def opened (i : Inode) (ip : Slot) (omode : BitVec 32) (x : File) : File :=
  { x with
    type := if i.type = .device then .device else .inode
    major := if i.type = .device then i.major else x.major
    off := if i.type = .device then x.off else 0
    ip := ip
    readable := omode &&& O_WRONLY = 0
    writable := omode &&& O_WRONLY ≠ 0 ∨ omode &&& O_RDWR ≠ 0 }

/-- The end of `sys_open`, with the file `f` and its descriptor. -/
def openFile (ip : Slot) (i : Inode) (omode : BitVec 32) (f : Fin NFILE) (fd : Fin NOFILE) :
    m Int := do
  let x := (← getFs).file f
  setFile f (opened i ip omode x)
  (if omode &&& O_TRUNC ≠ 0 ∧ i.type = .file then itrunc sb ip else pure () : FsM Unit)
  iunlock ip
  CallOps.endOp
  return fd.val

/-- The failure path of `sys_open` after the inode is locked. -/
def openBad (ip : Slot) : m Int := do
  iunlockput sb ip
  CallOps.endOp
  return -1

/-- The part of `sys_open` after the inode is locked. -/
def openInode (me : Fin NPROC) (ip : Slot) (omode : BitVec 32) : m Int := do
  let i ← getInode ip
  if i.type = .device ∧ (i.major < 0 ∨ NDEV ≤ i.major) then openBad sb ip
  else
    match ← filealloc with
    | none => openBad sb ip
    | some f =>
      match ← fdalloc me f with
      | none =>
        fileclose sb f
        openBad sb ip
      | some fd => openFile sb ip i omode f fd

def sysOpen (me : Fin NPROC) (path : Option (List UInt8)) (omode : BitVec 32) : m Int := do
  match argstr path with
  | none => return -1
  | some path =>
    CallOps.beginOp
    if omode &&& O_CREATE ≠ 0 then
      match ← create sb me path .file 0 0 with
      | none =>
        CallOps.endOp
        return -1
      | some ip => openInode sb me ip omode
    else
      match ← namei sb me path with
      | none =>
        CallOps.endOp
        return -1
      | some ip =>
        ilock ip
        let i ← getInode ip
        if i.type = .dir ∧ omode ≠ 0 then openBad sb ip
        else openInode sb me ip omode

/-- What `sys_mkdir` and `sys_mknod` do with the path. -/
def sysCreate (me : Fin NPROC) (path : Option (List UInt8)) (type : FileType)
    (major minor : Int) : m Int := do
  CallOps.beginOp
  match argstr path with
  | none =>
    CallOps.endOp
    return -1
  | some path =>
    match ← create sb me path type major minor with
    | none =>
      CallOps.endOp
      return -1
    | some ip =>
      iunlockput sb ip
      CallOps.endOp
      return 0

def sysMkdir (me : Fin NPROC) (path : Option (List UInt8)) : m Int :=
  sysCreate sb me path .dir 0 0

def sysMknod (me : Fin NPROC) (path : Option (List UInt8)) (major minor : Int) : m Int :=
  sysCreate sb me path .device major minor

def Fs.setCwd (s : Fs) (me : Fin NPROC) (cwd : Option Slot) : Fs :=
  { s with kernel := s.kernel.setProc me { s.kernel.proc me with cwd := cwd } }

def putCwd (me : Fin NPROC) : FsM Unit := do
  let s ← get
  match (s.kernel.proc me).cwd with
  | none => throw .kerneltrap
  | some cwd => iput sb cwd

def sysChdir (me : Fin NPROC) (path : Option (List UInt8)) : m Int := do
  CallOps.beginOp
  match argstr path with
  | none =>
    CallOps.endOp
    return -1
  | some path =>
    match ← namei sb me path with
    | none =>
      CallOps.endOp
      return -1
    | some ip =>
      ilock ip
      let i ← getInode ip
      if i.type ≠ .dir then
        iunlockput sb ip
        CallOps.endOp
        return -1
      else
        iunlock ip
        putCwd sb me
        CallOps.endOp
        (modify fun s => s.setCwd me (some ip) : FsM Unit)
        return 0

/-- The open file of descriptor `fd`. -/
def argfd (s : Fs) (me : Fin NPROC) (fd : Int) : Option (Fin NOFILE × Fin NFILE) :=
  if h : 0 ≤ fd ∧ fd < NOFILE then
    ((s.kernel.proc me).ofile ⟨fd.toNat, by omega⟩).map fun f => (⟨fd.toNat, by omega⟩, f)
  else none

def sysDup (me : Fin NPROC) (fd : Int) : FsM Int := do
  let s ← get
  match argfd s me fd with
  | none => return -1
  | some (_, f) =>
    match ← fdalloc me f with
    | none => return -1
    | some fd =>
      filedup f
      return fd.val

def dropFd (me : Fin NPROC) (fd : Fin NOFILE) : FsM Unit := modify fun s => s.setFd me fd none

def sysClose (me : Fin NPROC) (fd : Int) : m Int := do
  match argfd (← getFs) me fd with
  | none => return -1
  | some (fd, f) =>
    dropFd me fd
    fileclose sb f
    return 0

def sysFstat (me : Fin NPROC) (fd : Int) (copyoutOk : Bool) : FsM Int := do
  let s ← get
  match argfd s me fd with
  | none => return -1
  | some (_, f) =>
    if (s.file f).type = .inode ∨ (s.file f).type = .device then
      ilock (s.file f).ip
      iunlock (s.file f).ip
      if copyoutOk then return 0 else return -1
    else return -1

def setOff (f : Fin NFILE) (r : Int) : FsM Unit :=
  modify fun s =>
    { s with
      file := Function.update s.file f
        { s.file f with off := if 0 < r then (s.file f).off + r.toNat else (s.file f).off } }

/-- `n` as the `uint` argument of `readi`. -/
def toUint (n : Int) : Nat := (n % 2 ^ 32).toNat

/-- `dst` tells which bytes of the user buffer can be written, and `dev` is what a pipe or a
device returns. -/
def sysRead (me : Fin NPROC) (fd n : Int) (dst : Nat → Bool) (dev : Int) : FsM Int := do
  let s ← get
  match argfd s me fd with
  | none => return -1
  | some (_, f) =>
    if (s.file f).readable = false then return -1
    else
      match (s.file f).type with
      | .pipe => return dev
      | .device => if (s.file f).major < 0 ∨ NDEV ≤ (s.file f).major then return -1 else return dev
      | .inode =>
        ilock (s.file f).ip
        let (r, _) ← readi sb (s.file f).ip dst (s.file f).off (toUint n)
        setOff f r
        iunlock (s.file f).ip
        return r
      | .none => throw .fileread

/-- The bytes that one transaction of `filewrite` writes at most. -/
def writeMax : Nat := (MAXOPBLOCKS - 1 - 1 - 2) / 2 * BSIZE

/-- One transaction of `filewrite`. -/
def writeChunk (f : Fin NFILE) (src : Nat → Option UInt8) (n : Nat) : FsM Int := do
  beginOp
  let s ← get
  ilock (s.file f).ip
  let r ← writei sb (s.file f).ip src (s.file f).off n
  setOff f r
  iunlock (s.file f).ip
  endOp
  return r

def writeChunks (f : Fin NFILE) (src : Nat → Option UInt8) : Nat → Nat → Nat → FsM Nat
  | 0, _, i => return i
  | fuel + 1, n, i => do
    if i < n then
      let n1 := min (n - i) writeMax
      let r ← writeChunk sb f (fun j => src (i + j)) n1
      if r = n1 then writeChunks f src fuel n (i + n1) else return i
    else return i

def sysWrite (me : Fin NPROC) (fd n : Int) (src : Nat → Option UInt8) (dev : Int) : FsM Int := do
  let s ← get
  match argfd s me fd with
  | none => return -1
  | some (_, f) =>
    if (s.file f).writable = false then return -1
    else
      match (s.file f).type with
      | .pipe => return dev
      | .device => if (s.file f).major < 0 ∨ NDEV ≤ (s.file f).major then return -1 else return dev
      | .inode =>
        let i ← writeChunks sb f src n.toNat n.toNat 0
        if (i : Int) = n then return n else return -1
      | .none => throw .filewrite

def sysFork (me : Fin NPROC) (mem : ForkMem) : FsM Int := do
  let s ← get
  match kfork s.kernel me mem with
  | (k, pid, none) =>
    set { s with kernel := k }
    return pid
  | (k, pid, some _) =>
    forM (List.finRange NOFILE) fun fd =>
      match (s.kernel.proc me).ofile fd with
      | some f => filedup f
      | none => pure ()
    match (s.kernel.proc me).cwd with
    | none => throw .kerneltrap
    | some cwd =>
      let _ ← idup cwd
      modify fun s => { s with kernel := k }
      return pid

def closeFd (me : Fin NPROC) (fd : Fin NOFILE) : m Unit := do
  match ((← getFs).kernel.proc me).ofile fd with
  | some f =>
    fileclose sb f
    dropFd me fd
  | none => return ()

/-- The part of `kexit` that touches the table of the processes. -/
def exited (k : Kernel) (me : Fin NPROC) (status : Int) : Kernel :=
  (k.reparent me).setProc me (((k.reparent me).proc me).exit status)

/-- `kexit`; slot 0 holds the init process. -/
def sysExit (me : Fin NPROC) (status : Int) : m Int := do
  if me = 0 then (throw .initExiting : FsM Int)
  else
    forM (List.finRange NOFILE) (closeFd sb me)
    CallOps.beginOp
    putCwd sb me
    CallOps.endOp
    (modify fun s => { s with kernel := exited s.kernel me status } : FsM Unit)
    return 0

/-- `kwait`, which sleeps while it has children and none has exited. -/
def sysWait (me : Fin NPROC) (copyoutOk : Bool) : FsM Int := do
  let s ← get
  match zombieChild s.kernel me with
  | some i =>
    if copyoutOk then
      modify fun s => { s with kernel := s.kernel.setProc i (freeproc (s.kernel.proc i)) }
      return (s.kernel.proc i).pid
    else return -1
  | none =>
    if (∀ i, (s.kernel.proc i).parent ≠ some me) ∨ (s.kernel.proc me).killed ≠ 0 then return -1
    else throw .stuck

inductive FsCall
  | link (old new : Option (List UInt8))
  | unlink (path : Option (List UInt8))
  | open (path : Option (List UInt8)) (omode : BitVec 32)
  | mkdir (path : Option (List UInt8))
  | mknod (path : Option (List UInt8)) (major minor : Int)
  | chdir (path : Option (List UInt8))
  | dup (fd : Int)
  | close (fd : Int)
  | fstat (fd : Int) (copyoutOk : Bool)
  | read (fd n : Int) (dst : Nat → Bool) (dev : Int)
  | write (fd n : Int) (src : Nat → Option UInt8) (dev : Int)
  | fork (mem : ForkMem)
  | exit (status : Int)
  | wait (copyoutOk : Bool)

/-- The call of the process in slot `me`. -/
def fsCall (me : Fin NPROC) : FsCall → FsM Int
  | .link old new => sysLink sb me old new
  | .unlink path => sysUnlink sb me path
  | .open path omode => sysOpen sb me path omode
  | .mkdir path => sysMkdir sb me path
  | .mknod path major minor => sysMknod sb me path major minor
  | .chdir path => sysChdir sb me path
  | .dup fd => sysDup me fd
  | .close fd => sysClose sb me fd
  | .fstat fd copyoutOk => sysFstat me fd copyoutOk
  | .read fd n dst dev => sysRead sb me fd n dst dev
  | .write fd n src dev => sysWrite sb me fd n src dev
  | .fork mem => sysFork me mem
  | .exit status => sysExit sb me status
  | .wait copyoutOk => sysWait me copyoutOk

end OsProject
