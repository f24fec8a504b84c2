import OsProject.Inode

/-! Directories and paths of `fs.c`: `dirlookup`, `dirlink`, `skipelem` and `namex`. A name is
the bytes before its NUL, at most `DIRSIZ` of them. -/

namespace OsProject

abbrev Name := List UInt8

structure Dirent where
  inum : Nat := 0
  name : Name := []
  deriving DecidableEq, Repr

def SLASH : UInt8 := 47
def dotName : Name := [46]
def dotDotName : Name := [46, 46]

def decodeDirent (b : List UInt8) : Dirent where
  inum := (b.getD 0 0).toNat + 256 * (b.getD 1 0).toNat
  name := ((b.drop 2).take DIRSIZ).takeWhile (· ≠ 0)

/-- The 16 bytes of a `struct dirent`, with the name padded by `strncpy`. -/
def encodeDirent (de : Dirent) : Nat → UInt8
  | 0 => UInt8.ofNat de.inum
  | 1 => UInt8.ofNat (de.inum / 256)
  | i + 2 => de.name.getD i 0

def direntOffs (size : Nat) : List Nat := (List.range ((size + 15) / 16)).map (16 * ·)

variable (sb : Superblock)

def readDirent (dp : Slot) (panic : Panic) (off : Nat) : FsM Dirent := do
  let (r, b) ← readi sb dp (fun _ => true) off 16
  if r = 16 then return decodeDirent b else throw panic

def writeDirent (dp : Slot) (de : Dirent) (off : Nat) : FsM Int :=
  writei sb dp (fun i => some (encodeDirent de i)) off 16

/-- The loop of `dirlookup`: the offset and the inode number of the entry. -/
def dirScan (dp : Slot) (name : Name) : List Nat → FsM (Option (Nat × Nat))
  | [] => return none
  | off :: offs => do
    let de ← readDirent sb dp .dirlookupRead off
    if de.inum = 0 then dirScan dp name offs
    else if de.name = name then return some (off, de.inum)
    else dirScan dp name offs

def dirlookup (dp : Slot) (name : Name) : FsM (Option (Slot × Nat)) := do
  let d ← getInode dp
  if d.type = .dir then
    match ← dirScan sb dp name (direntOffs d.size) with
    | some (off, inum) =>
      let ip ← iget inum
      return some (ip, off)
    | none => return none
  else throw .dirlookupNotDir

/-- The loop of `dirlink` over the offsets that are left: where the new entry goes. -/
def dirFindFree (dp : Slot) (size : Nat) : List Nat → FsM Nat
  | [] => return 16 * ((size + 15) / 16)
  | off :: offs => do
    let de ← readDirent sb dp .dirlinkRead off
    if de.inum = 0 then return off else dirFindFree dp size offs

def dirlink (dp : Slot) (name : Name) (inum : Nat) : FsM Int := do
  match ← dirlookup sb dp name with
  | some (ip, _) =>
    iput sb ip
    return -1
  | none =>
    let d ← getInode dp
    let off ← dirFindFree sb dp d.size (direntOffs d.size)
    let r ← writeDirent sb dp { inum := inum, name := name } off
    if r = 16 then return 0 else return -1

/-- The next element of a path, cut to `DIRSIZ` bytes, and the path after it. -/
def skipelem (path : List UInt8) : Option (Name × List UInt8) :=
  let p := path.dropWhile (· = SLASH)
  if p = [] then none
  else some ((p.takeWhile (· ≠ SLASH)).take DIRSIZ,
    (p.dropWhile (· ≠ SLASH)).dropWhile (· = SLASH))

/-- The elements that repeated calls of `skipelem` give. Each call takes at least one byte. -/
def pathElems : Nat → List UInt8 → List Name
  | 0, _ => []
  | fuel + 1, path =>
    match skipelem path with
    | none => []
    | some (name, rest) => name :: pathElems fuel rest

/-- The loop of `namex`. With `nameiparent` it stops one level early and returns the last
element too. -/
def namexLoop (nameiparent : Bool) (ip : Slot) : List Name → FsM (Option (Slot × Name))
  | [] => do
    if nameiparent then
      iput sb ip
      return none
    else return some (ip, [])
  | name :: elems => do
    ilock ip
    let d ← getInode ip
    if d.type ≠ .dir then
      iunlockput sb ip
      return none
    else if nameiparent ∧ elems = [] then
      iunlock ip
      return some (ip, name)
    else
      match ← dirlookup sb ip name with
      | none =>
        iunlockput sb ip
        return none
      | some (next, _) =>
        iunlockput sb ip
        namexLoop nameiparent next elems

def namex (me : Fin NPROC) (path : List UInt8) (nameiparent : Bool) :
    FsM (Option (Slot × Name)) := do
  let s ← get
  let elems := pathElems path.length path
  if path.head? = some SLASH then
    let ip ← iget ROOTINO
    namexLoop sb nameiparent ip elems
  else
    match (s.kernel.proc me).cwd with
    | none => throw .kerneltrap
    | some cwd =>
      let ip ← idup cwd
      namexLoop sb nameiparent ip elems

def namei (me : Fin NPROC) (path : List UInt8) : FsM (Option Slot) := do
  let r ← namex sb me path false
  return r.map Prod.fst

def nameiparent (me : Fin NPROC) (path : List UInt8) : FsM (Option (Slot × Name)) :=
  namex sb me path true

end OsProject
