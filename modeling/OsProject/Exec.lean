import OsProject.ProcMem

/-! `exec.c`: a program is loaded from a file into a new page table, which takes the place of the
old one at the end. -/

namespace OsProject.Vm

def ELF_MAGIC : Nat := 0x464C457F
def ELF_PROG_LOAD : Nat := 1
def USERSTACK : Nat := 1
def MAXARG : Nat := 32

structure ElfHdr where
  magic : Nat
  entry : Nat
  phoff : Nat
  phnum : Nat

structure ProgHdr where
  type : Nat
  flags : Nat
  off : Nat
  vaddr : Nat
  filesz : Nat
  memsz : Nat

/-- The fields of a `struct elfhdr`. -/
def ElfHdr.ofBytes (bytes : List UInt8) : ElfHdr :=
  let b : Buffer := fun i => bytes.getD i 0
  { magic := getLE b 0 4, entry := getLE b 24 8, phoff := getLE b 32 8, phnum := getLE b 56 2 }

/-- The fields of a `struct proghdr`. -/
def ProgHdr.ofBytes (bytes : List UInt8) : ProgHdr :=
  let b : Buffer := fun i => bytes.getD i 0
  { type := getLE b 0 4, flags := getLE b 4 4, off := getLE b 8 8, vaddr := getLE b 16 8
    filesz := getLE b 32 8, memsz := getLE b 40 8 }

def flags2perm (flags : Nat) : Nat :=
  (if flags &&& 1 ≠ 0 then PTE_X else 0) ||| (if flags &&& 2 ≠ 0 then PTE_W else 0)

def beginOp : KernelM Unit := modify fun s => { s with outstanding := s.outstanding + 1 }

def endOp : KernelM Unit := do
  modify fun s => { s with outstanding := s.outstanding - 1 }
  onFs OsProject.endOp

/-- `a - b`, which wraps. -/
def sub64 (a b : Nat) : Nat := (a + (2 ^ 64 - b % 2 ^ 64)) % 2 ^ 64

variable (L : Layout) (sb : Superblock)

/-- `readi` to kernel memory. -/
def readKernel (ip : Slot) (off n : Nat) : KernelM (Int × List UInt8) :=
  onFs (readi sb ip (fun _ => true) off n)

/-- The loop of `loadseg`; `i` is a `uint`. -/
def loadPages (pagetable va : Nat) (ip : Slot) (offset sz : Nat) : Nat → Nat → KernelM Int
  | 0, i => if i < sz then throw (.vm .endless) else return 0
  | turns + 1, i =>
    if i < sz then do
      let pa ← onPhys (walkaddr pagetable ((va + i) % 2 ^ 64))
      if pa = 0 then throw (.vm .loadseg)
      let n := if sz - i < PGSIZE then sz - i else PGSIZE
      let r ← readKernel sb ip ((offset + i) % 2 ^ 32) n
      onPhys (modify fun m => { m with mem := putBytes m.mem pa r.2 })
      if r.1 ≠ n then return -1
      loadPages pagetable va ip offset sz turns ((i + PGSIZE) % 2 ^ 32)
    else return 0

/-- `offset` and `sz` are `uint`. -/
def loadseg (pagetable va : Nat) (ip : Slot) (offset sz : Nat) : KernelM Int :=
  loadPages sb pagetable va ip (offset % 2 ^ 32) (sz % 2 ^ 32) (sz % 2 ^ 32 / PGSIZE + 1) 0

/-- One program header. The result is the new size, and whether the loading goes on. -/
def loadSegment (pagetable : Nat) (ip : Slot) (off sz : Nat) : KernelM (Bool × Nat) := do
  let r ← readKernel sb ip off 56
  if r.1 ≠ 56 then return (false, sz)
  let ph := ProgHdr.ofBytes r.2
  if ph.type ≠ ELF_PROG_LOAD then return (true, sz)
  if ph.memsz < ph.filesz then return (false, sz)
  if (ph.vaddr + ph.memsz) % 2 ^ 64 < ph.vaddr then return (false, sz)
  if ph.vaddr % PGSIZE ≠ 0 then return (false, sz)
  let sz1 ← onPhys (uvmalloc L pagetable sz ((ph.vaddr + ph.memsz) % 2 ^ 64) (flags2perm ph.flags))
  if sz1 = 0 then return (false, sz)
  if (← loadseg sb pagetable ph.vaddr ip ph.off ph.filesz) < 0 then return (false, sz1)
  return (true, sz1)

/-- The loop over the program headers; `off` is an `int` that is passed on as a `uint`. -/
def loadSegments (pagetable : Nat) (ip : Slot) : Nat → Nat → Nat → KernelM (Bool × Nat)
  | 0, _, sz => return (true, sz)
  | n + 1, off, sz => do
    let r ← loadSegment L sb pagetable ip off sz
    if r.1 then loadSegments pagetable ip n ((off + 56) % 2 ^ 32) r.2 else return r

/-- The strings of `argv` on the new stack; the result is `sp` and `ustack`. -/
def pushArgs (p : AddrSpace) (pagetable stackbase : Nat) :
    List (List UInt8) → Nat → List Nat → KernelM (Option (Nat × List Nat))
  | [], sp, ustack => return some (sp, ustack)
  | arg :: argv, sp, ustack => do
    if MAXARG ≤ ustack.length then return none
    let sp := sub64 sp (arg.length + 1)
    let sp := sp - sp % 16
    if sp < stackbase then return none
    if (← onPhys (copyout L p pagetable sp (arg ++ [0]))) < 0 then return none
    pushArgs p pagetable stackbase argv sp (ustack ++ [sp])

/-- The words of `ustack`, with the 0 at the end. -/
def ustackBytes (ustack : List Nat) : List UInt8 :=
  (ustack ++ [0]).flatMap fun v => bytesFrom (putLE (fun _ => 0) 0 8 v) 0 8

/-- The stack is allocated and filled. The result is the new size, with `sp` and `argc` where it
could be done. -/
def buildStack (p : AddrSpace) (pagetable sz : Nat) (argv : List (List UInt8)) :
    KernelM (Nat × Option (Nat × Nat)) := do
  let sz := PGROUNDUP sz
  let sz1 ← onPhys (uvmalloc L pagetable sz ((sz + (USERSTACK + 1) * PGSIZE) % 2 ^ 64) PTE_W)
  if sz1 = 0 then return (sz, none)
  onPhys (uvmclear pagetable (sub64 sz1 ((USERSTACK + 1) * PGSIZE)))
  let stackbase := sub64 sz1 (USERSTACK * PGSIZE)
  match ← pushArgs L p pagetable stackbase argv sz1 [] with
  | none => return (sz1, none)
  | some (sp, ustack) =>
    let sp := sub64 sp ((ustack.length + 1) * 8)
    let sp := sp - sp % 16
    if sp < stackbase then return (sz1, none)
    if (← onPhys (copyout L p pagetable sp (ustackBytes ustack))) < 0 then return (sz1, none)
    return (sz1, some (sp, ustack.length))

/-- `safestrcpy` of the last element of the path to `p->name`. -/
def execName (path : List UInt8) : List UInt8 :=
  ((path.reverse.takeWhile (· ≠ SLASH)).reverse).take 15

/-- The code at the label `bad`. -/
def execBad (pagetable : Option Nat) (sz : Nat) (ip : Option Slot) : KernelM Int := do
  onPhys (match pagetable with
    | some pagetable => procFreepagetable L pagetable sz
    | none => pure ())
  match ip with
  | some ip =>
    onFs (iunlockput sb ip)
    endOp
    return -1
  | none => return -1

def execCommit (me : Fin NPROC) (path : List UInt8) (pagetable sz sp entry : Nat) : KernelM Unit := do
  let p ← getProc me
  onPhys (modify fun m => { m with mem := putLE m.mem (p.trapframe + 120) 8 sp })
  modProc me fun q => { q with name := execName path, pagetable := pagetable, sz := sz }
  onPhys (modify fun m => { m with mem := putLE m.mem (p.trapframe + 24) 8 entry })
  onPhys (modify fun m => { m with mem := putLE m.mem (p.trapframe + 48) 8 sp })
  onPhys (procFreepagetable L p.pagetable p.sz)

/-- `argv` are the strings without their NUL. -/
def kexec (me : Fin NPROC) (path : List UInt8) (argv : List (List UInt8)) : KernelM Int := do
  beginOp
  match ← onFs (namei sb me path) with
  | none =>
    endOp
    return -1
  | some ip =>
    onFs (ilock ip)
    let r ← readKernel sb ip 0 64
    if r.1 ≠ 64 then execBad L sb none 0 (some ip) else
    let elf := ElfHdr.ofBytes r.2
    if elf.magic ≠ ELF_MAGIC then execBad L sb none 0 (some ip) else
    let p ← getProc me
    match ← onPhys (procPagetable L p.trapframe) with
    | none => execBad L sb none 0 (some ip)
    | some pagetable =>
      let (ok, sz) ← loadSegments L sb pagetable ip elf.phnum (elf.phoff % 2 ^ 32) 0
      if !ok then execBad L sb (some pagetable) sz (some ip) else
      onFs (iunlockput sb ip)
      endOp
      match ← buildStack L ⟨p.pagetable, p.sz⟩ pagetable sz argv with
      | (sz, none) => execBad L sb (some pagetable) sz none
      | (sz, some (sp, argc)) =>
        execCommit L me path pagetable sz sp elf.entry
        return argc

end OsProject.Vm
