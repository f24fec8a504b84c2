import OsProject.Sv39

/-! The user address spaces of `vm.c`: page tables, allocation of user memory, and the copies
between the kernel and user space. -/

namespace OsProject.Vm

variable (L : Layout)

/-- The loop of `walk` from `level` down. The result is the address of the entry. -/
def walkFrom (va : Nat) (alloc : Bool) : Nat → Nat → VmM (Option Nat)
  | 0, pagetable => return some (pagetable + 8 * PX 0 va)
  | level + 1, pagetable => do
    let entry := pagetable + 8 * PX (level + 1) va
    let pte ← loadPte entry
    if pte &&& PTE_V ≠ 0 then walkFrom va alloc level (PTE2PA pte)
    else if !alloc then return none
    else
      match ← kalloc with
      | none => return none
      | some page =>
        zeroPage page
        storePte entry (PA2PTE page ||| PTE_V)
        walkFrom va alloc level page

def walk (pagetable va : Nat) (alloc : Bool) : VmM (Option Nat) := do
  if MAXVA ≤ va then throw .walk
  walkFrom va alloc 2 pagetable

def walkaddr (pagetable va : Nat) : VmM Nat := do
  if MAXVA ≤ va then return 0
  match ← walk pagetable va false with
  | none => return 0
  | some entry =>
    let pte ← loadPte entry
    if pte &&& PTE_V = 0 then return 0
    if pte &&& PTE_U = 0 then return 0
    return PTE2PA pte

def mapLoop (pagetable last perm : Nat) : Nat → Nat → Nat → VmM Int
  | 0, _, _ => throw .endless
  | n + 1, a, pa => do
    match ← walk pagetable a true with
    | none => return -1
    | some entry =>
      let pte ← loadPte entry
      if pte &&& PTE_V ≠ 0 then throw .remap
      storePte entry (mkPte pa perm)
      if a = last then return 0
      mapLoop pagetable last perm n ((a + PGSIZE) % 2 ^ 64) ((pa + PGSIZE) % 2 ^ 64)

def mappages (pagetable va size pa perm : Nat) : VmM Int := do
  if va % PGSIZE ≠ 0 then throw .mappagesVa
  if size % PGSIZE ≠ 0 then throw .mappagesSizeAligned
  if size = 0 then throw .mappagesSize
  mapLoop pagetable ((va + size - PGSIZE) % 2 ^ 64) perm (size / PGSIZE) va pa

def uvmcreate : VmM (Option Nat) := do
  match ← kalloc with
  | none => return none
  | some pagetable =>
    zeroPage pagetable
    return some pagetable

/-- One turn of the loop of `uvmunmap`. -/
def unmapPage (pagetable a : Nat) (doFree : Bool) : VmM Unit := do
  match ← walk pagetable a false with
  | none => return
  | some entry =>
    let pte ← loadPte entry
    if pte &&& PTE_V = 0 then return
    if doFree then kfree L (PTE2PA pte)
    storePte entry 0

def unmapLoop (pagetable stop : Nat) (doFree : Bool) : Nat → Nat → VmM Unit
  | 0, a => if a < stop then throw .endless else return
  | n + 1, a =>
    if a < stop then do
      unmapPage L pagetable a doFree
      unmapLoop pagetable stop doFree n ((a + PGSIZE) % 2 ^ 64)
    else return

def uvmunmap (pagetable va npages : Nat) (doFree : Bool) : VmM Unit := do
  if va % PGSIZE ≠ 0 then throw .uvmunmap
  unmapLoop L pagetable ((va + npages * PGSIZE) % 2 ^ 64) doFree npages va

/-- A `uint64` that went through an `int`. -/
def throughInt (x : Nat) : Nat := (int32 (x % 2 ^ 32) % 2 ^ 64).toNat

def uvmdealloc (pagetable oldsz newsz : Nat) : VmM Nat := do
  if oldsz ≤ newsz then return oldsz
  if PGROUNDUP newsz < PGROUNDUP oldsz then
    let npages := throughInt ((PGROUNDUP oldsz - PGROUNDUP newsz) / PGSIZE)
    uvmunmap L pagetable (PGROUNDUP newsz) npages true
  return newsz

/-- The steps that `uvmalloc`, `uvmcopy` and `vmfault` share: a page is allocated, filled and
mapped, and given back when the mapping fails. -/
def mapNew (pagetable va perm : Nat) (fill : Nat → Buffer → Buffer) : VmM (Option Nat) := do
  match ← kalloc with
  | none => return none
  | some mem =>
    modify fun s => { s with mem := fill mem s.mem }
    if (← mappages pagetable va PGSIZE mem perm) ≠ 0 then
      kfree L mem
      return none
    return some mem

def fillZero (page : Nat) (mem : Buffer) : Buffer := memset mem page 0 PGSIZE

/-- `a` is where the loop has got to, and `oldsz` where it began. -/
def allocLoop (pagetable oldsz newsz xperm : Nat) : Nat → Nat → VmM Nat
  | 0, a => if a < newsz then throw .endless else return newsz
  | n + 1, a =>
    if a < newsz then do
      match ← mapNew L pagetable a (PTE_R ||| PTE_U ||| xperm) fillZero with
      | none =>
        let _ ← uvmdealloc L pagetable a oldsz
        return 0
      | some _ => allocLoop pagetable oldsz newsz xperm n ((a + PGSIZE) % 2 ^ 64)
    else return newsz

def uvmalloc (pagetable oldsz newsz xperm : Nat) : VmM Nat := do
  if newsz < oldsz then return oldsz
  allocLoop L pagetable (PGROUNDUP oldsz) newsz xperm (newsz / PGSIZE + 1) (PGROUNDUP oldsz)

/-- One turn of the loop of `freewalk`, where `descend` frees a lower table. -/
def freeEntry (descend : Nat → VmM Unit) (pagetable : Nat) (i : Index) : VmM Unit := do
  let entry := pagetable + 8 * i
  let pte ← loadPte entry
  if pte &&& PTE_V ≠ 0 ∧ pte &&& (PTE_R ||| PTE_W ||| PTE_X) = 0 then
    descend (PTE2PA pte)
    storePte entry 0
  else if pte &&& PTE_V ≠ 0 then throw .freewalkLeaf

def freewalk : Nat → Nat → VmM Unit
  | 0, _ => throw .endless
  | depth + 1, pagetable => do
    forM entries (freeEntry (freewalk depth) pagetable)
    kfree L pagetable

def uvmfree (pagetable sz : Nat) : VmM Unit := do
  if 0 < sz then uvmunmap L pagetable 0 (PGROUNDUP sz / PGSIZE) true
  freewalk L 3 pagetable

def uvmclear (pagetable va : Nat) : VmM Unit := do
  match ← walk pagetable va false with
  | none => throw .uvmclear
  | some entry =>
    let pte ← loadPte entry
    storePte entry (pte &&& (2 ^ 64 - 1 - PTE_U))

/-- What `vmfault` reads of the running process. -/
structure AddrSpace where
  pagetable : Nat
  sz : Nat

def ismapped (pagetable va : Nat) : VmM Bool := do
  match ← walk pagetable va false with
  | none => return false
  | some entry =>
    let pte ← loadPte entry
    return pte &&& PTE_V ≠ 0

def vmfault (p : AddrSpace) (pagetable va : Nat) : VmM Nat := do
  if p.sz ≤ va then return 0
  let va := PGROUNDDOWN va
  if ← ismapped pagetable va then return 0
  match ← mapNew L p.pagetable va (PTE_W ||| PTE_U ||| PTE_R) fillZero with
  | none => return 0
  | some mem => return mem

/-- The physical page of a user page, which is faulted in where it is missing. -/
def userPage (p : AddrSpace) (pagetable va0 : Nat) : VmM Nat := do
  let pa0 ← walkaddr pagetable va0
  if pa0 = 0 then vmfault L p pagetable va0 else return pa0

def copyoutLoop (p : AddrSpace) (pagetable : Nat) : Nat → Nat → List UInt8 → VmM Int
  | 0, _, src => if 0 < src.length then throw .endless else return 0
  | turns + 1, dstva, src =>
    if 0 < src.length then do
      let va0 := PGROUNDDOWN dstva
      if MAXVA ≤ va0 then return -1
      let pa0 ← userPage L p pagetable va0
      if pa0 = 0 then return -1
      match ← walk pagetable va0 false with
      | none => throw .kerneltrap
      | some entry =>
        let pte ← loadPte entry
        if pte &&& PTE_W = 0 then return -1
        let n := min (PGSIZE - (dstva - va0)) src.length
        modify fun s => { s with mem := putBytes s.mem (pa0 + (dstva - va0)) (src.take n) }
        copyoutLoop p pagetable turns ((va0 + PGSIZE) % 2 ^ 64) (src.drop n)
    else return 0

def copyout (p : AddrSpace) (pagetable dstva : Nat) (src : List UInt8) : VmM Int :=
  copyoutLoop L p pagetable src.length dstva src

def copyinLoop (p : AddrSpace) (pagetable : Nat) : Nat → Nat → Nat → VmM (Int × List UInt8)
  | 0, _, len => if 0 < len then throw .endless else return (0, [])
  | turns + 1, srcva, len =>
    if 0 < len then do
      let va0 := PGROUNDDOWN srcva
      let pa0 ← userPage L p pagetable va0
      if pa0 = 0 then return (-1, [])
      let n := min (PGSIZE - (srcva - va0)) len
      let s ← get
      let bytes := bytesFrom s.mem (pa0 + (srcva - va0)) n
      let (ret, rest) ← copyinLoop p pagetable turns ((va0 + PGSIZE) % 2 ^ 64) (len - n)
      return (ret, bytes ++ rest)
    else return (0, [])

def copyin (p : AddrSpace) (pagetable srcva len : Nat) : VmM (Int × List UInt8) :=
  copyinLoop L p pagetable len srcva len

def untilNul : List UInt8 → List UInt8 × Bool
  | [] => ([], false)
  | b :: bs => if b = 0 then ([0], true) else (b :: (untilNul bs).1, (untilNul bs).2)

def copyinstrLoop (pagetable : Nat) : Nat → Nat → Nat → VmM (Int × List UInt8)
  | 0, _, max => if 0 < max then throw .endless else return (-1, [])
  | turns + 1, srcva, max =>
    if 0 < max then do
      let va0 := PGROUNDDOWN srcva
      let pa0 ← walkaddr pagetable va0
      if pa0 = 0 then return (-1, [])
      let n := min (PGSIZE - (srcva - va0)) max
      let s ← get
      let (bytes, gotNull) := untilNul (bytesFrom s.mem (pa0 + (srcva - va0)) n)
      if gotNull then return (0, bytes)
      let (ret, rest) ← copyinstrLoop pagetable turns ((va0 + PGSIZE) % 2 ^ 64) (max - n)
      return (ret, bytes ++ rest)
    else return (-1, [])

def copyinstr (pagetable srcva max : Nat) : VmM (Int × List UInt8) :=
  copyinstrLoop pagetable max srcva max

end OsProject.Vm
