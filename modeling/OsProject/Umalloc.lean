import OsProject.Hoare
import OsProject.ProcMem
import OsProject.Runs

/-! The allocator of `umalloc.c`, in the memory of a process that `sbrk` grows. -/

namespace OsProject.Umalloc

open Vm

def sizeofHeader : Nat := 16

/-- `size` counts units of `sizeofHeader` bytes. -/
structure Header where
  ptr : Nat
  size : Nat
  deriving DecidableEq, Repr

inductive Trap
  | fault
  | endless
  deriving DecidableEq, Repr

/-- `hdr` is the memory, read as headers, and `grown` has the regions that `sbrk` has added. -/
structure Heap where
  hdr : Nat → Header
  freep : Nat := 0
  sz : Nat
  grown : List (Nat × Nat) := []

abbrev UserM := StateT Heap (Except Trap)

/-- The bytes of physical memory. Every page of the process takes one page of it. -/
def PHYSSIZE : Nat := PHYSTOP - KERNBASE

/-- A bound on the turns of a loop over the free list, which has at most one header in each unit. -/
@[irreducible] def turns : Nat := 2 * (PHYSSIZE / sizeofHeader) + 4

def Mapped (s : Heap) (a : Nat) : Prop := a + sizeofHeader ≤ PGROUNDUP s.sz

instance (s : Heap) (a : Nat) : Decidable (Mapped s a) := inferInstanceAs (Decidable (_ ≤ _))

def load (a : Nat) : UserM Header := do
  let s ← get
  if Mapped s a then return s.hdr a
  throw .fault

def store (a : Nat) (h : Header) : UserM Unit := do
  let s ← get
  if Mapped s a then set { s with hdr := Function.update s.hdr a h }
  else throw .fault

def setPtr (a ptr : Nat) : UserM Unit := do
  store a { ← load a with ptr := ptr }

def setSize (a size : Nat) : UserM Unit := do
  store a { ← load a with size := size }

/-- `none` is `SBRK_ERROR`. New pages come zeroed, and `room` tells whether there is memory. -/
def sbrk (n : Int) (room : Bool) : UserM (Option Nat) := do
  let s ← get
  if 0 < n then
    if TRAPFRAME < addInt s.sz n then return none
    if room = false ∨ PHYSSIZE < PGROUNDUP (addInt s.sz n) then return none
    set { s with
      hdr := fun a => if PGROUNDUP s.sz ≤ a then ⟨0, 0⟩ else s.hdr a
      sz := addInt s.sz n
      grown := (s.sz, n.toNat) :: s.grown }
    return some s.sz
  if n < 0 ∧ addInt s.sz n < s.sz then set { s with sz := addInt s.sz n }
  return some s.sz

/-- The loop of `free` from `p`. -/
def freeLoop (bp : Nat) : Nat → Nat → UserM Nat
  | 0, _ => throw .endless
  | fuel + 1, p => do
    let next := (← load p).ptr
    if p < bp ∧ bp < next then return p
    if next ≤ p ∧ (p < bp ∨ bp < next) then return p
    freeLoop bp fuel next

/-- The block at `p` takes the one at `bp` if that begins where it ends; otherwise it points to it. -/
def joinNext (p bp : Nat) : UserM Unit := do
  if p + sizeofHeader * (← load p).size = bp then
    setSize p (((← load p).size + (← load bp).size) % 2 ^ 32)
    setPtr p (← load bp).ptr
  else setPtr p bp

def free (ap : Nat) : UserM Unit := do
  let bp := ap - sizeofHeader
  let p ← freeLoop bp turns (← get).freep
  joinNext bp (← load p).ptr
  joinNext p bp
  modify fun s => { s with freep := p }

/-- The conversion to `int`. -/
@[irreducible] def toInt (n : Nat) : Int := (n : Int).bmod (2 ^ 32)

def morecore (nu : Nat) (room : Bool) : UserM Nat := do
  let nu := if nu < 4096 then 4096 else nu
  match ← sbrk (toInt (nu * sizeofHeader)) room with
  | none => return 0
  | some hp =>
    setSize hp nu
    free (hp + sizeofHeader)
    return (← get).freep

/-- The last `nunits` of the block at `p` are given out, or all of it. -/
def take (nunits prevp p : Nat) : UserM Nat := do
  let h ← load p
  if h.size = nunits then
    setPtr prevp h.ptr
    modify fun s => { s with freep := prevp }
    return p + sizeofHeader
  else
    setSize p (h.size - nunits)
    let q := p + sizeofHeader * (h.size - nunits)
    setSize q nunits
    modify fun s => { s with freep := prevp }
    return q + sizeofHeader

/-- The loop of `malloc` at `p`, which comes after `prevp`. -/
def mallocLoop (nunits : Nat) (room : Bool) : Nat → Nat → Nat → UserM Nat
  | 0, _, _ => throw .endless
  | fuel + 1, prevp, p => do
    if nunits ≤ (← load p).size then take nunits prevp p
    else if p = (← get).freep then
      let p ← morecore nunits room
      if p = 0 then return 0
      mallocLoop nunits room fuel p (← load p).ptr
    else mallocLoop nunits room fuel p (← load p).ptr

def units (nbytes : Nat) : Nat := ((nbytes + sizeofHeader - 1) / sizeofHeader + 1) % 2 ^ 32

/-- `base` is the address of the static header, and a result of 0 is the null pointer. -/
def malloc (base nbytes : Nat) (room : Bool) : UserM Nat := do
  if (← get).freep = 0 then
    setPtr base base
    modify fun s => { s with freep := base }
    setSize base 0
  let prevp := (← get).freep
  mallocLoop (units nbytes) room turns prevp (← load prevp).ptr

/-- A process as `exec` leaves it: the static header is below the heap, which begins at a page. -/
structure Image where
  base : Nat
  start : Nat
  base_pos : 0 < base
  base_below : base + sizeofHeader ≤ start
  aligned : start % Vm.PGSIZE = 0
  fits : start ≤ PHYSSIZE

/-- `live` has the results that have not been freed, with the number of bytes asked for. -/
structure Program where
  heap : Heap
  live : List (Nat × Nat) := []
  killed : Bool := false

inductive Call
  | malloc (nbytes : UInt32) (room : Bool)
  | free (ap : Nat)
  deriving DecidableEq, Repr

def callStep (I : Image) (s : Program) (e : Call) : Program :=
  if s.killed then s
  else match e with
  | .malloc nbytes room =>
    match malloc I.base nbytes.toNat room s.heap with
    | .ok (r, heap) => { s with
        heap := heap
        live := if r = 0 then s.live else (r, nbytes.toNat) :: s.live }
    | .error _ => { s with killed := true }
  | .free ap =>
    if ap ∈ s.live.map Prod.fst then
      match free ap s.heap with
      | .ok (_, heap) => { s with heap := heap, live := s.live.filter fun b => b.1 ≠ ap }
      | .error _ => { s with killed := true }
    else s

def Image.run (I : Image) (hdr : Nat → Header) : Program := ⟨{ hdr := hdr, sz := I.start }, [], false⟩

end OsProject.Umalloc
