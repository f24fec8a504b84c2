import OsProject.ByteField

/-! Sv39 page-table entries and physical memory, with the page allocator of `kalloc.c`. Machine
words are natural numbers, and sums that can wrap are taken modulo `2 ^ 64`. -/

namespace OsProject.Vm

def PGSIZE : Nat := 4096
def MAXVA : Nat := 2 ^ 38
def TRAMPOLINE : Nat := MAXVA - PGSIZE
def TRAPFRAME : Nat := TRAMPOLINE - PGSIZE
def KERNBASE : Nat := 0x80000000
def PHYSTOP : Nat := KERNBASE + 128 * 1024 * 1024

def PTE_V : Nat := 1
def PTE_R : Nat := 2
def PTE_W : Nat := 4
def PTE_X : Nat := 8
def PTE_U : Nat := 16

def PGROUNDUP (a : Nat) : Nat := (a + PGSIZE - 1) % 2 ^ 64 / PGSIZE * PGSIZE
def PGROUNDDOWN (a : Nat) : Nat := a / PGSIZE * PGSIZE

def PA2PTE (pa : Nat) : Nat := pa >>> 12 <<< 10
def PTE2PA (pte : Nat) : Nat := (pte >>> 10 <<< 12) % 2 ^ 64
def PTE_FLAGS (pte : Nat) : Nat := pte &&& 0x3FF

abbrev Index := Fin 512

/-- The entries of a page-table page, in the order of the loop of `freewalk`. -/
@[irreducible] def entries : List Index := List.finRange 512

theorem mem_entries (i : Index) : i ∈ entries := by
  unfold entries
  exact List.mem_finRange i

def PX (level va : Nat) : Index :=
  ⟨va >>> (12 + 9 * level) &&& 0x1FF, Nat.lt_succ_of_le Nat.and_le_right⟩

/-- Where the linker put the kernel: the trampoline page ends its text, and `kend` is `end`. -/
structure Layout where
  trampoline : Nat
  etext : Nat
  kend : Nat
  base : KERNBASE ≤ trampoline
  aligned : trampoline % PGSIZE = 0
  text : etext = trampoline + PGSIZE
  data : etext ≤ kend
  ram : kend ≤ PHYSTOP

/-- A kernel that leaves the last eight pages of the RAM to the allocator. -/
def smallLayout : Layout where
  trampoline := KERNBASE
  etext := KERNBASE + PGSIZE
  kend := PHYSTOP - 8 * PGSIZE
  base := by decide
  aligned := by decide
  text := by decide
  data := by decide
  ram := by decide

/-- The pages that `freerange` hands to the allocator. -/
def Layout.Page (L : Layout) (p : Nat) : Prop := p % PGSIZE = 0 ∧ L.kend ≤ p ∧ p < PHYSTOP

instance (L : Layout) (p : Nat) : Decidable (L.Page p) := inferInstanceAs (Decidable (_ ∧ _))

/-- The free list is threaded through the first word of each free page, which nobody reads
while the page is free. -/
structure Phys where
  mem : Buffer
  freelist : List Nat

/-- `kerneltrap` is a null pointer, and `endless` a loop that never gets to its end. -/
inductive VmPanic
  | kfree | walk | mappagesVa | mappagesSizeAligned | mappagesSize | remap | uvmunmap
  | freewalkLeaf | uvmclear | kvmmap | kalloc | loadseg | initExiting | kerneltrap | endless
  deriving DecidableEq, Repr

abbrev VmM := StateT Phys (Except VmPanic)

def memset (mem : Buffer) (dst : Nat) (c : UInt8) (n : Nat) : Buffer := fun a =>
  if dst ≤ a ∧ a < dst + n then c else mem a

def memmove (mem : Buffer) (dst src n : Nat) : Buffer := fun a =>
  if dst ≤ a ∧ a < dst + n then mem (src + (a - dst)) else mem a

/-- `bs` stored at `dst`. -/
def putBytes (mem : Buffer) (dst : Nat) (bs : List UInt8) : Buffer := fun a =>
  if dst ≤ a then bs.getD (a - dst) (mem a) else mem a

def kalloc : VmM (Option Nat) := do
  let s ← get
  match s.freelist with
  | [] => return none
  | r :: next =>
    set (Phys.mk (memset s.mem r 5 PGSIZE) next)
    return some r

def kfree (L : Layout) (pa : Nat) : VmM Unit := do
  if pa % PGSIZE ≠ 0 ∨ pa < L.kend ∨ PHYSTOP ≤ pa then throw .kfree
  modify fun s => ⟨memset s.mem pa 1 PGSIZE, pa :: s.freelist⟩

def zeroPage (pa : Nat) : VmM Unit := modify fun s => { s with mem := memset s.mem pa 0 PGSIZE }

def loadPte (a : Nat) : VmM Nat := do
  let s ← get
  return getLE s.mem a 8

def storePte (a v : Nat) : VmM Unit := modify fun s => { s with mem := putLE s.mem a 8 v }

/-- The entry that `mappages` writes. -/
def mkPte (pa perm : Nat) : Nat := PA2PTE pa ||| perm ||| PTE_V

section Entries

variable {v pa perm b : Nat}

theorem flags_eq (v : Nat) : PTE_FLAGS v = v % 1024 := Nat.and_two_pow_sub_one_eq_mod v 10

theorem PTE2PA_eq (hv : v < 2 ^ 62) : PTE2PA v = v / 1024 * 4096 := by
  simp only [PTE2PA, Nat.shiftRight_eq_div_pow, Nat.shiftLeft_eq]
  omega

theorem PTE2PA_aligned (v : Nat) : PTE2PA v % PGSIZE = 0 := by
  simp only [PTE2PA, Nat.shiftRight_eq_div_pow, Nat.shiftLeft_eq, PGSIZE]
  omega

theorem and_flags (hb : b < 1024) (v : Nat) : v &&& b = PTE_FLAGS v &&& b := by
  have hmod : (v &&& b) % 1024 = v % 1024 &&& b % 1024 := Nat.and_mod_two_pow (n := 10)
  have hle : v &&& b ≤ b := Nat.and_le_right
  rw [Nat.mod_eq_of_lt (by omega), Nat.mod_eq_of_lt hb] at hmod
  rw [flags_eq, hmod]

theorem mkPte_eq (hperm : perm < 1024) : mkPte pa perm = pa / 4096 * 1024 + (perm ||| PTE_V) := by
  have hlow : perm ||| PTE_V < 2 ^ 10 := Nat.or_lt_two_pow hperm (by decide)
  rw [mkPte, Nat.or_assoc, PA2PTE, Nat.shiftRight_eq_div_pow,
    ← Nat.shiftLeft_add_eq_or_of_lt hlow, Nat.shiftLeft_eq]

theorem mkPte_lt (hpa : pa < 2 ^ 64) (hperm : perm < 1024) : mkPte pa perm < 2 ^ 62 := by
  have hlow : perm ||| PTE_V < 2 ^ 10 := Nat.or_lt_two_pow hperm (by decide)
  rw [mkPte_eq hperm]
  omega

theorem PTE2PA_mkPte (hpa : pa < 2 ^ 64) (hperm : perm < 1024) :
    PTE2PA (mkPte pa perm) = PGROUNDDOWN pa := by
  have hlow : perm ||| PTE_V < 2 ^ 10 := Nat.or_lt_two_pow hperm (by decide)
  rw [PTE2PA_eq (mkPte_lt hpa hperm), mkPte_eq hperm, PGROUNDDOWN, PGSIZE]
  omega

theorem flags_mkPte (hperm : perm < 1024) : PTE_FLAGS (mkPte pa perm) = perm ||| PTE_V := by
  have hlow : perm ||| PTE_V < 2 ^ 10 := Nat.or_lt_two_pow hperm (by decide)
  rw [flags_eq, mkPte_eq hperm]
  omega

theorem or_V_valid (perm : Nat) : (perm ||| PTE_V) &&& PTE_V ≠ 0 := by
  rw [Nat.and_or_distrib_right]
  intro h
  have h1 : PTE_V &&& PTE_V = 0 := (Nat.or_eq_zero_iff.mp h).2
  exact absurd h1 (by decide)

theorem mkPte_valid (hperm : perm < 1024) : mkPte pa perm &&& PTE_V ≠ 0 := by
  rw [and_flags (by decide), flags_mkPte hperm]
  exact or_V_valid perm

theorem clearU (hv : v < 2 ^ 64) :
    v &&& (2 ^ 64 - 1 - PTE_U) < 2 ^ 64 ∧ PTE2PA (v &&& (2 ^ 64 - 1 - PTE_U)) = PTE2PA v ∧
      PTE_FLAGS (v &&& (2 ^ 64 - 1 - PTE_U)) = PTE_FLAGS v &&& (0x3FF - PTE_U) := by
  have hle : v &&& (2 ^ 64 - 1 - PTE_U) ≤ v := Nat.and_le_left
  have hdiv : (v &&& (2 ^ 64 - 1 - PTE_U)) / 2 ^ 10 = v / 2 ^ 10 &&& (2 ^ 54 - 1) :=
    Nat.and_div_two_pow
  have hmod : (v &&& (2 ^ 64 - 1 - PTE_U)) % 2 ^ 10 = v % 2 ^ 10 &&& (0x3FF - PTE_U) :=
    Nat.and_mod_two_pow
  rw [Nat.and_two_pow_sub_one_eq_mod, Nat.mod_eq_of_lt (by omega)] at hdiv
  refine ⟨by omega, ?_, ?_⟩
  · rw [PTE2PA, PTE2PA, Nat.shiftRight_eq_div_pow, Nat.shiftRight_eq_div_pow, hdiv]
  · rw [flags_eq, flags_eq]
    exact hmod

end Entries

section Pages

variable {mem mem' mem'' : Buffer} {p q t a off v : Nat} {i j : Index}

def SamePage (mem mem' : Buffer) (p : Nat) : Prop := ∀ a, PGROUNDDOWN a = p → mem' a = mem a

/-- The entry `i` of the page-table page `t`. -/
def pte (mem : Buffer) (t : Nat) (i : Index) : Nat := getLE mem (t + 8 * i) 8

theorem SamePage.refl (mem : Buffer) (p : Nat) : SamePage mem mem p := fun _ _ => rfl

theorem SamePage.trans (h : SamePage mem mem' p) (h' : SamePage mem' mem'' p) :
    SamePage mem mem'' p := fun a ha => (h' a ha).trans (h a ha)

theorem rounddown_page (hp : p % PGSIZE = 0) (hoff : off < PGSIZE) :
    PGROUNDDOWN (p + off) = p := by
  unfold PGROUNDDOWN PGSIZE at *
  omega

theorem pte_lt (mem : Buffer) (t : Nat) (i : Index) : pte mem t i < 2 ^ 64 := getLE_lt mem _ 8

theorem pte_congr (ht : t % PGSIZE = 0) (h : SamePage mem mem' t) (i : Index) :
    pte mem' t i = pte mem t i := by
  apply getLE_congr
  intro a ha ha'
  obtain ⟨off, rfl⟩ := Nat.exists_eq_add_of_le (show t ≤ a by omega)
  refine h _ (rounddown_page ht ?_)
  have := i.isLt
  unfold PGSIZE
  omega

theorem samePage_memset (hp : p % PGSIZE = 0) (hq : q ≠ p) (c : UInt8) :
    SamePage mem (memset mem p c PGSIZE) q := by
  intro a ha
  refine if_neg ?_
  rintro ⟨h1, h2⟩
  unfold PGROUNDDOWN PGSIZE at *
  omega

theorem samePage_putLE (ht : t % PGSIZE = 0) (hq : q ≠ t) (i : Index) (v : Nat) :
    SamePage mem (putLE mem (t + 8 * i) 8 v) q := by
  intro a ha
  apply putLE_outside
  have := i.isLt
  unfold PGROUNDDOWN PGSIZE at *
  omega

theorem pte_putLE (hv : v < 2 ^ 64) : pte (putLE mem (t + 8 * i) 8 v) t i = v :=
  getLE_putLE_of_lt hv

theorem pte_putLE_of_ne (hij : j ≠ i) : pte (putLE mem (t + 8 * i) 8 v) t j = pte mem t j := by
  apply getLE_putLE_disjoint
  have : (j : Nat) ≠ i := fun h => hij (Fin.ext h)
  omega

theorem pte_memset_zero (mem : Buffer) (t : Nat) (i : Index) :
    pte (memset mem t 0 PGSIZE) t i = 0 := by
  rw [pte, getLE_congr (b := fun _ => 0), getLE_zero]
  intro a ha ha'
  have := i.isLt
  refine if_pos ⟨by omega, ?_⟩
  unfold PGSIZE
  omega

end Pages

end OsProject.Vm
