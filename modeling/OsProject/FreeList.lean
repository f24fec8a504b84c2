import OsProject.MallocSpec

/-! `free` on any well-formed list of free blocks, of any length and wherever `freep` points. Sizes are
32-bit, so that a block that takes its neighbours may lose `2 ^ 32` units. -/

namespace OsProject.Umalloc

open Vm

/-- `free` with a bound on the turns of its loop. -/
def freeWith (fuel ap : Nat) : UserM Unit := do
  let bp := ap - sizeofHeader
  let p ← freeLoop bp fuel (← get).freep
  joinNext bp (← load p).ptr
  joinNext p bp
  modify fun s => { s with freep := p }

theorem free_eq_freeWith (ap : Nat) : free ap = freeWith turns ap := rfl

namespace Heap

def size (s : Heap) (a : Nat) : Nat := (s.hdr a).size

variable (s : Heap) (a x y n : Nat)

@[simp] theorem size_putPtr : (s.putPtr a x).size = s.size := by
  funext b
  simp only [size, putPtr, Function.update_apply]
  split_ifs with h
  · rw [h]
  · rfl

@[simp] theorem size_putSize : (s.putSize a n).size = Function.update s.size a n := by
  funext b
  simp only [size, putSize, Function.update_apply]
  split_ifs <;> rfl

@[simp] theorem next_joinAs : (s.joinAs x y n).next = Function.update s.next x (s.next y) := by
  simp [joinAs]

@[simp] theorem size_joinAs : (s.joinAs x y n).size = Function.update s.size x n := by
  simp [joinAs]

@[simp] theorem sz_joinPtr : (s.joinPtr x y).sz = s.sz := by
  rw [joinPtr]
  split_ifs <;> rfl

variable {s x y}

theorem joinPtr_eq (h : x ≠ y) : s.joinPtr x y =
    if x + sizeofHeader * s.size x = y then
      (s.putPtr x y).joinAs x y ((s.size x + s.size y) % 2 ^ 32)
    else s.putPtr x y := by
  rw [joinAs_putPtr_self _ h]
  rfl

end Heap

/-- The free list: a ring in the order of the addresses, of blocks with gaps between them, and the
empty block at `base`, which is the lowest. -/
structure FreeList (base : Nat) (s : Heap) (F : Finset Nat) : Prop where
  ring : OrderedRing (insert base F) s.next
  base_size : s.size base = 0
  extents : Extents sizeofHeader (base + sizeofHeader) (2 ^ 64) (fun x => sizeofHeader * s.size x) F
  gaps : ∀ x ∈ F, x + sizeofHeader * s.size x ∉ F
  sizes : ∀ x ∈ F, s.size x < 2 ^ 32

structure Block (base : Nat) (s : Heap) (F : Finset Nat) (bp : Nat) : Prop where
  above : base + sizeofHeader ≤ bp
  below : bp + sizeofHeader * s.size bp ≤ 2 ^ 64
  pos : 0 < s.size bp
  size_lt : s.size bp < 2 ^ 32
  apart : ∀ x ∈ F, bp + sizeofHeader * s.size bp ≤ x ∨ x + sizeofHeader * s.size x ≤ bp

theorem Block.base_lt {base bp : Nat} {s : Heap} {F : Finset Nat} (h : Block base s F bp) :
    base < bp := by
  have habove := h.above
  unfold sizeofHeader at habove
  omega

theorem Block.notMem {base bp : Nat} {s : Heap} {F : Finset Nat} (h : Block base s F bp) :
    bp ∉ insert base F := by
  have hpos := h.pos
  rw [Finset.mem_insert, not_or]
  refine ⟨h.base_lt.ne', fun hF => ?_⟩
  have hapart := h.apart bp hF
  unfold sizeofHeader at hapart
  omega

/-- The blocks that touch the one at `bp`. -/
def adjacent (s : Heap) (F : Finset Nat) (bp : Nat) : Finset Nat :=
  F.filter fun x => x + sizeofHeader * s.size x = bp ∨ bp + sizeofHeader * s.size bp = x

/-- The units of the block at `bp` together with those that touch it. -/
def mergedSize (s : Heap) (F : Finset Nat) (bp : Nat) : Nat :=
  s.size bp + ∑ x ∈ adjacent s F bp, s.size x

structure Wrapped (base : Nat) (s : Heap) (size : Nat → Nat) (F : Finset Nat) : Prop where
  ring : OrderedRing (insert base F) s.next
  base_size : s.size base = 0
  extents : Extents sizeofHeader (base + sizeofHeader) (2 ^ 64) (fun x => sizeofHeader * size x) F
  wraps : ∀ x ∈ F, s.size x = size x % 2 ^ 32

namespace Wrapped

variable {base bp p x : Nat} {s : Heap} {size : Nat → Nat} {F : Finset Nat}

theorem base_lt (h : Wrapped base s size F) (hx : x ∈ F) : base < x := by
  have habove := h.extents.above x hx
  unfold sizeofHeader at habove
  omega

theorem base_notMem (h : Wrapped base s size F) : base ∉ F := fun hmem => (h.base_lt hmem).false

theorem size_pos (h : Wrapped base s size F) (hx : x ∈ F) : 0 < size x := by
  have hleast := h.extents.least x hx
  unfold sizeofHeader at hleast
  omega

theorem link (h : Wrapped base s size F) (hp : p ∈ insert base F) (hlt : p < bp)
    (hend : bp < s.next p ∨ s.next p ≤ p) (habove : base + sizeofHeader ≤ bp)
    (hbelow : bp + sizeofHeader * size bp ≤ 2 ^ 64) (hpos : 0 < size bp)
    (hsize : s.size bp = size bp % 2 ^ 32)
    (hapart : ∀ x ∈ F, bp + sizeofHeader * size bp ≤ x ∨ x + sizeofHeader * size x ≤ bp) :
    Wrapped base ((s.putPtr bp (s.next p)).putPtr p bp) size (insert bp F) where
  ring := by
    rw [Finset.insert_comm]
    simpa using h.ring.insert hp hlt hend
  base_size := by simpa using h.base_size
  extents := h.extents.add habove hbelow (Nat.le_mul_of_pos_right _ hpos) hapart
  wraps x hx := by
    rw [Heap.size_putPtr, Heap.size_putPtr]
    rcases Finset.mem_insert.mp hx with rfl | hx
    · exact hsize
    · exact h.wraps x hx

theorem join (h : Wrapped base s size F) (hx : x ∈ F) (hxy : x + sizeofHeader * size x = s.next x) :
    Wrapped base (s.joinAs x (s.next x) ((s.size x + s.size (s.next x)) % 2 ^ 32))
      (Function.update size x (size x + size (s.next x))) (F.erase (s.next x)) := by
  have hbase := h.base_lt hx
  have hpos := h.size_pos hx
  have hgt : x < s.next x := by
    unfold sizeofHeader at hxy
    omega
  have hy : s.next x ∈ F := by
    rcases Finset.mem_insert.mp (h.ring.mem (Finset.mem_insert_of_mem hx)) with heq | hy
    · omega
    · exact hy
  refine ⟨?_, ?_, ?_, ?_⟩
  · rw [← Finset.erase_insert_of_ne (h.base_lt hy).ne]
    simpa using h.ring.erase (Finset.mem_insert_of_mem hx) hgt.ne'
  · simpa [Function.update_of_ne hbase.ne] using h.base_size
  · refine (h.extents.merge hx hy hxy).congr fun z _ => ?_
    simp only [Function.update_apply]
    split_ifs
    · rw [Nat.mul_add]
    · rfl
  · intro z hz
    rw [Heap.size_joinAs]
    by_cases hzx : z = x
    · rw [hzx, Function.update_self, Function.update_self, h.wraps x hx, h.wraps _ hy, ← Nat.add_mod]
    · rw [Function.update_of_ne hzx, Function.update_of_ne hzx]
      exact h.wraps z (Finset.mem_of_mem_erase hz)

theorem setFreep (h : Wrapped base s size F) (p : Nat) :
    Wrapped base { s with freep := p } size F :=
  ⟨h.ring, h.base_size, h.extents, h.wraps⟩

theorem freeList_iff (h : Wrapped base s size F)
    (hgaps : ∀ x ∈ F, x + sizeofHeader * size x ∉ F) :
    (∃ F', FreeList base s F' ∧ s.freep ∈ insert base F' ∧
        unitsOf sizeofHeader s.size F' = unitsOf sizeofHeader size F) ↔
      s.freep ∈ insert base F ∧ ∀ x ∈ F, size x < 2 ^ 32 := by
  constructor
  · rintro ⟨F', hlist, hfreep, hunits⟩
    have hF : F' = F := by
      have hring := hlist.ring.unique h.ring (Finset.mem_insert_self _ _) (Finset.mem_insert_self _ _)
      have hbase' : base ∉ F' := by
        intro hmem
        have habove := hlist.extents.above base hmem
        unfold sizeofHeader at habove
        omega
      rw [← Finset.erase_insert hbase', hring, Finset.erase_insert h.base_notMem]
    subst hF
    refine ⟨hfreep, fun x hx => ?_⟩
    have hlast : x + sizeofHeader * (size x - 1) ∈ unitsOf sizeofHeader s.size F' := by
      rw [hunits]
      exact ⟨x, hx, size x - 1, Nat.sub_lt (h.size_pos hx) Nat.one_pos, rfl⟩
    have hsame := eq_of_last_unit h.extents (by decide) hx
      (fun z hz => (h.wraps z hz).trans_le (Nat.mod_le _ _)) (h.size_pos hx) hlast
    rw [← hsame]
    exact hlist.sizes x hx
  · rintro ⟨hfreep, hsizes⟩
    have hsame : ∀ x ∈ F, s.size x = size x := fun x hx =>
      (h.wraps x hx).trans (Nat.mod_eq_of_lt (hsizes x hx))
    refine ⟨F, ⟨h.ring, h.base_size, ?_, ?_, ?_⟩, hfreep, unitsOf_congr hsame⟩
    · exact h.extents.congr fun x hx => congrArg _ (hsame x hx)
    · intro x hx
      rw [hsame x hx]
      exact hgaps x hx
    · intro x hx
      rw [hsame x hx]
      exact hsizes x hx

end Wrapped

def freed (s : Heap) (p bp : Nat) : Heap :=
  { (s.joinPtr bp (s.next p)).joinPtr p bp with freep := p }

namespace FreeList

variable {base bp p x : Nat} {s : Heap} {F : Finset Nat}

theorem wrapped (h : FreeList base s F) : Wrapped base s s.size F :=
  ⟨h.ring, h.base_size, h.extents, fun x hx => (Nat.mod_eq_of_lt (h.sizes x hx)).symm⟩

section

variable (h : FreeList base s F) (hb : Block base s F bp)

include h hb

variable (hp : p ∈ insert base F) (hlt : p < bp) (hend : bp < s.next p ∨ s.next p ≤ p)

include hp hlt hend

theorem eq_of_touches_below (hx : x ∈ F) (htouch : x + sizeofHeader * s.size x = bp) : x = p := by
  have hpos := h.wrapped.size_pos hx
  have hxbp : x < bp := by
    unfold sizeofHeader at htouch
    omega
  have hle := h.ring.le_of_lt hp hend (Finset.mem_insert_of_mem hx) hxbp
  rcases hle.eq_or_lt with heq | hlt'
  · exact heq
  · rcases Finset.mem_insert.mp hp with rfl | hpF
    · exact absurd (h.wrapped.base_lt hx) (by omega)
    · have hapart := h.extents.apart x hx p hpF hlt'
      omega

theorem eq_of_touches_above (hx : x ∈ F) (htouch : bp + sizeofHeader * s.size bp = x) :
    x = s.next p := by
  have hpos := hb.pos
  have hbpx : bp < x := by
    unfold sizeofHeader at htouch
    omega
  have hle := h.ring.next_le hp (Finset.mem_insert_of_mem hx) (hlt.trans hbpx)
  rcases Finset.mem_insert.mp (h.ring.mem hp) with heq | hq
  · -- the successor is `base` only if nothing is above `p`
    have hfollows := h.ring p hp
    have hbase := hb.base_lt
    unfold Follows at hfollows
    grind
  · have hqpos := h.wrapped.size_pos hq
    have hapart := hb.apart _ hq
    have hbpq : bp < s.next p := by
      rcases hend with hgt | hwrap
      · exact hgt
      · have hfollows := h.ring p hp
        unfold Follows at hfollows
        grind
    unfold sizeofHeader at hapart htouch
    omega

theorem linked :
    Wrapped base ((s.putPtr bp (s.next p)).putPtr p bp) s.size (insert bp F) :=
  h.wrapped.link hp hlt hend hb.above hb.below hb.pos (Nat.mod_eq_of_lt hb.size_lt).symm hb.apart

theorem joined_above : ∃ size F1,
    Wrapped base ((s.joinPtr bp (s.next p)).putPtr p bp) size F1 ∧
    (∀ x, x ∈ F1 ↔ x = bp ∨ x ∈ F ∧ bp + sizeofHeader * s.size bp ≠ x) ∧
    (∀ x, x ≠ bp → size x = s.size x ∧ (s.joinPtr bp (s.next p)).size x = s.size x) ∧
    (size bp = s.size bp + ∑ x ∈ F with bp + sizeofHeader * s.size bp = x, s.size x) ∧
    unitsOf sizeofHeader size F1 =
      unitsOf sizeofHeader s.size F ∪ unitsOf sizeofHeader s.size {bp} ∧
    ∀ x ∈ F1, x + sizeofHeader * size x ∈ F1 → x + sizeofHeader * size x = bp := by
  have hlinked := h.linked hb hp hlt hend
  have hbpR := hb.notMem
  have hq := h.ring.mem hp
  have hne : bp ≠ s.next p := fun he => hbpR (he ▸ hq)
  have hpos := hb.pos
  have habove : ∀ x ∈ F, bp + sizeofHeader * s.size bp = x → x = s.next p :=
    fun x hx => h.eq_of_touches_above hb hp hlt hend hx
  rw [Heap.joinPtr_eq hne]
  by_cases htouch : bp + sizeofHeader * s.size bp = s.next p
  · have hqF : s.next p ∈ F := by
      rcases Finset.mem_insert.mp hq with heq | hqF
      · have hbase := hb.base_lt
        omega
      · exact hqF
    have hpq : p ≠ s.next p := by omega
    have hnext : ((s.putPtr bp (s.next p)).putPtr p bp).next bp = s.next p := by
      simp [Function.update_of_ne hlt.ne']
    have hjoin := hlinked.join (Finset.mem_insert_self bp F) (by rw [hnext]; exact htouch)
    rw [hnext, Heap.size_putPtr, Heap.size_putPtr, Heap.joinAs_putPtr _ hlt.ne hpq] at hjoin
    rw [if_pos htouch]
    refine ⟨_, _, hjoin, ?_, ?_, ?_, ?_, ?_⟩
    · intro x
      rw [Finset.mem_erase, Finset.mem_insert, htouch]
      grind
    · intro x hx
      rw [Heap.size_joinAs, Heap.size_putPtr, Function.update_of_ne hx, Function.update_of_ne hx]
      exact ⟨rfl, rfl⟩
    · rw [Function.update_self, htouch, Finset.filter_eq, if_pos hqF, Finset.sum_singleton]
    · rw [unitsOf_merge (Finset.mem_insert_self bp F) (Finset.mem_insert_of_mem hqF) hne htouch,
        unitsOf_insert]
    · intro x hx hend'
      rw [Finset.mem_erase, Finset.mem_insert] at hx hend'
      by_cases hxbp : x = bp
      · rw [hxbp, Function.update_self, Nat.mul_add, ← Nat.add_assoc, htouch] at hend' ⊢
        exact hend'.2.resolve_right (h.gaps _ hqF)
      · rw [Function.update_of_ne hxbp] at hend' ⊢
        exact hend'.2.resolve_right (h.gaps x (hx.2.resolve_left hxbp))
  · have hnone : ∀ x ∈ F, bp + sizeofHeader * s.size bp ≠ x :=
      fun x hx heq => htouch (heq.trans (habove x hx heq))
    rw [if_neg htouch]
    refine ⟨s.size, insert bp F, hlinked, ?_, ?_, ?_, unitsOf_insert, ?_⟩
    · intro x
      rw [Finset.mem_insert]
      grind
    · intro x _
      rw [Heap.size_putPtr]
      exact ⟨rfl, rfl⟩
    · rw [Finset.filter_false_of_mem hnone, Finset.sum_empty, Nat.add_zero]
    · intro x hx hend'
      rw [Finset.mem_insert] at hx hend'
      by_cases hxbp : x = bp
      · rw [hxbp] at hend' ⊢
        exact hend'.resolve_right fun hmem => hnone _ hmem rfl
      · exact hend'.resolve_right (h.gaps x (hx.resolve_left hxbp))

theorem mergedSize_eq : mergedSize s F bp =
    s.size bp + ∑ x ∈ F with bp + sizeofHeader * s.size bp = x, s.size x +
      if p + sizeofHeader * s.size p = bp then s.size p else 0 := by
  have hdisj : Disjoint (F.filter fun x => x + sizeofHeader * s.size x = bp)
      (F.filter fun x => bp + sizeofHeader * s.size bp = x) := by
    have hpos := hb.pos
    rw [Finset.disjoint_filter]
    intro x _ hbelow habove
    unfold sizeofHeader at hbelow habove
    omega
  have hbelow : (F.filter fun x => x + sizeofHeader * s.size x = bp) =
      if p + sizeofHeader * s.size p = bp then {p} else ∅ := by
    ext x
    rw [Finset.mem_filter]
    constructor
    · rintro ⟨hx, htouch⟩
      have heq := h.eq_of_touches_below hb hp hlt hend hx htouch
      rw [← heq, if_pos htouch]
      exact Finset.mem_singleton_self x
    · intro hx
      split_ifs at hx with htouch
      · rw [Finset.mem_singleton] at hx
        refine ⟨?_, hx ▸ htouch⟩
        rcases Finset.mem_insert.mp hp with rfl | hpF
        · rw [h.base_size] at htouch
          omega
        · exact hx ▸ hpF
      · exact absurd hx (Finset.notMem_empty x)
  rw [mergedSize, adjacent, Finset.filter_or, Finset.sum_union hdisj, hbelow, Nat.add_assoc,
    Nat.add_comm (∑ x ∈ F with _, _)]
  split_ifs
  · rw [Finset.sum_singleton]
  · rw [Finset.sum_empty]

theorem freed_wrapped : ∃ size F', Wrapped base (freed s p bp) size F' ∧ p ∈ insert base F' ∧
    unitsOf sizeofHeader size F' =
      unitsOf sizeofHeader s.size F ∪ unitsOf sizeofHeader s.size {bp} ∧
    (∀ x ∈ F', x + sizeofHeader * size x ∉ F') ∧
    ((∀ x ∈ F', size x < 2 ^ 32) ↔ mergedSize s F bp < 2 ^ 32) := by
  obtain ⟨size, F1, hwrapped, hmem, hother, hbp, hunits, hgaps⟩ := h.joined_above hb hp hlt hend
  have hsize := hother p hlt.ne
  have hF : ∀ x ∈ F1, x ≠ bp → x ∈ F ∧ size x = s.size x := by
    intro x hx hne
    exact ⟨((hmem x).mp hx).resolve_left hne |>.1, (hother x hne).1⟩
  have hbpmem : bp ∈ F1 := (hmem bp).mpr (.inl rfl)
  have hbppos := hwrapped.size_pos hbpmem
  rw [h.mergedSize_eq hb hp hlt hend, ← hbp]
  by_cases htouch : p + sizeofHeader * s.size p = bp
  · have hpF : p ∈ F := by
      rcases Finset.mem_insert.mp hp with rfl | hpF
      · rw [h.base_size] at htouch
        omega
      · exact hpF
    have hpF1 : p ∈ F1 := by
      rw [hmem]
      refine .inr ⟨hpF, ?_⟩
      omega
    have hnext : ((s.joinPtr bp (s.next p)).putPtr p bp).next p = bp := by simp
    have hjoin := hwrapped.join hpF1 (by rw [hnext, hsize.1]; exact htouch)
    rw [hnext, Heap.size_putPtr] at hjoin
    refine ⟨Function.update size p (size p + size bp), F1.erase bp, ?_, ?_, ?_, ?_, ?_⟩
    · rw [freed, Heap.joinPtr_eq hlt.ne, hsize.2, if_pos htouch, ← hsize.2]
      exact hjoin.setFreep p
    · exact Finset.mem_insert_of_mem (Finset.mem_erase.mpr ⟨hlt.ne, hpF1⟩)
    · rw [unitsOf_merge hpF1 hbpmem hlt.ne (by rw [hsize.1]; exact htouch), hunits]
    · intro x hx hend'
      obtain ⟨hxbp, hx⟩ := Finset.mem_erase.mp hx
      obtain ⟨hne, hend'⟩ := Finset.mem_erase.mp hend'
      by_cases hxp : x = p
      · rw [hxp, Function.update_self, Nat.mul_add, ← Nat.add_assoc, hsize.1, htouch] at hend'
        have hloop := hgaps bp hbpmem hend'
        unfold sizeofHeader at hloop
        omega
      · rw [Function.update_of_ne hxp] at hne hend'
        exact hne (hgaps x hx hend')
    · rw [if_pos htouch, ← hsize.1, Nat.add_comm (size bp)]
      refine ⟨fun hall => ?_, fun hm x hx => ?_⟩
      · have hhead := hall p (Finset.mem_erase.mpr ⟨hlt.ne, hpF1⟩)
        rwa [Function.update_self] at hhead
      · obtain ⟨hxbp, hx⟩ := Finset.mem_erase.mp hx
        by_cases hxp : x = p
        · rwa [hxp, Function.update_self]
        · obtain ⟨hxF, hxsize⟩ := hF x hx hxbp
          rw [Function.update_of_ne hxp, hxsize]
          exact h.sizes x hxF
  · refine ⟨size, F1, ?_, ?_, hunits, ?_, ?_⟩
    · rw [freed, Heap.joinPtr_eq hlt.ne, hsize.2, if_neg htouch]
      exact hwrapped.setFreep p
    · rcases Finset.mem_insert.mp hp with rfl | hpF
      · exact Finset.mem_insert_self _ _
      · exact Finset.mem_insert_of_mem ((hmem p).mpr (.inr ⟨hpF, by omega⟩))
    · intro x hx hend'
      have hxbp := hgaps x hx hend'
      have hne : x ≠ bp := by
        rintro rfl
        unfold sizeofHeader at hxbp
        omega
      obtain ⟨hxF, hxsize⟩ := hF x hx hne
      rw [hxsize] at hxbp
      have heq := h.eq_of_touches_below hb hp hlt hend hxF hxbp
      exact htouch (heq ▸ hxbp)
    · rw [if_neg htouch, Nat.add_zero]
      refine ⟨fun hall => hall bp hbpmem, fun hm x hx => ?_⟩
      by_cases hxbp : x = bp
      · rwa [hxbp]
      · obtain ⟨hxF, hxsize⟩ := hF x hx hxbp
        rw [hxsize]
        exact h.sizes x hxF

end

theorem freeWith_eq (h : FreeList base s F) (hb : Block base s F bp)
    (hmap : ∀ x ∈ insert bp (insert base F), Mapped s x) (hfreep : s.freep ∈ insert base F) :
    ∃ p ∈ insert base F, p < bp ∧ (bp < s.next p ∨ s.next p ≤ p) ∧
      ∀ fuel, F.card + 1 ≤ fuel → freeWith fuel (bp + sizeofHeader) s = .ok ((), freed s p bp) := by
  have hbase := Finset.mem_insert_self base F
  obtain ⟨p, hp, hstop⟩ := exists_stops h.ring hbase hb.base_lt hb.notMem
  obtain ⟨hlt, hend⟩ := stops_lt h.ring hbase hb.base_lt hp hstop
  refine ⟨p, hp, hlt, hend, fun fuel hfuel => ?_⟩
  obtain ⟨k, hk, hreach⟩ := h.ring.reach hfreep hp
  have hcard := Finset.card_insert_le base F
  have hmapR : ∀ x ∈ insert base F, Mapped s x := fun x hx => hmap x (Finset.mem_insert_of_mem hx)
  have hmapbp : Mapped s bp := hmap bp (Finset.mem_insert_self _ _)
  have hq := h.ring.mem hp
  refine eq_ok_of_wp ?_
  rw [freeWith, Nat.add_sub_cancel, wp_bind, wp_get]
  refine wp_seq (freeLoop_spec h.ring hmapR fuel k hfreep (by omega) (hreach ▸ hstop)) ?_
  rintro r t ⟨ht, hr, hrstop⟩
  rw [ht]
  -- there is only one place
  obtain ⟨hrlt, hrend⟩ := stops_lt h.ring hbase hb.base_lt hr hrstop
  have hrp : r = p := le_antisymm (h.ring.le_of_lt hp hend hr hrlt) (h.ring.le_of_lt hr hrend hp hlt)
  subst hrp
  have hne : bp ≠ s.next r := fun he => hb.notMem (he ▸ hq)
  have hsz : ∀ a, Mapped s a → Mapped (s.joinPtr bp (s.next r)) a := by
    intro a ha
    unfold Mapped at ha ⊢
    rwa [Heap.sz_joinPtr]
  rw [wp_bind, wp_load (hmapR r hp), wp_bind]
  refine (wp_joinNext hmapbp (hmapR _ hq) hne).mpr ?_
  rw [wp_bind, wp_joinNext (hsz r (hmapR r hp)) (hsz bp hmapbp) hlt.ne, wp_modify]
  exact ⟨rfl, rfl⟩

theorem single (hnext : s.next base = x) (hback : s.next x = base) (hbase : s.size base = 0)
    (hx : base + sizeofHeader ≤ x) (hpos : 0 < s.size x) (hsize : s.size x < 2 ^ 32)
    (hend : x + sizeofHeader * s.size x ≤ 2 ^ 64) : FreeList base s {x} := by
  have hlt : base < x := by
    unfold sizeofHeader at hx
    omega
  refine ⟨?_, hbase, ⟨?_, ?_, ?_, ?_⟩, ?_, ?_⟩
  · intro y hy
    unfold Follows
    simp only [Finset.mem_insert, Finset.mem_singleton] at hy ⊢
    grind
  · intro y hy
    rwa [Finset.mem_singleton.mp hy]
  · intro y hy
    rwa [Finset.mem_singleton.mp hy]
  · intro y hy
    rw [Finset.mem_singleton.mp hy]
    exact Nat.le_mul_of_pos_right _ hpos
  · intro y hy z hz hyz
    rw [Finset.mem_singleton.mp hy, Finset.mem_singleton.mp hz] at hyz
    omega
  · intro y hy hmem
    rw [Finset.mem_singleton] at hy hmem
    rw [hy] at hmem
    unfold sizeofHeader at hmem
    omega
  · intro y hy
    rwa [Finset.mem_singleton.mp hy]

end FreeList

/-- For every well-formed list and every block apart from it, `free` ends from every `freep`. The list
it leaves is well formed, with the units of the block added, exactly when the block and those that
touch it have less than `2 ^ 32` units. -/
theorem free_keeps_list_iff (base bp : Nat) (s : Heap) (F : Finset Nat) (h : FreeList base s F)
    (hb : Block base s F bp) (hmap : ∀ x ∈ insert bp (insert base F), Mapped s x)
    (hfreep : s.freep ∈ insert base F) :
    ∃ t, (∀ fuel, F.card + 1 ≤ fuel → freeWith fuel (bp + sizeofHeader) s = .ok ((), t)) ∧
      (F.card + 1 ≤ turns → free (bp + sizeofHeader) s = .ok ((), t)) ∧
      ((∃ F', FreeList base t F' ∧ t.freep ∈ insert base F' ∧
          unitsOf sizeofHeader t.size F' =
            unitsOf sizeofHeader s.size F ∪ unitsOf sizeofHeader s.size {bp}) ↔
        mergedSize s F bp < 2 ^ 32) := by
  obtain ⟨p, hp, hlt, hend, hfree⟩ := h.freeWith_eq hb hmap hfreep
  obtain ⟨size, F', hwrapped, hmem, hunits, hgaps, hsizes⟩ := h.freed_wrapped hb hp hlt hend
  refine ⟨freed s p bp, hfree, fun hle => ?_, ?_⟩
  · rw [free_eq_freeWith]
    exact hfree turns hle
  rw [← hunits, hwrapped.freeList_iff hgaps, ← hsizes]
  exact and_iff_right hmem

/-- A heap with `base` at 16, a free block at `x` and a block behind it, both of `n` units. -/
def twoBlocks (x n sz : Nat) : Heap where
  hdr a := if a = 16 then ⟨x, 0⟩ else if a = x then ⟨16, n⟩ else ⟨0, n⟩
  freep := x
  sz := sz

theorem free_keeps_list_small :
    ∃ t, (∀ fuel, 2 ≤ fuel → freeWith fuel 96 (twoBlocks 48 2 4096) = .ok ((), t)) ∧
      ∃ F', FreeList 16 t F' ∧ t.freep ∈ insert 16 F' ∧
        unitsOf 16 t.size F' =
          unitsOf 16 (twoBlocks 48 2 4096).size {48} ∪ unitsOf 16 (twoBlocks 48 2 4096).size {80} := by
  obtain ⟨t, hfree, -, hiff⟩ := free_keeps_list_iff 16 80 (twoBlocks 48 2 4096) {48}
    (FreeList.single rfl rfl rfl (by decide) (by decide) (by decide) (by decide))
    ⟨by decide, by decide, by decide, by decide, by decide⟩ (by decide) (by decide)
  exact ⟨t, hfree, hiff.mpr (by decide)⟩

theorem free_loses_units :
    FreeList 16 (twoBlocks 32 (2 ^ 31) (2 ^ 37)) {32} ∧
    Block 16 (twoBlocks 32 (2 ^ 31) (2 ^ 37)) {32} (32 + 2 ^ 35) ∧
    ∃ t, (∀ fuel, 2 ≤ fuel →
        freeWith fuel (48 + 2 ^ 35) (twoBlocks 32 (2 ^ 31) (2 ^ 37)) = .ok ((), t)) ∧
      t.size 32 = 0 ∧ ¬∃ F', FreeList 16 t F' ∧ t.freep ∈ insert 16 F' := by
  have hlist : FreeList 16 (twoBlocks 32 (2 ^ 31) (2 ^ 37)) {32} :=
    FreeList.single rfl rfl rfl (by decide) (by decide) (by decide) (by decide)
  have hblock : Block 16 (twoBlocks 32 (2 ^ 31) (2 ^ 37)) {32} (32 + 2 ^ 35) :=
    ⟨by decide, by decide, by decide, by decide, by decide⟩
  refine ⟨hlist, hblock, ?_⟩
  obtain ⟨p, hp, hlt, hend, hfree⟩ := hlist.freeWith_eq hblock (by decide) (by decide)
  have hp32 : p = 32 := by
    rcases Finset.mem_insert.mp hp with rfl | hp
    · exact absurd hend (by decide)
    · exact Finset.mem_singleton.mp hp
  rw [hp32] at hfree
  have hzero : (freed (twoBlocks 32 (2 ^ 31) (2 ^ 37)) 32 (32 + 2 ^ 35)).size 32 = 0 := by decide
  refine ⟨_, hfree, hzero, ?_⟩
  rintro ⟨F', hF', hmem⟩
  rcases Finset.mem_insert.mp hmem with heq | hmem
  · exact absurd heq (by decide)
  · have hleast := hF'.extents.least 32 hmem
    rw [hzero] at hleast
    exact absurd hleast (by decide)

end OsProject.Umalloc
