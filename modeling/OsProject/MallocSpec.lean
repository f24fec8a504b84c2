import OsProject.Extents
import OsProject.OrderedRing
import OsProject.Umalloc

/-! The allocator keeps the free list in address order, and free and live blocks apart. -/

namespace OsProject.Umalloc

open Vm

namespace Heap

def next (s : Heap) (a : Nat) : Nat := (s.hdr a).ptr

def len (s : Heap) (a : Nat) : Nat := sizeofHeader * (s.hdr a).size

def putPtr (s : Heap) (a ptr : Nat) : Heap :=
  { s with hdr := Function.update s.hdr a { s.hdr a with ptr := ptr } }

def putSize (s : Heap) (a size : Nat) : Heap :=
  { s with hdr := Function.update s.hdr a { s.hdr a with size := size } }

variable (s : Heap) (a b x : Nat)

@[simp] theorem next_putPtr : (s.putPtr a x).next = Function.update s.next a x := by
  funext b
  simp only [next, putPtr, Function.update_apply]
  split_ifs <;> rfl

@[simp] theorem len_putPtr : (s.putPtr a x).len = s.len := by
  funext b
  simp only [len, putPtr, Function.update_apply]
  split_ifs with h
  · rw [h]
  · rfl

@[simp] theorem next_putSize : (s.putSize a x).next = s.next := by
  funext b
  simp only [next, putSize, Function.update_apply]
  split_ifs with h
  · rw [h]
  · rfl

@[simp] theorem len_putSize : (s.putSize a x).len = Function.update s.len a (sizeofHeader * x) := by
  funext b
  simp only [len, putSize, Function.update_apply]
  split_ifs <;> rfl

@[simp] theorem sz_putPtr : (s.putPtr a x).sz = s.sz := rfl

@[simp] theorem sz_putSize : (s.putSize a x).sz = s.sz := rfl

def joined (s : Heap) (x y : Nat) : Heap :=
  (s.putSize x ((s.hdr x).size + (s.hdr y).size)).putPtr x (s.next y)

def joinPtr (s : Heap) (x y : Nat) : Heap :=
  if x + s.len x = y then
    (s.putSize x (((s.hdr x).size + (s.hdr y).size) % 2 ^ 32)).putPtr x (s.next y)
  else s.putPtr x y

@[simp] theorem sz_joined (y : Nat) : (s.joined x y).sz = s.sz := rfl

@[simp] theorem next_joined (y : Nat) :
    (s.joined x y).next = Function.update s.next x (s.next y) := by
  simp [joined]

@[simp] theorem len_joined (y : Nat) :
    (s.joined x y).len = Function.update s.len x (s.len x + s.len y) := by
  simp [joined, len, Nat.mul_add]

def joinAs (s : Heap) (x y n : Nat) : Heap := (s.putSize x n).putPtr x (s.next y)

theorem joinAs_putPtr_self {x y : Nat} (h : x ≠ y) (n : Nat) :
    (s.putPtr x y).joinAs x y n = s.joinAs x y n := by
  simp [joinAs, putPtr, putSize, next, Function.update_of_ne h.symm]

theorem joinAs_putPtr {p x y : Nat} (hx : p ≠ x) (hy : p ≠ y) (b n : Nat) :
    (s.putPtr p b).joinAs x y n = (s.joinAs x y n).putPtr p b := by
  simp only [joinAs, putPtr, putSize, next, Function.update_of_ne hx, Function.update_of_ne hx.symm,
    Function.update_of_ne hy.symm, Function.update_self, Function.update_idem]
  rw [Function.update_comm hx]

theorem joined_putPtr_self {x y : Nat} (h : x ≠ y) : (s.putPtr x y).joined x y = s.joined x y := by
  have hsize : ((s.putPtr x y).hdr x).size + ((s.putPtr x y).hdr y).size =
      (s.hdr x).size + (s.hdr y).size := by
    simp [putPtr, Function.update_of_ne h.symm]
  rw [joined, ← joinAs, hsize, s.joinAs_putPtr_self h]
  rfl

theorem joined_putPtr {p x y : Nat} (hx : p ≠ x) (hy : p ≠ y) (b : Nat) :
    (s.putPtr p b).joined x y = (s.joined x y).putPtr p b := by
  have hsize : ((s.putPtr p b).hdr x).size + ((s.putPtr p b).hdr y).size =
      (s.hdr x).size + (s.hdr y).size := by
    simp [putPtr, Function.update_of_ne hx.symm, Function.update_of_ne hy.symm]
  rw [joined, ← joinAs, hsize, s.joinAs_putPtr hx hy]
  rfl

end Heap

section Access

variable {s : Heap} {a : Nat} {E : Trap → Prop}

theorem wp_load {Q : Header → Heap → Prop} (h : Mapped s a) :
    wp (load a) Q E s ↔ Q (s.hdr a) s := by
  simp [load, h]

theorem wp_setPtr {Q : Unit → Heap → Prop} (h : Mapped s a) (x : Nat) :
    wp (setPtr a x) Q E s ↔ Q () (s.putPtr a x) := by
  rw [setPtr, wp_bind, wp_load h]
  simp [store, h, Heap.putPtr]

theorem wp_setSize {Q : Unit → Heap → Prop} (h : Mapped s a) (x : Nat) :
    wp (setSize a x) Q E s ↔ Q () (s.putSize a x) := by
  rw [setSize, wp_bind, wp_load h]
  simp [store, h, Heap.putSize]

theorem wp_joinNext {Q : Unit → Heap → Prop} {x y : Nat} (hx : Mapped s x) (hy : Mapped s y)
    (hne : x ≠ y) : wp (joinNext x y) Q E s ↔ Q () (s.joinPtr x y) := by
  rw [joinNext, wp_bind, wp_load hx, wp_ite, Heap.joinPtr]
  by_cases hadj : x + s.len x = y
  · rw [if_pos hadj]
    refine (and_iff_left fun hne => absurd hadj hne).trans ((forall_prop_of_true hadj).trans ?_)
    rw [wp_bind, wp_load hx, wp_bind, wp_load hy, wp_bind, wp_setSize hx, wp_bind,
      wp_load (show Mapped (s.putSize x _) y from hy),
      wp_setPtr (show Mapped (s.putSize x _) x from hx)]
    have hkeep : ((s.putSize x (((s.hdr x).size + (s.hdr y).size) % 2 ^ 32)).hdr y).ptr = s.next y := by
      simp [Heap.putSize, Heap.next, Function.update_of_ne hne.symm]
    rw [hkeep]
  · rw [if_neg hadj]
    refine (and_iff_right fun h => absurd h hadj).trans ((forall_prop_of_true hadj).trans ?_)
    rw [wp_setPtr hx]

theorem wp_joinNext_of {Q : Unit → Heap → Prop} {x y : Nat} (hx : Mapped s x) (hy : Mapped s y)
    (hne : x ≠ y) (hwrap : x + s.len x = y → (s.hdr x).size + (s.hdr y).size < 2 ^ 32)
    (hjoin : x + s.len x = y → Q () (s.joined x y))
    (hlink : x + s.len x ≠ y → Q () (s.putPtr x y)) : wp (joinNext x y) Q E s := by
  rw [wp_joinNext hx hy hne, Heap.joinPtr]
  split_ifs with hadj
  · rw [Nat.mod_eq_of_lt (hwrap hadj)]
    exact hjoin hadj
  · exact hlink hadj

end Access

structure Laid (I : Image) (s : Heap) (F U : Finset Nat) : Prop where
  ring : OrderedRing (insert I.base F) s.next
  base_size : s.len I.base = 0
  extents : Extents sizeofHeader I.start s.sz s.len (F ∪ U)
  disjoint : Disjoint F U
  low : I.start ≤ s.sz
  high : s.sz ≤ PHYSSIZE
  obtained : ∀ x, I.start ≤ x → x < s.sz → ∃ g ∈ s.grown, g.1 ≤ x ∧ x < g.1 + g.2

namespace Laid

variable {I : Image} {s t : Heap} {F U : Finset Nat} {E : Trap → Prop} {p x y bp n : Nat}

theorem le_pgroundup {sz : Nat} (h : sz ≤ 2 ^ 38) : sz ≤ PGROUNDUP sz := by
  unfold PGROUNDUP Vm.PGSIZE
  omega

theorem sz_le (h : Laid I s F U) : s.sz ≤ 2 ^ 38 := h.high.trans (by decide)

theorem base_lt (h : Laid I s F U) (hx : x ∈ F ∪ U) : I.base < x := by
  have := h.extents.above x hx
  have := I.base_below
  unfold sizeofHeader at this
  omega

theorem mapped (h : Laid I s F U) (hx : x ∈ insert I.base (F ∪ U)) : Mapped s x := by
  have hround := le_pgroundup h.sz_le
  have hlow := h.low
  have hbase := I.base_below
  unfold Mapped
  rcases Finset.mem_insert.mp hx with rfl | hx
  · omega
  · have := h.extents.below x hx
    have := h.extents.least x hx
    omega

theorem mapped_ring (h : Laid I s F U) (hx : x ∈ insert I.base F) : Mapped s x :=
  h.mapped (Finset.insert_subset_insert _ Finset.subset_union_left hx)

theorem card_lt (h : Laid I s F U) : 2 * (insert I.base F).card + 2 ≤ turns := by
  have hcard := (h.extents.mono Finset.subset_union_left).card_le (by decide)
  have hins := Finset.card_insert_le I.base F
  have hdiv : s.sz / sizeofHeader ≤ PHYSSIZE / sizeofHeader := Nat.div_le_div_right h.high
  unfold turns
  omega

theorem link (h : Laid I s F U) (hbp : bp ∈ U) (hp : p ∈ insert I.base F) (hlt : p < bp)
    (hend : bp < s.next p ∨ s.next p ≤ p) :
    Laid I ((s.putPtr bp (s.next p)).putPtr p bp) (insert bp F) (U.erase bp) := by
  have hset : insert bp F ∪ U.erase bp = F ∪ U := by
    ext x
    simp only [Finset.mem_union, Finset.mem_insert, Finset.mem_erase]
    grind
  refine ⟨?_, ?_, ?_, ?_, h.low, h.high, h.obtained⟩
  · rw [Finset.insert_comm]
    simpa using h.ring.insert hp hlt hend
  · simpa using h.base_size
  · rw [hset]
    simpa using h.extents
  · have hdis := h.disjoint
    rw [Finset.disjoint_left] at hdis ⊢
    grind

theorem join (h : Laid I s F U) (hx : x ∈ F) (hxy : x + s.len x = s.next x) :
    Laid I (s.joined x (s.next x)) (F.erase (s.next x)) U := by
  have hbase := h.base_lt (Finset.mem_union_left U hx)
  have hy : s.next x ∈ F := by
    rcases Finset.mem_insert.mp (h.ring.mem (Finset.mem_insert_of_mem hx)) with heq | hy
    · omega
    · exact hy
  have hleast := h.extents.least x (Finset.mem_union_left U hx)
  have hne : s.next x ≠ x := by
    unfold sizeofHeader at hleast
    omega
  have hbase' := h.base_lt (Finset.mem_union_left U hy)
  have hring : insert I.base (F.erase (s.next x)) = (insert I.base F).erase (s.next x) := by
    rw [Finset.erase_insert_of_ne hbase'.ne]
  have hdis := h.disjoint
  rw [Finset.disjoint_left] at hdis
  have hset : F.erase (s.next x) ∪ U = (F ∪ U).erase (s.next x) := by
    ext z
    simp only [Finset.mem_union, Finset.mem_erase]
    grind
  refine ⟨?_, ?_, ?_, ?_, h.low, h.high, h.obtained⟩
  · rw [hring]
    simpa using h.ring.erase (Finset.mem_insert_of_mem hx) hne
  · simpa [Function.update_of_ne hbase.ne] using h.base_size
  · rw [hset]
    simpa using h.extents.merge (Finset.mem_union_left U hx) (Finset.mem_union_left U hy) hxy
  · rw [Finset.disjoint_left]
    grind

theorem size_add_lt (h : Laid I s F U) (hx : x ∈ F ∪ U) (hy : y ∈ F ∪ U) :
    (s.hdr x).size + (s.hdr y).size < 2 ^ 32 := by
  have hx := h.extents.below x hx
  have hy := h.extents.below y hy
  have hhigh := h.high
  unfold PHYSSIZE PHYSTOP KERNBASE at hhigh
  unfold Heap.len sizeofHeader at hx hy
  omega

end Laid

def Stops (s : Heap) (bp p : Nat) : Prop :=
  p < bp ∧ bp < s.next p ∨ s.next p ≤ p ∧ (p < bp ∨ bp < s.next p)

section Search

variable {s : Heap} {R : Finset Nat} {E : Trap → Prop} {p m bp : Nat} (h : OrderedRing R s.next)

include h

theorem stops_lt (hm : m ∈ R) (hlow : m < bp) (hp : p ∈ R) (hs : Stops s bp p) :
    p < bp ∧ (bp < s.next p ∨ s.next p ≤ p) := by
  have hfollows := h p hp
  unfold Follows at hfollows
  unfold Stops at hs
  grind

theorem exists_stops (hm : m ∈ R) (hlow : m < bp) (hbp : bp ∉ R) : ∃ p ∈ R, Stops s bp p := by
  have hne : (R.filter (· < bp)).Nonempty := ⟨m, Finset.mem_filter.mpr ⟨hm, hlow⟩⟩
  -- The last header below the block.
  obtain ⟨p, hp, hmax⟩ := Finset.exists_max_image _ id hne
  obtain ⟨hmem, hlt⟩ := Finset.mem_filter.mp hp
  refine ⟨p, hmem, ?_⟩
  have hfollows := h p hmem
  unfold Follows at hfollows
  unfold Stops
  simp only [Finset.mem_filter, id] at hmax
  grind

theorem freeLoop_spec (hmap : ∀ x ∈ R, Mapped s x) (fuel k : Nat) (hp : p ∈ R) (hk : k < fuel)
    (hs : Stops s bp (s.next^[k] p)) :
    wp (freeLoop bp fuel p) (fun r t => t = s ∧ r ∈ R ∧ Stops s bp r) E s := by
  induction fuel generalizing k p with
  | zero => omega
  | succ fuel ih =>
    rw [freeLoop, wp_bind, wp_load (hmap p hp), wp_ite]
    refine ⟨fun hin => ⟨rfl, hp, .inl hin⟩, fun hin => ?_⟩
    rw [wp_ite]
    refine ⟨fun hwrap => ⟨rfl, hp, .inr hwrap⟩, fun hwrap => ?_⟩
    cases k with
    | zero => exact absurd hs (not_or.mpr ⟨hin, hwrap⟩)
    | succ k => exact ih k (h.mem hp) (by omega) hs

end Search

namespace Laid

variable {I : Image} {s t : Heap} {F U : Finset Nat} {E : Trap → Prop} {p x y bp n : Nat}

theorem stops_lt (h : Laid I s F U) (hbp : bp ∈ U) (hp : p ∈ insert I.base F) (hs : Stops s bp p) :
    p < bp ∧ (bp < s.next p ∨ s.next p ≤ p) :=
  Umalloc.stops_lt h.ring (Finset.mem_insert_self _ _) (h.base_lt (Finset.mem_union_right F hbp)) hp hs

theorem notMem_ring (h : Laid I s F U) (hbp : bp ∈ U) : bp ∉ insert I.base F := by
  rw [Finset.mem_insert, not_or]
  exact ⟨(h.base_lt (Finset.mem_union_right F hbp)).ne',
    fun hF => Finset.disjoint_left.mp h.disjoint hF hbp⟩

theorem joinUpper_spec (h : Laid I s F U) (hbp : bp ∈ U) (hp : p ∈ insert I.base F)
    (hs : Stops s bp p) :
    wp (joinNext bp (s.next p)) (fun _ t => t.sz = s.sz ∧ t.grown = s.grown ∧
      (∀ y, y ≠ bp → t.len y = s.len y) ∧ s.len bp ≤ t.len bp ∧
      ∃ F', bp ∈ F' ∧ p ∈ insert I.base F' ∧ Laid I (t.putPtr p bp) F' (U.erase bp)) E s := by
  obtain ⟨hlt, hend⟩ := h.stops_lt hbp hp hs
  have hq := h.ring.mem hp
  have hlink := h.link hbp hp hlt hend
  have hmem := Finset.mem_insert_self bp F
  have hbpF := h.notMem_ring hbp
  have hqbp : bp ≠ s.next p := fun he => hbpF (he ▸ hq)
  have hqF : bp + s.len bp = s.next p → s.next p ∈ F := by
    intro hadj
    rcases Finset.mem_insert.mp hq with he | hF
    · have := h.base_lt (Finset.mem_union_right F hbp)
      omega
    · exact hF
  refine wp_joinNext_of (h.mapped (by simp [hbp])) (h.mapped_ring hq) hqbp ?_ ?_ ?_
  · intro hadj
    exact h.size_add_lt (Finset.mem_union_right F hbp) (Finset.mem_union_left U (hqF hadj))
  · intro hadj
    have hpq : p ≠ s.next p := by omega
    have hnext : ((s.putPtr bp (s.next p)).putPtr p bp).next bp = s.next p := by
      simp [Function.update_of_ne hlt.ne']
    have hjoin := hlink.join hmem (by rw [hnext]; simpa using hadj)
    rw [hnext, Heap.joined_putPtr _ hlt.ne hpq, Heap.joined_putPtr_self _ hqbp] at hjoin
    refine ⟨rfl, rfl, fun y hy => ?_, ?_, _, ?_, ?_, hjoin⟩
    · simp [Function.update_of_ne hy]
    · simp
    · exact Finset.mem_erase.mpr ⟨hqbp, hmem⟩
    · grind
  · intro _
    refine ⟨rfl, rfl, fun y _ => ?_, ?_, _, hmem, ?_, hlink⟩
    · simp
    · simp
    · grind

theorem joinLower_spec (h : Laid I (s.putPtr p bp) F U) (hbp : bp ∈ F) (hp : p ∈ insert I.base F)
    (hlt : p < bp) :
    wp (joinNext p bp) (fun _ t => t.sz = s.sz ∧ t.grown = s.grown ∧
      (∀ y, y ≠ p → t.len y = s.len y) ∧
      ∃ F', p ∈ insert I.base F' ∧ Laid I t F' U ∧ ∃ f ∈ F', s.len bp ≤ t.len f) E s := by
  have hring := Finset.mem_insert_of_mem (b := I.base) hbp
  have hpF : p + s.len p = bp → p ∈ F := by
    intro hadj
    rcases Finset.mem_insert.mp hp with rfl | hF
    · have hzero := h.base_size
      rw [Heap.len_putPtr] at hzero
      omega
    · exact hF
  refine wp_joinNext_of (h.mapped_ring hp) (h.mapped_ring hring) hlt.ne ?_ ?_ ?_
  · intro hadj
    have hsum := h.size_add_lt (Finset.mem_union_left U (hpF hadj)) (Finset.mem_union_left U hbp)
    simpa [Heap.putPtr, Function.update_of_ne hlt.ne'] using hsum
  · intro hadj
    have hnext : (s.putPtr p bp).next p = bp := by simp
    have hjoin := h.join (hpF hadj) (by rw [hnext]; simpa using hadj)
    rw [hnext, Heap.joined_putPtr_self _ hlt.ne] at hjoin
    refine ⟨rfl, rfl, fun y hy => ?_, _, ?_, hjoin, p, ?_, ?_⟩
    · simp [Function.update_of_ne hy]
    · grind
    · grind
    · simp
  · intro _
    refine ⟨rfl, rfl, fun y _ => ?_, F, hp, h, bp, hbp, ?_⟩
    · simp
    · simp

end Laid

structure Ready (I : Image) (s : Heap) (F U : Finset Nat) : Prop extends Laid I s F U where
  freep : s.freep ∈ insert I.base F

structure Kept (s t : Heap) (U : Finset Nat) : Prop where
  grows : s.sz ≤ t.sz
  len : ∀ y ∈ U, t.len y = s.len y

theorem Kept.trans {s t v : Heap} {U : Finset Nat} (h : Kept s t U) (h' : Kept t v U) : Kept s v U :=
  ⟨h.grows.trans h'.grows, fun y hy => (h'.len y hy).trans (h.len y hy)⟩

theorem Kept.refl (s : Heap) (U : Finset Nat) : Kept s s U := ⟨le_rfl, fun _ _ => rfl⟩

namespace Ready

variable {I : Image} {s t : Heap} {F U : Finset Nat} {E : Trap → Prop} {p prevp x y bp n nunits : Nat}

theorem free_spec (h : Ready I s F U) (hbp : bp ∈ U) :
    wp (free (bp + sizeofHeader)) (fun _ t => Kept s t (U.erase bp) ∧
      ∃ F', Ready I t F' (U.erase bp) ∧ ∃ f ∈ F', s.len bp ≤ t.len f) E s := by
  obtain ⟨q, hq, hstop⟩ := exists_stops h.ring (Finset.mem_insert_self _ _)
    (h.base_lt (Finset.mem_union_right F hbp)) (h.notMem_ring hbp)
  obtain ⟨k, hk, hreach⟩ := h.ring.reach h.freep hq
  have hcard := h.card_lt
  rw [free, Nat.add_sub_cancel, wp_bind, wp_get]
  refine wp_seq (freeLoop_spec h.ring (fun x hx => h.mapped_ring hx) turns k h.freep (by omega)
    (hreach ▸ hstop)) ?_
  rintro p _ ⟨rfl, hp, hs⟩
  rw [wp_bind, wp_load (h.mapped_ring hp)]
  refine wp_seq (h.joinUpper_spec hbp hp hs) ?_
  rintro - t ⟨hsz, hgrown, hlen, hbplen, F1, hbpF, hpF, hlaid⟩
  refine wp_seq (hlaid.joinLower_spec hbpF hpF (h.stops_lt hbp hp hs).1) ?_
  rintro - v ⟨hsz', hgrown', hlen', F2, hpF2, hlaid', f, hf, hfull⟩
  rw [wp_modify]
  refine ⟨⟨?_, fun y hy => ?_⟩, F2, ⟨?_, hpF2⟩, f, hf, hbplen.trans hfull⟩
  · show _ ≤ v.sz
    rw [hsz', hsz]
  · obtain ⟨hne, hyU⟩ := Finset.mem_erase.mp hy
    have hyp : y ≠ p := by
      rintro rfl
      rcases Finset.mem_insert.mp hp with he | hF
      · exact (h.base_lt (Finset.mem_union_right F hyU)).ne he.symm
      · exact Finset.disjoint_left.mp h.disjoint hF hyU
    exact (hlen' y hyp).trans (hlen y hne)
  · exact { hlaid' with }

theorem take_spec (h : Ready I s F U) (hprev : prevp ∈ insert I.base F) (hn : 1 ≤ nunits)
    (hbig : nunits ≤ (s.hdr (s.next prevp)).size) :
    wp (take nunits prevp (s.next prevp)) (fun r t => Kept s t U ∧ ∃ x F', r = x + sizeofHeader ∧
      x ∉ U ∧ Ready I t F' (insert x U) ∧ t.len x = sizeofHeader * nunits) E s := by
  have hp := h.ring.mem hprev
  have hpF : s.next prevp ∈ F := by
    rcases Finset.mem_insert.mp hp with he | hF
    · have hzero := h.base_size
      unfold Heap.len sizeofHeader at hzero
      rw [he] at hbig
      omega
    · exact hF
  have hbase := h.base_lt (Finset.mem_union_left U hpF)
  have hdis := Finset.disjoint_left.mp h.disjoint
  have hpU : s.next prevp ∉ U := hdis hpF
  rw [take, wp_bind, wp_load (h.mapped_ring hp), wp_ite]
  refine ⟨fun hall => ?_, fun hrest => ?_⟩
  · have hne : s.next prevp ≠ prevp := by
      intro he
      exact h.ring.next_ne hprev (Finset.mem_insert_self _ F) (by omega) he
    rw [wp_bind, wp_setPtr (h.mapped_ring hprev), wp_bind, wp_modify, wp_pure]
    have hlen : (s.putPtr prevp (s.hdr (s.next prevp)).ptr).len = s.len := by simp
    refine ⟨⟨le_rfl, fun y _ => congrFun hlen y⟩, s.next prevp, F.erase (s.next prevp), rfl, hpU,
      ⟨⟨?_, ?_, ?_, ?_, h.low, h.high, h.obtained⟩, ?_⟩, ?_⟩
    · show OrderedRing _ (s.putPtr prevp _).next
      rw [Heap.next_putPtr, ← Finset.erase_insert_of_ne hbase.ne]
      exact h.ring.erase hprev hne
    · exact (congrFun hlen _).trans h.base_size
    · show Extents _ _ _ (s.putPtr prevp _).len _
      rw [hlen, show F.erase (s.next prevp) ∪ insert (s.next prevp) U = F ∪ U by grind]
      exact h.extents
    · rw [Finset.disjoint_left]
      grind
    · show prevp ∈ _
      grind
    · rw [← hall]
      exact congrFun hlen _
  · obtain ⟨m, hm, hsize⟩ : ∃ m, 1 ≤ m ∧ (s.hdr (s.next prevp)).size = m + nunits :=
      ⟨(s.hdr (s.next prevp)).size - nunits, by omega, by omega⟩
    have hlen : s.len (s.next prevp) = sizeofHeader * m + sizeofHeader * nunits := by
      rw [Heap.len, hsize, Nat.mul_add]
    have hx := h.extents.split (Finset.mem_union_left U hpF)
      (Nat.le_mul_of_pos_right sizeofHeader hn) (by decide)
      (by rw [hlen]; exact Nat.add_le_add_right (Nat.le_mul_of_pos_right _ hm) _)
    rw [hlen, Nat.add_sub_cancel] at hx
    -- The block that is given out begins inside the free one.
    have hnew : s.next prevp + sizeofHeader * m ∉ F ∪ U := by
      intro hmem
      have hapart := h.extents.apart _ (Finset.mem_union_left U hpF) _ hmem
      unfold sizeofHeader at hapart hlen
      omega
    have hxm : Mapped (s.putSize (s.next prevp) m) (s.next prevp + sizeofHeader * m) := by
      have hbelow := h.extents.below _ (Finset.mem_union_left U hpF)
      have hround := Laid.le_pgroundup h.sz_le
      show _ ≤ PGROUNDUP s.sz
      unfold sizeofHeader at hlen ⊢
      omega
    rw [hsize, Nat.add_sub_cancel, wp_bind, wp_setSize (h.mapped_ring hp), wp_bind, wp_setSize hxm,
      wp_bind, wp_modify, wp_pure]
    refine ⟨⟨le_rfl, fun y hy => ?_⟩, s.next prevp + sizeofHeader * m, F, rfl, ?_,
      ⟨⟨?_, ?_, ?_, ?_, h.low, h.high, h.obtained⟩, hprev⟩, ?_⟩
    · show ((s.putSize _ _).putSize _ _).len y = _
      have hy' : y ≠ s.next prevp + sizeofHeader * m := fun he => hnew (by simp [← he, hy])
      simp [Function.update_of_ne hy', Function.update_of_ne (show y ≠ s.next prevp by grind)]
    · exact fun hmem => hnew (Finset.mem_union_right F hmem)
    · show OrderedRing _ ((s.putSize _ _).putSize _ _).next
      simpa using h.ring
    · show ((s.putSize _ _).putSize _ _).len I.base = _
      have hne : I.base ≠ s.next prevp + sizeofHeader * m := by omega
      simpa [Function.update_of_ne hne, Function.update_of_ne hbase.ne] using h.base_size
    · show Extents _ _ _ ((s.putSize _ _).putSize _ _).len _
      rw [Finset.union_insert]
      simpa using hx
    · rw [Finset.disjoint_insert_right]
      exact ⟨fun hmem => hnew (Finset.mem_union_left U hmem), h.disjoint⟩
    · show ((s.putSize _ _).putSize _ _).len _ = _
      simp

theorem grown_laid (h : Laid I s F U) (hn : 1 ≤ n) (hfit : s.sz + sizeofHeader * n ≤ PHYSSIZE)
    {t : Heap} (hsz : t.sz = s.sz + sizeofHeader * n)
    (hgrown : t.grown = (s.sz, sizeofHeader * n) :: s.grown)
    (hhdr : ∀ a < s.sz, t.hdr a = s.hdr a) (hnew : (t.hdr s.sz).size = n) :
    Laid I t F (insert s.sz U) := by
  have hbelow : ∀ x ∈ F ∪ U, x < s.sz := by
    intro x hx
    have := h.extents.below x hx
    have := h.extents.least x hx
    unfold sizeofHeader at this
    omega
  have hbase : I.base < s.sz := by
    have := I.base_below
    have := h.low
    unfold sizeofHeader at *
    omega
  have hnot : s.sz ∉ F ∪ U := fun hmem => (hbelow _ hmem).false
  refine ⟨?_, ?_, ?_, ?_, ?_, ?_, ?_⟩
  · refine h.ring.congr fun x hx => ?_
    have hlt : x < s.sz := by
      rcases Finset.mem_insert.mp hx with rfl | hF
      · exact hbase
      · exact hbelow x (Finset.mem_union_left U hF)
    rw [Heap.next, hhdr x hlt, Heap.next]
  · rw [Heap.len, hhdr _ hbase]
    exact h.base_size
  · rw [Finset.union_insert, hsz]
    refine (h.extents.grow h.low (Nat.le_mul_of_pos_right _ hn) (by decide)).congr fun x hx => ?_
    rw [Function.update_apply, Heap.len]
    split_ifs with he
    · rw [he, hnew]
    · rw [hhdr x (hbelow x (Finset.mem_of_mem_insert_of_ne hx he)), Heap.len]
  · rw [Finset.disjoint_insert_right]
    exact ⟨fun hmem => hnot (Finset.mem_union_left U hmem), h.disjoint⟩
  · rw [hsz]
    exact h.low.trans (Nat.le_add_right _ _)
  · rw [hsz]
    exact hfit
  · intro x hlo hhi
    rw [hgrown]
    by_cases hx : x < s.sz
    · obtain ⟨g, hg, hin⟩ := h.obtained x hlo hx
      exact ⟨g, List.mem_cons_of_mem _ hg, hin⟩
    · exact ⟨_, List.mem_cons_self, by omega, by omega⟩

theorem morecore_spec (room : Bool) (h : Ready I s F U) (hn : nunits < 2 ^ 27) :
    wp (morecore nunits room) (fun r t => r = 0 ∧ t = s ∨ r = t.freep ∧ Kept s t U ∧
      ∃ F', Ready I t F' U ∧ ∃ f ∈ F', sizeofHeader * nunits ≤ t.len f) E s := by
  have hle : nunits ≤ if nunits < 4096 then 4096 else nunits := by split_ifs <;> omega
  have hpos : 1 ≤ if nunits < 4096 then 4096 else nunits := by split_ifs <;> omega
  have hsmall : (if nunits < 4096 then 4096 else nunits) < 2 ^ 27 := by split_ifs <;> omega
  unfold morecore
  generalize (if nunits < 4096 then 4096 else nunits) = nu at hle hpos hsmall ⊢
  have hint : toInt (nu * sizeofHeader) = (sizeofHeader * nu : Nat) := by
    rw [Nat.mul_comm]
    unfold toInt sizeofHeader
    rw [Int.bmod_def]
    split_ifs <;> omega
  have hadd : addInt s.sz ((sizeofHeader * nu : Nat) : Int) = s.sz + sizeofHeader * nu := by
    have := h.high
    unfold PHYSSIZE PHYSTOP KERNBASE at this
    unfold addInt sizeofHeader
    omega
  have hnpos : (0 : Int) < ((sizeofHeader * nu : Nat) : Int) := by
    unfold sizeofHeader
    omega
  simp only [hint]
  rw [wp_bind, sbrk, wp_bind, wp_get, if_pos hnpos, hadd]
  simp only [wp_ite, wp_pure, wp_bind, wp_set, Int.toNat_natCast]
  refine ⟨fun _ => .inl ⟨trivial, trivial⟩, fun _ => ⟨fun _ => .inl ⟨trivial, trivial⟩, fun hroom => ?_⟩⟩
  rw [not_or, not_lt] at hroom
  have hround : s.sz + sizeofHeader * nu ≤ PGROUNDUP (s.sz + sizeofHeader * nu) := by
    have := h.high
    refine Laid.le_pgroundup ?_
    unfold PHYSSIZE PHYSTOP KERNBASE at this
    unfold sizeofHeader
    omega
  rw [wp_setSize (by
    show s.sz + sizeofHeader ≤ PGROUNDUP (s.sz + sizeofHeader * nu)
    unfold sizeofHeader at hround ⊢
    omega)]
  generalize ht : Heap.putSize _ s.sz nu = t
  have hsz : t.sz = s.sz + sizeofHeader * nu := by rw [← ht]; rfl
  have hhdr : ∀ a < s.sz, t.hdr a = s.hdr a := by
    intro a ha
    have := Laid.le_pgroundup h.sz_le
    rw [← ht]
    simp only [Heap.putSize, Function.update_of_ne ha.ne]
    rw [if_neg (by omega)]
  have hnew : (t.hdr s.sz).size = nu := by simp [← ht, Heap.putSize]
  have hlaid := grown_laid h.toLaid hpos (hround.trans hroom.2) hsz (by rw [← ht]; rfl) hhdr hnew
  have hready : Ready I t F (insert s.sz U) := ⟨hlaid, by rw [← ht]; exact h.freep⟩
  have hU : ∀ y ∈ U, y < s.sz := by
    intro y hy
    have := h.extents.below y (Finset.mem_union_right F hy)
    have := h.extents.least y (Finset.mem_union_right F hy)
    unfold sizeofHeader at this
    omega
  have herase : (insert s.sz U).erase s.sz = U :=
    Finset.erase_insert fun hmem => (hU _ hmem).false
  refine wp_post (hready.free_spec (Finset.mem_insert_self _ U)) ?_
  rintro - v ⟨hkept, F', hready', f, hf, hfull⟩
  rw [herase] at hkept hready'
  have hstart : Kept s t U :=
    ⟨hsz ▸ Nat.le_add_right _ _, fun y hy => by rw [Heap.len, hhdr y (hU y hy), Heap.len]⟩
  refine .inr ⟨rfl, hstart.trans hkept, F', hready', f, hf, le_trans ?_ hfull⟩
  rw [Heap.len, hnew]
  exact Nat.mul_le_mul_left _ hle

end Ready

end OsProject.Umalloc
