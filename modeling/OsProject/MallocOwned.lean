import OsProject.MallocSpec

/-! `malloc` gives out memory that the heap owns, as long as the size that it asks `sbrk` for is an
`int`. -/

namespace OsProject.Umalloc

open Vm

namespace Ready

variable {I : Image} {s : Heap} {F U : Finset Nat} {E : Trap → Prop} {prevp nunits fuel : Nat}
  {room : Bool} {Q : Nat → Heap → Prop}

theorem freep_ne (h : Ready I s F U) : s.freep ≠ 0 := by
  have hbase := I.base_pos
  rcases Finset.mem_insert.mp h.freep with he | hF
  · omega
  · have := h.base_lt (Finset.mem_union_left U hF)
    omega

theorem mallocLoop_walk (h : Ready I s F U) (k : Nat) (hprev : prevp ∈ insert I.base F)
    (hsmall : ∀ i < k, ¬ nunits ≤ (s.hdr (s.next^[i] (s.next prevp))).size ∧
      s.next^[i] (s.next prevp) ≠ s.freep)
    (hrest : wp (mallocLoop nunits room fuel (s.next^[k] prevp) (s.next (s.next^[k] prevp))) Q E s) :
    wp (mallocLoop nunits room (fuel + k) prevp (s.next prevp)) Q E s := by
  induction k generalizing prevp with
  | zero => exact hrest
  | succ k ih =>
    have hp := h.ring.mem hprev
    obtain ⟨hsize, hfreep⟩ : ¬ nunits ≤ (s.hdr (s.next prevp)).size ∧ s.next prevp ≠ s.freep :=
      hsmall 0 (Nat.succ_pos k)
    rw [← Nat.add_assoc, mallocLoop, wp_bind, wp_load (h.mapped_ring hp), if_neg hsize, wp_bind,
      wp_get, if_neg hfreep, wp_bind, wp_load (h.mapped_ring hp)]
    exact ih hp (fun i hi => hsmall (i + 1) (Nat.succ_lt_succ hi)) hrest

def Gives (I : Image) (nunits : Nat) (U : Finset Nat) (r : Nat) (t : Heap) : Prop :=
  ∃ x F', r = x + sizeofHeader ∧ x ∉ U ∧ Ready I t F' (insert x U) ∧
    t.len x = sizeofHeader * nunits

theorem mallocLoop_found (h : Ready I s F U) (hn : 1 ≤ nunits)
    (hfuel : (insert I.base F).card ≤ fuel) (hbig : ∃ f ∈ F, nunits ≤ (s.hdr f).size) :
    wp (mallocLoop nunits room fuel s.freep (s.next s.freep))
      (fun r t => Kept s t U ∧ Gives I nunits U r t) E s := by
  obtain ⟨k, hk, hstop, hsmall⟩ := h.ring.turn h.freep fun x => nunits ≤ (s.hdr x).size
  obtain ⟨m, rfl⟩ : ∃ m, fuel = m + 1 + k := ⟨fuel - 1 - k, by omega⟩
  refine h.mallocLoop_walk k h.freep hsmall ?_
  have hprev := h.ring.iterate_mem h.freep k
  have hlarge : nunits ≤ (s.hdr (s.next (s.next^[k] s.freep))).size := by
    rw [(Function.Commute.self_iterate s.next k).eq]
    rcases hstop with hlarge | ⟨-, hnone⟩
    · exact hlarge
    · obtain ⟨f, hf, hlarge⟩ := hbig
      exact absurd hlarge (hnone f (Finset.mem_insert_of_mem hf))
  rw [mallocLoop, wp_bind, wp_load (h.mapped_ring (h.ring.mem hprev)), if_pos hlarge]
  exact h.take_spec hprev hn hlarge

theorem mallocLoop_spec (h : Ready I s F U) (hn : 1 ≤ nunits) (hlt : nunits < 2 ^ 27) :
    wp (mallocLoop nunits room turns s.freep (s.next s.freep))
      (fun r t => Kept s t U ∧ (r = 0 ∧ (∃ F', Ready I t F' U) ∨ Gives I nunits U r t)) E s := by
  have hcard := h.card_lt
  by_cases hbig : ∃ f ∈ F, nunits ≤ (s.hdr f).size
  · refine wp_post (h.mallocLoop_found hn (by omega) hbig) ?_
    exact fun r t ht => ⟨ht.1, .inr ht.2⟩
  · obtain ⟨k, hk, hstop, hsmall⟩ := h.ring.turn h.freep fun x => nunits ≤ (s.hdr x).size
    have hnone : ∀ x ∈ insert I.base F, ¬ nunits ≤ (s.hdr x).size := by
      intro x hx hle
      rcases Finset.mem_insert.mp hx with rfl | hF
      · have hzero := h.base_size
        unfold Heap.len sizeofHeader at hzero
        omega
      · exact hbig ⟨x, hF, hle⟩
    have hprev := h.ring.iterate_mem h.freep k
    have hp := h.ring.mem hprev
    have hend : s.next (s.next^[k] s.freep) = s.freep := by
      rw [(Function.Commute.self_iterate s.next k).eq] at hp ⊢
      rcases hstop with hlarge | ⟨heq, -⟩
      · exact absurd hlarge (hnone _ hp)
      · exact heq
    obtain ⟨m, hm⟩ : ∃ m, turns = m + 1 + k := ⟨turns - 1 - k, by omega⟩
    rw [hm]
    refine h.mallocLoop_walk k h.freep hsmall ?_
    have hsize := hnone _ hp
    rw [mallocLoop, wp_bind, wp_load (h.mapped_ring hp), if_neg hsize, wp_bind, wp_get, if_pos hend,
]
    refine wp_seq (h.morecore_spec room hlt) ?_
    rintro r t (⟨hr, ht⟩ | ⟨hr, hkept, F', hready, f, hf, hfull⟩) <;> subst hr
    · subst ht
      exact ⟨.refl t U, .inl ⟨rfl, F, h⟩⟩
    · have hpos := hready.freep_ne
      have hcard' := hready.card_lt
      have hsize' : nunits ≤ (t.hdr f).size := by
        unfold Heap.len sizeofHeader at hfull
        omega
      rw [if_neg hpos, wp_bind, wp_load (hready.mapped_ring hready.freep)]
      refine wp_post (hready.mallocLoop_found hn (by omega) ⟨f, hf, hsize'⟩) ?_
      exact fun r v hv => ⟨hkept.trans hv.1, .inr hv.2⟩

end Ready

def Started (I : Image) (s : Heap) (F U : Finset Nat) : Prop :=
  Ready I s F U ∨ s.freep = 0 ∧ s.sz = I.start ∧ F = ∅ ∧ U = ∅

section Calls

variable {I : Image} {s : Heap} {F U : Finset Nat} {E : Trap → Prop} {nbytes : Nat} {room : Bool}

theorem laid_start (hsz : s.sz = I.start) (hnext : s.next I.base = I.base) (hlen : s.len I.base = 0) :
    Laid I s ∅ ∅ := by
  refine ⟨?_, hlen, ?_, Finset.disjoint_empty_left _, hsz.ge, hsz.trans_le I.fits, ?_⟩
  · rw [insert_empty_eq]
    exact orderedRing_singleton hnext
  · rw [Finset.empty_union]
    exact Extents.empty
  · intro x hlo hhi
    omega

/-- The sizes whose block is an `int` number of bytes. -/
def Fits (nbytes : Nat) : Prop := nbytes ≤ 2 ^ 31 - 2 * sizeofHeader

theorem units_lt (h : Fits nbytes) : units nbytes < 2 ^ 27 := by
  unfold Fits sizeofHeader at h
  unfold units sizeofHeader
  omega

theorem le_units (h : Fits nbytes) :
    nbytes + sizeofHeader ≤ sizeofHeader * units nbytes ∧ 1 ≤ units nbytes := by
  unfold Fits sizeofHeader at h
  unfold units sizeofHeader
  omega

theorem malloc_spec (h : Started I s F U) (hfits : Fits nbytes) :
    wp (malloc I.base nbytes room) (fun r t => Kept s t U ∧
      (r = 0 ∧ (∃ F', Ready I t F' U) ∨ Ready.Gives I (units nbytes) U r t)) E s := by
  obtain ⟨-, hpos⟩ := le_units hfits
  have hlt := units_lt hfits
  rw [malloc, wp_bind, wp_get]
  rcases h with hready | ⟨hzero, hsz, rfl, rfl⟩
  · have hne := hready.freep_ne
    rw [if_neg hne]
    simp only [wp_bind, wp_get]
    rw [wp_load (hready.mapped_ring hready.freep)]
    exact hready.mallocLoop_spec hpos hlt
  · rw [if_pos hzero]
    have hmapped : Mapped s I.base := by
      have := I.base_below
      have := Laid.le_pgroundup (hsz.trans_le (I.fits.trans (by decide : PHYSSIZE ≤ 2 ^ 38)))
      unfold Mapped
      omega
    simp only [wp_bind, wp_get, wp_setPtr hmapped, wp_modify]
    rw [wp_setSize (by exact hmapped)]
    generalize ht : Heap.putSize _ I.base 0 = t
    have hlaid : Laid I t ∅ ∅ := by
      refine laid_start ?_ ?_ ?_ <;> rw [← ht]
      · exact hsz
      · rw [Heap.next_putSize]
        simp [Heap.next, Heap.putPtr]
      · simp
    have hready : Ready I t ∅ ∅ := ⟨hlaid, by simp [← ht, Heap.putSize]⟩
    have hkept : Kept s t ∅ := ⟨by rw [← ht]; exact le_rfl, nofun⟩
    rw [wp_load (hready.mapped_ring hready.freep)]
    refine wp_post (hready.mallocLoop_spec hpos hlt) ?_
    exact fun r v hv => ⟨hkept.trans hv.1, hv.2⟩

end Calls

/-- A byte of a region that a growing `sbrk` has added. -/
def Obtained (s : Heap) (x : Nat) : Prop := ∃ g ∈ s.grown, g.1 ≤ x ∧ x < g.1 + g.2

def OnFreeList (s : Heap) (a : Nat) : Prop := s.freep ≠ 0 ∧ ∃ k, s.next^[k] s.freep = a

/-- The bytes of a live block are the heap's own, and they overlap no other live block, with its
header, and no header of the free list. -/
structure Owned (s : Program) : Prop where
  inside : ∀ b ∈ s.live, ∀ x, b.1 ≤ x → x < b.1 + b.2 → Obtained s.heap x
  apart : s.live.Pairwise fun b c =>
    b.1 + b.2 + sizeofHeader ≤ c.1 ∨ c.1 + c.2 + sizeofHeader ≤ b.1
  headers : ∀ b ∈ s.live, ∀ a, OnFreeList s.heap a → b.1 + b.2 ≤ a ∨ a + sizeofHeader ≤ b.1

structure ProgramInv (I : Image) (s : Program) (F U : Finset Nat) : Prop where
  heap : Started I s.heap F U
  live : ∀ b ∈ s.live, ∃ x ∈ U, b.1 = x + sizeofHeader ∧ b.2 + sizeofHeader ≤ s.heap.len x
  nodup : (s.live.map Prod.fst).Nodup
  used : ∀ x ∈ U, x + sizeofHeader ∈ s.live.map Prod.fst
  running : s.killed = false

namespace ProgramInv

variable {I : Image} {s : Program} {F U : Finset Nat}

theorem ready (h : ProgramInv I s F U) {b : Nat × Nat} (hb : b ∈ s.live) : Ready I s.heap F U := by
  obtain ⟨x, hx, -⟩ := h.live b hb
  rcases h.heap with hready | ⟨-, -, -, rfl⟩
  · exact hready
  · exact absurd hx (Finset.notMem_empty x)

theorem owned (h : ProgramInv I s F U) : Owned s := by
  refine ⟨fun b hb x hlo hhi => ?_, ?_, fun b hb a ha => ?_⟩
  · have hready := h.ready hb
    obtain ⟨y, hy, hb1, hb2⟩ := h.live b hb
    have habove := hready.extents.above y (Finset.mem_union_right F hy)
    have hbelow := hready.extents.below y (Finset.mem_union_right F hy)
    exact hready.obtained x (by omega) (by omega)
  · have hpair := List.pairwise_map.mp h.nodup
    refine hpair.imp_of_mem fun {b c} hb hc hne => ?_
    have hready := h.ready hb
    obtain ⟨x, hx, hb1, hb2⟩ := h.live b hb
    obtain ⟨y, hy, hc1, hc2⟩ := h.live c hc
    have hxy := hready.extents.apart x (Finset.mem_union_right F hx) y (Finset.mem_union_right F hy)
    have hyx := hready.extents.apart y (Finset.mem_union_right F hy) x (Finset.mem_union_right F hx)
    omega
  · have hready := h.ready hb
    obtain ⟨x, hx, hb1, hb2⟩ := h.live b hb
    obtain ⟨-, k, hk⟩ := ha
    have hmem := hready.ring.iterate_mem hready.freep k
    rw [hk] at hmem
    have hxC := Finset.mem_union_right F hx
    have hxlo := hready.extents.above x hxC
    rcases Finset.mem_insert.mp hmem with rfl | hF
    · have := I.base_below
      omega
    · have haC := Finset.mem_union_left U hF
      have hne : a ≠ x := fun he => Finset.disjoint_left.mp hready.disjoint hF (he ▸ hx)
      have hax := hready.extents.apart a haC x hxC
      have hxa := hready.extents.apart x hxC a haC
      have hleast := hready.extents.least a haC
      omega

theorem malloc_step (h : ProgramInv I s F U) {nbytes : UInt32} (hfits : Fits nbytes.toNat)
    (room : Bool) : s.heap.sz ≤ (callStep I s (.malloc nbytes room)).heap.sz ∧
      ∃ F' U', ProgramInv I (callStep I s (.malloc nbytes room)) F' U' := by
  obtain ⟨r, t, hrun, hkept, hend⟩ := exists_ok_of_wp
    (x := malloc I.base nbytes.toNat room) (malloc_spec h.heap hfits)
  have hlive : ∀ b ∈ s.live, ∃ x ∈ U, b.1 = x + sizeofHeader ∧ b.2 + sizeofHeader ≤ t.len x := by
    intro b hb
    obtain ⟨x, hx, hb1, hb2⟩ := h.live b hb
    exact ⟨x, hx, hb1, (hkept.len x hx).symm ▸ hb2⟩
  have hstep : callStep I s (.malloc nbytes room) = { s with
      heap := t, live := if r = 0 then s.live else (r, nbytes.toNat) :: s.live } := by
    simp [callStep, h.running, hrun]
  rw [hstep]
  refine ⟨hkept.grows, ?_⟩
  rcases hend with ⟨rfl, F', hready⟩ | ⟨x, F', rfl, hx, hready, hlen⟩
  · exact ⟨F', U, .inl hready, hlive, h.nodup, h.used, h.running⟩
  · have hnew : x + sizeofHeader ∉ s.live.map Prod.fst := by
      intro hmem
      obtain ⟨b, hb, hb1⟩ := List.mem_map.mp hmem
      obtain ⟨y, hy, hb1', -⟩ := h.live b hb
      exact hx (show x = y by omega ▸ hy)
    have hne : x + sizeofHeader ≠ 0 := Nat.succ_ne_zero _
    refine ⟨F', insert x U, .inl hready, ?_, ?_, ?_, h.running⟩ <;> simp only [if_neg hne]
    · intro b hb
      rcases List.mem_cons.mp hb with rfl | hb
      · exact ⟨x, Finset.mem_insert_self x U, rfl, hlen ▸ (le_units hfits).1⟩
      · obtain ⟨y, hy, hb1, hb2⟩ := hlive b hb
        exact ⟨y, Finset.mem_insert_of_mem hy, hb1, hb2⟩
    · exact List.nodup_cons.mpr ⟨hnew, h.nodup⟩
    · intro y hy
      rcases Finset.mem_insert.mp hy with rfl | hy
      · exact List.mem_cons_self
      · exact List.mem_cons_of_mem _ (h.used y hy)

theorem free_step (h : ProgramInv I s F U) (ap : Nat) :
    s.heap.sz ≤ (callStep I s (.free ap)).heap.sz ∧
      ∃ F' U', ProgramInv I (callStep I s (.free ap)) F' U' := by
  by_cases hap : ap ∈ s.live.map Prod.fst
  · obtain ⟨b, hb, rfl⟩ := List.mem_map.mp hap
    obtain ⟨x, hx, hb1, -⟩ := h.live b hb
    obtain ⟨u, t, hrun, hkept, F', hready, -⟩ := exists_ok_of_wp ((h.ready hb).free_spec hx)
    rw [← hb1] at hrun
    have hstep : callStep I s (.free b.1) =
        { s with heap := t, live := s.live.filter fun c => c.1 ≠ b.1 } := by
      simp only [callStep, h.running, if_pos hap, hrun]
      rfl
    rw [hstep]
    refine ⟨hkept.grows, F', U.erase x, .inl hready, ?_, ?_, ?_, h.running⟩
    · intro c hc
      obtain ⟨hc, hne⟩ := List.mem_filter.mp hc
      obtain ⟨y, hy, hc1, hc2⟩ := h.live c hc
      have hyx : y ≠ x := by
        rintro rfl
        simp [hc1, hb1] at hne
      have hmem := Finset.mem_erase.mpr ⟨hyx, hy⟩
      exact ⟨y, hmem, hc1, (hkept.len y hmem).symm ▸ hc2⟩
    · exact h.nodup.sublist (List.filter_sublist.map _)
    · intro y hy
      obtain ⟨hyx, hy⟩ := Finset.mem_erase.mp hy
      obtain ⟨c, hc, hc1⟩ := List.mem_map.mp (h.used y hy)
      refine List.mem_map.mpr ⟨c, List.mem_filter.mpr ⟨hc, ?_⟩, hc1⟩
      simp only [decide_eq_true_eq]
      omega
  · have hstep : callStep I s (.free ap) = s := by
      simp [callStep, hap]
    rw [hstep]
    exact ⟨le_rfl, F, U, h⟩

end ProgramInv

/-- Every `malloc` asks for a size whose block is an `int` number of bytes. -/
def Call.Fits : Call → Prop
  | .malloc nbytes _ => Umalloc.Fits nbytes.toNat
  | .free _ => True

def NoShrink (I : Image) (s : Program) (e : Call) : Prop := s.heap.sz ≤ (callStep I s e).heap.sz

def RunInv (I : Image) (s : Program) : Prop := ∃ F U, ProgramInv I s F U

theorem runInv_step (I : Image) {s : Program} {e : Call} (h : RunInv I s) (he : e.Fits) :
    NoShrink I s e ∧ RunInv I (callStep I s e) := by
  obtain ⟨F, U, h⟩ := h
  cases e with
  | malloc nbytes room => exact h.malloc_step he room
  | free ap => exact h.free_step ap

theorem runInv_start (I : Image) (hdr : Nat → Header) : RunInv I (I.run hdr) :=
  ⟨∅, ∅, .inr ⟨rfl, rfl, rfl, rfl⟩, nofun, List.nodup_nil, nofun, rfl⟩

/-- Live blocks are the heap's own memory and overlap nothing, the heap does not shrink, and every
call returns. -/
theorem malloc_owns (I : Image) (hdr : Nat → Header) (es : List Call) (h : ∀ e ∈ es, e.Fits) :
    Always (callStep I) (fun s => Owned s ∧ s.killed = false) (I.run hdr) es ∧
      Meets (callStep I) (NoShrink I) (I.run hdr) es := by
  have hfits : Meets (callStep I) (fun _ e => e.Fits) (I.run hdr) es :=
    meets_of_mem (fun e he _ => h e he) _
  have hstep : ∀ s e, RunInv I s → Call.Fits e → RunInv I (callStep I s e) :=
    fun s e hs he => (runInv_step I hs he).2
  refine ⟨always_of_meets hstep ?_ (runInv_start I hdr) hfits,
    meets_of_inv hstep (fun s e hs he => (runInv_step I hs he).1) (runInv_start I hdr) hfits⟩
  rintro s ⟨F, U, hs⟩
  exact ⟨hs.owned, hs.running⟩

def smallImage : Image where
  base := 4096
  start := 16384
  base_pos := by decide
  base_below := by decide
  aligned := by decide
  fits := by decide

theorem malloc_owns_small :
    (∀ e ∈ [Call.malloc 100 true, .malloc 5000 true, .free 81808], e.Fits) ∧
      Owned ([Call.malloc 100 true, .malloc 5000 true, .free 81808].foldl (callStep smallImage)
        (smallImage.run fun _ => ⟨0, 0⟩)) := by
  have hfits : ∀ e ∈ [Call.malloc 100 true, .malloc 5000 true, .free 81808], e.Fits := by
    simp [Call.Fits, Fits, sizeofHeader]
  exact ⟨hfits, ((malloc_owns smallImage (fun _ => ⟨0, 0⟩) _ hfits).1.last).1⟩

theorem malloc_beyond_int :
    ¬ Owned (callStep smallImage (smallImage.run fun _ => ⟨0, 0⟩) (.malloc 4294967295 true)) ∧
      ¬ NoShrink smallImage (callStep smallImage (smallImage.run fun _ => ⟨0, 0⟩) (.malloc 65552 true))
        (.malloc 4294967264 true) := by
  refine ⟨fun h => ?_, ?_⟩
  · have hlive : (callStep smallImage (smallImage.run fun _ => ⟨0, 0⟩)
        (.malloc 4294967295 true)).live = [(16400, 4294967295)] := by decide +kernel
    have hgrown : (callStep smallImage (smallImage.run fun _ => ⟨0, 0⟩)
        (.malloc 4294967295 true)).heap.grown = [(16384, 16)] := by decide +kernel
    have hin := h.inside (16400, 4294967295) (by simp [hlive]) 16400 (by simp) (by simp)
    simp [Obtained, hgrown] at hin
  · unfold NoShrink
    decide +kernel

end OsProject.Umalloc
