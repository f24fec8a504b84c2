import OsProject.BufCache

/-! The buffer cache is coherent. The invariant says for each buffer how its fields fit the calls
that refer to it, and for the cache that the ring is whole and the blocks are distinct. -/

namespace OsProject

structure BufOk (disk : Disk) (x : Buf) (u : BufUse) (stored : Option Block) : Prop where
  refs : x.refcnt.toNat = u.refs
  waits : ∀ b ∈ u.waiting, x.IsBlock ROOTDEV b
  held : ∀ b f, u.holder = some (b, f) → x.IsBlock ROOTDEV b
  locked : x.locked = u.holder.isSome
  filled : ∀ b, u.holder = some (b, true) → x.valid = true
  valid : x.valid = true → x.dev = ROOTDEV ∧ x.data = stored.getD (disk x.blockno)
  fresh : x.valid = false → stored = none

structure BufInv (s : CacheRun) : Prop extends RingOk s where
  bufs : ∀ i, BufOk s.cache.disk (s.cache.buf i) (s.use i) (s.stored i)

section Change

variable {s t : CacheRun} {i : Fin NBUF} {x : Buf} {u : BufUse} {v : Option Block}

theorem BufInv.change (h : BufInv s) (hbuf : t.cache.buf = Function.update s.cache.buf i x)
    (huse : t.use = Function.update s.use i u) (hstored : t.stored = Function.update s.stored i v)
    (hdisk : t.cache.disk = s.cache.disk) (hpanic : t.panic = s.panic)
    (hring : ∃ l, IsRing t.cache.next t.cache.prev l ∧ ∀ j, j ∈ l)
    (hlabel : x.dev = (s.cache.buf i).dev ∧ x.blockno = (s.cache.buf i).blockno ∨
      ∀ j, ¬ (s.cache.buf j).IsBlock x.dev x.blockno)
    (hx : BufOk s.cache.disk x u v) : BufInv t := by
  have hnew : ∀ j b, j ≠ i → (s.cache.buf j).IsBlock ROOTDEV b → ¬ x.IsBlock ROOTDEV b := by
    intro j b hj hjb hxb
    rcases hlabel with hsame | hnone
    · refine hj (h.unique j i b hjb ⟨?_, ?_⟩)
      · exact hsame.1.symm.trans hxb.1
      · exact hsame.2.symm.trans hxb.2
    · refine hnone j ?_
      rw [hxb.1, hxb.2]
      exact hjb
  refine ⟨⟨hring, fun j k b hj hk => ?_, hpanic.trans h.quiet⟩, fun j => ?_⟩
  · rw [hbuf] at hj hk
    by_cases hji : j = i <;> by_cases hki : k = i
    · rw [hji, hki]
    · subst hji
      rw [Function.update_self] at hj
      rw [Function.update_of_ne hki] at hk
      exact absurd hj (hnew k b hki hk)
    · subst hki
      rw [Function.update_self] at hk
      rw [Function.update_of_ne hji] at hj
      exact absurd hk (hnew j b hji hj)
    · rw [Function.update_of_ne hji] at hj
      rw [Function.update_of_ne hki] at hk
      exact h.unique j k b hj hk
  · rw [hbuf, huse, hstored, hdisk]
    by_cases hji : j = i
    · subst hji
      simpa only [Function.update_self] using hx
    · simpa only [Function.update_of_ne hji] using h.bufs j

theorem BufInv.refcnt_succ (h : BufInv s) (hlt : (s.use i).refs + 1 < 2 ^ 32) :
    ((s.cache.buf i).refcnt + 1).toNat = (s.use i).refs + 1 := by
  rw [UInt32.toNat_add, (h.bufs i).refs, UInt32.toNat_one]
  omega

theorem BufInv.refcnt_pred (h : BufInv s) (hpos : 0 < (s.use i).refs) :
    ((s.cache.buf i).refcnt - 1).toNat = (s.use i).refs - 1 := by
  have hlt := (s.cache.buf i).refcnt.toNat_lt
  rw [(h.bufs i).refs] at hlt
  rw [UInt32.toNat_sub, (h.bufs i).refs, UInt32.toNat_one]
  omega

theorem BufInv.refs_zero (h : BufInv s) (hz : (s.cache.buf i).refcnt = 0) :
    (s.use i).refs = 0 := by
  rw [← (h.bufs i).refs, hz]
  rfl

theorem BufUse.eq_of_refs (h : u.refs = 0) : u = {} := by
  obtain ⟨waiting, holder, leaving, pins⟩ := u
  simp only [BufUse.refs] at h
  have hw : waiting = [] := List.length_eq_zero_iff.mp (by omega)
  have hh : holder = none := by
    cases holder with
    | none => rfl
    | some x => simp at h
  have hl : leaving = 0 := by omega
  have hp : pins = 0 := by omega
  rw [hw, hh, hl, hp]

end Change

theorem binit_ring (disk : Disk) :
    IsRing (BCache.binit disk).next (BCache.binit disk).prev (List.finRange NBUF).reverse := by
  have hgen : ∀ (l l' : List (Fin NBUF)) (s : BCache), IsRing s.next s.prev l' →
      (∀ i ∈ l, i ∉ l') → l.Nodup →
      IsRing (l.foldl BCache.link s).next (l.foldl BCache.link s).prev (l.reverse ++ l') := by
    intro l
    induction l with
    | nil => exact fun l' s h _ _ => h
    | cons i l ih =>
      intro l' s h hl hnd
      rw [List.foldl_cons, List.reverse_cons, List.append_assoc, List.singleton_append]
      refine ih (i :: l') (s.link i) (h.linkFirst (hl i (by simp))) (fun j hj => ?_)
        (List.nodup_cons.mp hnd).2
      rw [List.mem_cons, not_or]
      refine ⟨fun he => ?_, hl j (by simp [hj])⟩
      exact (List.nodup_cons.mp hnd).1 (he ▸ hj)
  have h := hgen (List.finRange NBUF) [] { disk } ⟨List.nodup_nil, rfl, rfl⟩ (by simp)
    (List.nodup_finRange NBUF)
  rwa [List.append_nil] at h

theorem relink_ring {s : BCache} {l : List (Fin NBUF)} {i : Fin NBUF} (h : IsRing s.next s.prev l)
    (hi : i ∈ l) : IsRing (s.relink i).next (s.relink i).prev (i :: l.erase i) := by
  obtain ⟨l1, l2, rfl⟩ := List.append_of_mem hi
  have hnd := List.nodup_append.mp h.nodup
  have hi1 : i ∉ l1 := fun hm => hnd.2.2 i hm i (by simp) rfl
  have hi2 : i ∉ l2 := (List.nodup_cons.mp hnd.2.1).1
  rw [List.erase_append_right _ hi1, List.erase_cons_head]
  exact h.unlink.linkFirst (by simp [hi1, hi2])

section Steps

variable {s : CacheRun} {i : Fin NBUF} {b : Nat}

theorem BufInv.bget_cases (h : BufInv s) (hw : WithinCache s (.bget b)) :
    (∃ i, (s.cache.buf i).IsBlock ROOTDEV b ∧ s.cache.bget ROOTDEV b =
      .ok (s.cache.setBuf i { s.cache.buf i with refcnt := (s.cache.buf i).refcnt + 1 }, i)) ∨
    ∃ i, (∀ j, ¬ (s.cache.buf j).IsBlock ROOTDEV b) ∧ (s.cache.buf i).refcnt = 0 ∧
      s.cache.bget ROOTDEV b = .ok (s.cache.setBuf i
        { s.cache.buf i with dev := ROOTDEV, blockno := b, valid := false, refcnt := 1 }, i) := by
  obtain ⟨l, hl, hall⟩ := h.ring
  have hlen : l.length ≤ NBUF := by
    have hle := hl.nodup.length_le_card
    rwa [Fintype.card_fin] at hle
  have hscan := hl.forth.scan_eq (fun i => (s.cache.buf i).IsBlock ROOTDEV b) hlen
  cases hfind : l.find? fun i => (s.cache.buf i).IsBlock ROOTDEV b with
  | some i =>
    refine .inl ⟨i, by simpa using List.find?_some hfind, ?_⟩
    simp only [BCache.bget, hscan, hfind]
  | none =>
    have hnone : ∀ j, ¬ (s.cache.buf j).IsBlock ROOTDEV b := fun j => by
      simpa using List.find?_eq_none.mp hfind j (hall j)
    have hback := hl.back.scan_eq (fun i => (s.cache.buf i).refcnt = 0)
      (show l.reverse.length ≤ NBUF by rwa [List.length_reverse])
    cases hfree : l.reverse.find? fun i => (s.cache.buf i).refcnt = 0 with
    | some i =>
      refine .inr ⟨i, hnone, by simpa using List.find?_some hfree, ?_⟩
      simp only [BCache.bget, hscan, hfind, hback, hfree]
    | none =>
      -- All buffers would be in use, and this would be one more.
      have hused : ∀ j, 0 < (s.use j).refs := fun j => by
        have hj := List.find?_eq_none.mp hfree j (by simpa using hall j)
        rw [← (h.bufs j).refs]
        refine Nat.pos_of_ne_zero fun hz => hj ?_
        simpa using UInt32.toNat_inj.mp (hz.trans UInt32.toNat_zero.symm)
      have hcard : s.referenced.card = NBUF := by
        rw [CacheRun.referenced, Finset.filter_true_of_mem fun j _ => hused j, Finset.card_univ,
          Fintype.card_fin]
      have hle := hw.2 hnone
      omega

theorem BufInv.bget (h : BufInv s) (hw : WithinCache s (.bget b)) :
    BufInv (cacheStep s (.bget b)) := by
  rcases h.bget_cases hw with ⟨i, hi, hget⟩ | ⟨i, hnone, hzero, hget⟩
  · have hok := h.bufs i
    simp only [cacheStep, hget, hi, if_true]
    refine h.change (v := s.stored i) rfl rfl (Function.update_eq_self _ _).symm rfl rfl h.ring
      (.inl ⟨rfl, rfl⟩) ⟨?_, fun b' hb' => ?_, hok.held, hok.locked, hok.filled, hok.valid, hok.fresh⟩
    · rw [h.refcnt_succ (hw.1 i hi)]
      simp only [BufUse.refs, List.length_cons]
      omega
    · rcases List.mem_cons.mp hb' with rfl | hb'
      · exact hi
      · exact hok.waits b' hb'
  · have hempty := BufUse.eq_of_refs (h.refs_zero hzero)
    have hlocked := (h.bufs i).locked
    rw [hempty] at hlocked
    simp only [cacheStep, hget, hnone i, if_false]
    refine h.change rfl rfl rfl rfl rfl h.ring (.inr hnone) ⟨?_, ?_, ?_, ?_, ?_, ?_, ?_⟩ <;>
      simp [hempty, BufUse.refs, Buf.IsBlock, hlocked]

theorem BufInv.acquire (h : BufInv s) (k : Nat) : BufInv (cacheStep s (.acquire i k)) := by
  simp only [cacheStep]
  split
  · exact h
  · rename_i b hk
    split_ifs with hlocked
    · exact h
    · have hok := h.bufs i
      have hmem : b ∈ (s.use i).waiting := List.mem_of_getElem? hk
      have hnone : (s.use i).holder = none := by
        have hfree := hok.locked
        rwa [Bool.eq_false_of_not_eq_true hlocked, eq_comm, Option.isSome_eq_false_iff,
          Option.isNone_iff_eq_none] at hfree
      refine h.change (v := s.stored i) rfl rfl (Function.update_eq_self _ _).symm rfl rfl h.ring
        (.inl ⟨rfl, rfl⟩)
        ⟨?_, fun b' hb' => hok.waits b' (List.mem_of_mem_eraseIdx hb'), ?_, rfl, ?_, hok.valid,
          hok.fresh⟩
      · obtain ⟨hlt, -⟩ := List.getElem?_eq_some_iff.mp hk
        have hr := hok.refs
        simp only [BufUse.refs, hnone, Option.toList_none, List.length_nil] at hr
        simp only [BufUse.refs, List.length_eraseIdx_of_lt hlt, Option.toList_some,
          List.length_singleton, hr]
        omega
      · intro b' f he
        simp only [Option.some.injEq, Prod.mk.injEq] at he
        exact he.1 ▸ hok.waits b hmem
      · intro b' he
        simp at he

theorem BufInv.fill (h : BufInv s) : BufInv (cacheStep s (.fill i)) := by
  simp only [cacheStep]
  split
  · rename_i b hb
    have hok := h.bufs i
    have hlabel := hok.held b false hb
    have hrefs : ∀ x : Buf, x.refcnt = (s.cache.buf i).refcnt →
        x.refcnt.toNat = ({ s.use i with holder := some (b, true) } : BufUse).refs := by
      intro x hx
      rw [hx, hok.refs]
      simp only [BufUse.refs, hb, Option.toList_some]
      rfl
    have hheld : ∀ b' f, some (b, true) = some (b', f) → (s.cache.buf i).IsBlock ROOTDEV b' := by
      intro b' f he
      simp only [Option.some.injEq, Prod.mk.injEq] at he
      exact he.1 ▸ hlabel
    have hlocked : (s.cache.buf i).locked = true := by rw [hok.locked, hb]; rfl
    by_cases hvalid : (s.cache.buf i).valid = true
    · simp only [BCache.fill, hvalid, if_true]
      exact h.change (x := s.cache.buf i) (v := s.stored i) (Function.update_eq_self _ _).symm rfl
        (Function.update_eq_self _ _).symm rfl rfl h.ring (.inl ⟨rfl, rfl⟩)
        ⟨hrefs _ rfl, hok.waits, hheld, hlocked, fun _ _ => hvalid, hok.valid, hok.fresh⟩
    · simp only [BCache.fill, hvalid]
      refine h.change (v := s.stored i) rfl rfl (Function.update_eq_self _ _).symm rfl rfl h.ring
        (.inl ⟨rfl, rfl⟩)
        ⟨hrefs _ rfl, hok.waits, hheld, hlocked, fun _ _ => rfl, fun _ => ⟨hlabel.1, ?_⟩, by simp⟩
      rw [hok.fresh (Bool.eq_false_of_not_eq_true hvalid)]
      rfl
  · exact h

theorem BufInv.store (h : BufInv s) (data : Block) : BufInv (cacheStep s (.store i data)) := by
  simp only [cacheStep]
  split
  · rename_i b hb
    have hok := h.bufs i
    have hvalid := hok.filled b hb
    exact h.change (u := s.use i) rfl (Function.update_eq_self _ _).symm rfl rfl rfl h.ring
      (.inl ⟨rfl, rfl⟩)
      ⟨hok.refs, hok.waits, hok.held, hok.locked, hok.filled,
        fun hv => ⟨(hok.valid hv).1, rfl⟩, fun hv => absurd (hvalid.symm.trans hv) (by simp)⟩
  · exact h

theorem BufInv.bwrite (h : BufInv s) : BufInv (cacheStep s (.bwrite i)) := by
  simp only [cacheStep]
  split
  · rename_i b hb
    refine ⟨⟨h.ring, h.unique, h.quiet⟩, fun j => ?_⟩
    have hok := h.bufs j
    refine ⟨hok.refs, hok.waits, hok.held, hok.locked, hok.filled, fun hv => ?_, hok.fresh⟩
    obtain ⟨hdev, hdata⟩ := hok.valid hv
    refine ⟨hdev, hdata.trans ?_⟩
    by_cases hj : j = i
    · subst hj
      cases hstored : s.stored j with
      | some d => rfl
      | none =>
        rw [hstored] at hdata
        simp [BCache.bwrite, hdata]
    · -- Another valid buffer is of another block.
      have hne : (s.cache.buf j).blockno ≠ (s.cache.buf i).blockno := by
        intro he
        refine hj (h.unique j i _ ⟨hdev, rfl⟩ ⟨?_, he.symm⟩)
        exact ((h.bufs i).held b true hb).1
      simp [BCache.bwrite, hne]
  · exact h

theorem BufInv.release (h : BufInv s) : BufInv (cacheStep s (.release i)) := by
  simp only [cacheStep]
  split
  · rename_i b hb
    have hok := h.bufs i
    refine h.change (v := s.stored i) rfl rfl (Function.update_eq_self _ _).symm rfl rfl h.ring
      (.inl ⟨rfl, rfl⟩) ⟨?_, hok.waits, by simp, rfl, by simp, hok.valid, hok.fresh⟩
    have hr := hok.refs
    simp only [BufUse.refs, hb, Option.toList_some, List.length_singleton] at hr
    simp only [BufUse.refs, hr, Option.toList_none, List.length_nil]
    omega
  · exact h

theorem BufInv.drop (h : BufInv s) {u : BufUse} (hu : u.refs + 1 = (s.use i).refs)
    (hwaiting : u.waiting = (s.use i).waiting) (hholder : u.holder = (s.use i).holder) :
    BufOk s.cache.disk { s.cache.buf i with refcnt := (s.cache.buf i).refcnt - 1 } u
      (s.stored i) := by
  have hok := h.bufs i
  refine ⟨?_, ?_, ?_, ?_, ?_, hok.valid, hok.fresh⟩
  · rw [h.refcnt_pred (by omega)]
    omega
  · rw [hwaiting]
    exact hok.waits
  · rw [hholder]
    exact hok.held
  · rw [hholder]
    exact hok.locked
  · rw [hholder]
    exact hok.filled

theorem BufInv.brelse (h : BufInv s) : BufInv (cacheStep s (.brelse i)) := by
  simp only [cacheStep]
  split_ifs with hpos
  · have hdrop := h.drop (i := i)
      (u := { s.use i with leaving := (s.use i).leaving - 1 })
      (by simp only [BufUse.refs]; omega) rfl rfl
    simp only [BCache.brelse]
    split_ifs
    · obtain ⟨l, hl, hall⟩ := h.ring
      refine h.change (v := s.stored i) rfl rfl (Function.update_eq_self _ _).symm rfl rfl
        ⟨_, relink_ring (s := s.cache.setBuf i _) hl (hall i), fun j => ?_⟩ (.inl ⟨rfl, rfl⟩) hdrop
      by_cases hj : j = i
      · simp [hj]
      · simp [(List.mem_erase_of_ne hj).mpr (hall j)]
    · exact h.change (v := s.stored i) rfl rfl (Function.update_eq_self _ _).symm rfl rfl h.ring
        (.inl ⟨rfl, rfl⟩) hdrop
  · exact h

theorem BufInv.bpin (h : BufInv s) (hw : WithinCache s (.bpin i)) :
    BufInv (cacheStep s (.bpin i)) := by
  have hok := h.bufs i
  refine h.change (v := s.stored i) rfl rfl (Function.update_eq_self _ _).symm rfl rfl h.ring
    (.inl ⟨rfl, rfl⟩) ⟨?_, hok.waits, hok.held, hok.locked, hok.filled, hok.valid, hok.fresh⟩
  rw [h.refcnt_succ hw]
  simp only [BufUse.refs]
  omega

theorem BufInv.bunpin (h : BufInv s) : BufInv (cacheStep s (.bunpin i)) := by
  simp only [cacheStep]
  split_ifs with hpos
  · exact h.change (v := s.stored i) rfl rfl (Function.update_eq_self _ _).symm rfl rfl h.ring
      (.inl ⟨rfl, rfl⟩) (h.drop (by simp only [BufUse.refs]; omega) rfl rfl)
  · exact h

theorem bufInv_step (h : BufInv s) {e : BufEvent} (hw : WithinCache s e) :
    BufInv (cacheStep s e) := by
  cases e with
  | bget b => exact h.bget hw
  | acquire i k => exact h.acquire k
  | fill i => exact h.fill
  | store i data => exact h.store data
  | bwrite i => exact h.bwrite
  | release i => exact h.release
  | brelse i => exact h.brelse
  | bpin i => exact h.bpin hw
  | bunpin i => exact h.bunpin

theorem label_of_update {c c' : BCache} {x : Buf} (hbuf : c'.buf = Function.update c.buf i x)
    (hx : x.dev = (c.buf i).dev ∧ x.blockno = (c.buf i).blockno) (j : Fin NBUF) :
    (c'.buf j).dev = (c.buf j).dev ∧ (c'.buf j).blockno = (c.buf j).blockno := by
  rw [hbuf]
  by_cases hj : j = i
  · subst hj
    rwa [Function.update_self]
  · rw [Function.update_of_ne hj]
    exact ⟨rfl, rfl⟩

theorem label_kept (h : BufInv s) {e : BufEvent} (hw : WithinCache s e) {j : Fin NBUF}
    (hj : 0 < (s.cache.buf j).refcnt) :
    ((cacheStep s e).cache.buf j).dev = (s.cache.buf j).dev ∧
      ((cacheStep s e).cache.buf j).blockno = (s.cache.buf j).blockno := by
  cases e with
  | bget b =>
    rcases h.bget_cases hw with ⟨i, hi, hget⟩ | ⟨i, hnone, hzero, hget⟩
    · simp only [cacheStep, hget]
      exact label_of_update rfl ⟨by rfl, by rfl⟩ j
    · have hne : j ≠ i := by
        rintro rfl
        rw [hzero] at hj
        exact absurd hj (by decide)
      simp [cacheStep, hget, BCache.setBuf, hne]
  | acquire i k =>
    simp only [cacheStep]
    split
    · exact ⟨rfl, rfl⟩
    · split_ifs
      · exact ⟨rfl, rfl⟩
      · exact label_of_update rfl ⟨by rfl, by rfl⟩ j
  | fill i =>
    simp only [cacheStep]
    split
    · simp only [BCache.fill]
      split_ifs
      · exact ⟨rfl, rfl⟩
      · exact label_of_update rfl ⟨by rfl, by rfl⟩ j
    · exact ⟨rfl, rfl⟩
  | brelse i =>
    simp only [cacheStep]
    split_ifs
    · simp only [BCache.brelse]
      split_ifs <;> exact label_of_update rfl ⟨by rfl, by rfl⟩ j
    · exact ⟨rfl, rfl⟩
  | bwrite i =>
    simp only [cacheStep]
    split <;> exact ⟨rfl, rfl⟩
  | store i data =>
    simp only [cacheStep]
    split
    · exact label_of_update rfl ⟨by rfl, by rfl⟩ j
    · exact ⟨rfl, rfl⟩
  | release i =>
    simp only [cacheStep]
    split
    · exact label_of_update rfl ⟨by rfl, by rfl⟩ j
    · exact ⟨rfl, rfl⟩
  | bpin i => exact label_of_update rfl ⟨by rfl, by rfl⟩ j
  | bunpin i =>
    simp only [cacheStep]
    split_ifs
    · exact label_of_update rfl ⟨by rfl, by rfl⟩ j
    · exact ⟨rfl, rfl⟩

theorem bread_returned (h : BufInv s) (hb : (s.use i).holder = some (b, false)) :
    ((cacheStep s (.fill i)).cache.buf i).IsBlock ROOTDEV b ∧
      ((cacheStep s (.fill i)).cache.buf i).data = (s.stored i).getD (s.cache.disk b) := by
  have hlabel := (h.bufs i).held b false hb
  simp only [cacheStep, hb, BCache.fill]
  split_ifs with hvalid
  · refine ⟨hlabel, ?_⟩
    rw [((h.bufs i).valid hvalid).2, hlabel.2]
  · refine ⟨?_, ?_⟩
    · simp only [BCache.setBuf, Function.update_self]
      exact hlabel
    · rw [(h.bufs i).fresh (Bool.eq_false_of_not_eq_true hvalid), ← hlabel.2]
      simp [BCache.setBuf]

end Steps

/-- The cache after `binit`. -/
def cacheBoot (disk : Disk) : CacheRun := { cache := .binit disk }

theorem binit_buf (disk : Disk) : (BCache.binit disk).buf = fun _ => {} := by
  have hgen : ∀ (l : List (Fin NBUF)) (s : BCache), (l.foldl BCache.link s).buf = s.buf := by
    intro l
    induction l with
    | nil => exact fun _ => rfl
    | cons i l ih => exact fun s => ih (s.link i)
  exact hgen _ _

theorem bufInv_boot (disk : Disk) : BufInv (cacheBoot disk) := by
  refine ⟨⟨⟨_, binit_ring disk, by simp⟩, fun i j b hi => ?_, rfl⟩, fun i => ?_⟩
  · rw [cacheBoot, binit_buf] at hi
    exact absurd hi.1 (by simp [ROOTDEV])
  · rw [cacheBoot, binit_buf]
    constructor <;> simp [BufUse.refs]

theorem cache_coherent {disk : Disk} {events : List BufEvent}
    (hw : Meets cacheStep WithinCache (cacheBoot disk) events) :
    Always cacheStep RingOk (cacheBoot disk) events ∧
      Meets cacheStep CacheLaw (cacheBoot disk) events := by
  have hstep : ∀ s e, BufInv s → WithinCache s e → BufInv (cacheStep s e) :=
    fun _ _ h => bufInv_step h
  refine ⟨always_of_meets hstep (fun _ h => h.toRingOk) (bufInv_boot disk) hw,
    meets_of_inv hstep (fun s e h hm => ?_) (bufInv_boot disk) hw⟩
  refine ⟨fun j hj => label_kept h hm hj, ?_⟩
  rintro i b rfl hb
  exact bread_returned h hb

/-- A process changes block 5 while another waits for it, and both go on with the buffer. -/
def sharedBlock : List BufEvent :=
  [.bget 5, .acquire 0 0, .fill 0, .bget 5, .store 0 fun _ => 1, .bpin 0, .release 0, .acquire 0 0,
    .brelse 0, .fill 0, .bwrite 0, .release 0, .brelse 0, .bunpin 0]

theorem cache_coherent_shared :
    Always cacheStep RingOk (cacheBoot fun _ _ => 0) sharedBlock ∧
      Meets cacheStep CacheLaw (cacheBoot fun _ _ => 0) sharedBlock :=
  cache_coherent (by decide +kernel)

section Wrap

def pinned (s : CacheRun) (i : Fin NBUF) (n : Nat) : CacheRun :=
  { s.setUse i { s.use i with pins := (s.use i).pins + n } with
    cache := s.cache.setBuf i
      { s.cache.buf i with refcnt := (s.cache.buf i).refcnt + UInt32.ofNat n } }

theorem cacheStep_pinned (s : CacheRun) (i : Fin NBUF) (n : Nat) :
    cacheStep (pinned s i n) (.bpin i) = pinned s i (n + 1) := by
  simp [cacheStep, pinned, BCache.bpin, BCache.setBuf, CacheRun.setUse, UInt32.ofNat_add, add_assoc]

theorem pinned_zero (s : CacheRun) (i : Fin NBUF) : pinned s i 0 = s := by
  simp [pinned, BCache.setBuf, CacheRun.setUse]

theorem meets_pins {C : CacheRun → BufEvent → Prop} {s : CacheRun} {i : Fin NBUF} {n : Nat}
    {es : List BufEvent} (h : Meets cacheStep C s (List.replicate n (.bpin i) ++ es)) :
    Meets cacheStep C (pinned s i n) es := by
  have hgen : ∀ m k, Meets cacheStep C (pinned s i k) (List.replicate m (.bpin i) ++ es) →
      Meets cacheStep C (pinned s i (k + m)) es := by
    intro m
    induction m with
    | zero => exact fun k hk => hk
    | succ m ih =>
      intro k hk
      rw [List.replicate_succ, List.cons_append] at hk
      have hnext := ih (k + 1) (by rw [← cacheStep_pinned]; exact hk.2)
      rwa [add_assoc, add_comm 1 m] at hnext
  have h0 := hgen n 0 (by rwa [pinned_zero])
  rwa [Nat.zero_add] at h0

end Wrap

/-- Block 5 is held and pinned `n` times before the reader of block 6 comes, and again before the
reader of block 7 comes. Then it is given back and the reader of block 6 takes the lock. -/
def pinnedTwice (n : Nat) : List BufEvent :=
  [BufEvent.bget 5, .acquire 0 0, .fill 0] ++ (List.replicate n (BufEvent.bpin 0) ++
    ([BufEvent.bget 6] ++ (List.replicate n (BufEvent.bpin 0) ++
      ([BufEvent.bget 7, .release 0, .acquire 0 1] ++ [BufEvent.fill 0]))))

theorem cache_labels_collide :
    (∃ i j : Fin NBUF, i ≠ j ∧
      ((cacheBoot fun _ _ => 0).cache.buf i).dev = ((cacheBoot fun _ _ => 0).cache.buf j).dev ∧
      ((cacheBoot fun _ _ => 0).cache.buf i).blockno =
        ((cacheBoot fun _ _ => 0).cache.buf j).blockno) ∧
    ¬ Meets cacheStep CacheLaw (cacheBoot fun _ _ => 0) (pinnedTwice (2 ^ 32 - 1)) := by
  refine ⟨⟨0, 1, by decide, by decide +kernel, by decide +kernel⟩, fun h => ?_⟩
  rw [pinnedTwice, meets_append] at h
  have h1 := meets_pins h.2
  rw [meets_append] at h1
  have h2 := meets_pins h1.2
  rw [meets_append] at h2
  have hlaw := h2.2.1
  have hbad := (hlaw.returned 0 6 rfl (by decide +kernel)).1.2
  revert hbad
  decide +kernel

end OsProject
