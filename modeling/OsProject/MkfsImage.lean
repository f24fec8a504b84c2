import OsProject.Mkfs

/-! What `mkfs` writes is what the kernel reads: the invariant of the file system holds, and the
files have their bytes, unless the entries of the root directory fill their last block. The size of
the directory is then rounded up to a block that it does not have. -/

namespace OsProject.Mkfs

open Function

/-- The volume with the first `fb` blocks in use and the content `c`, whatever the sizes of the
inodes say. -/
structure Core (nodes : Nodes) (data : Nat → Block) (fb : Nat) (c : Nat → List UInt8) : Prop where
  owned : VolOwned sb nodes (fun b => decide (b < fb)) data ∅
  fresh : ∀ b, fb ≤ b → data b = fun _ => 0
  short : ∀ n, (c n).length ≤ MAXFILE * BSIZE
  mapped : ∀ n o, o / BSIZE < MAXFILE → place nodes data (n, o / BSIZE) = 0 → (c n).length ≤ o
  bytes : ∀ n o, o / BSIZE < MAXFILE → place nodes data (n, o / BSIZE) ≠ 0 →
    byteAt nodes data n o = (c n).getD o 0

/-- There are no blocks beyond the content. -/
def Tight (nodes : Nodes) (data : Nat → Block) (c : Nat → List UInt8) : Prop :=
  ∀ n p, p < MAXFILE → place nodes data (n, p) ≠ 0 → p * BSIZE < (c n).length

variable {nodes : Nodes} {data : Nat → Block} {fb n i fbn off : Nat} {c : Nat → List UInt8}
  {s : Image} {bs : List UInt8}

theorem getD_append (l bs : List UInt8) (o : Nat) : (l ++ bs).getD o 0 =
    if l.length ≤ o ∧ o < l.length + bs.length then bs.getD (o - l.length) 0 else l.getD o 0 := by
  simp only [List.getD_eq_getElem?_getD, List.getElem?_append]
  split_ifs <;> first | rfl | omega | skip
  rw [List.getElem?_eq_none (by omega), List.getElem?_eq_none (by omega)]

namespace Core

theorem lt_of_place (h : Core nodes data fb c) {x : Nat × Nat} (hx : place nodes data x ≠ 0) :
    place nodes data x < fb := by
  have hused := (h.owned.used_iff _ (h.owned.range x hx).2).mpr (.inr (.inl ⟨x, rfl⟩))
  simpa using hused

/-- The next block comes to an empty place. -/
theorem grow (h : Core nodes data fb c) {nodes' : Nodes} {data' : Nat → Block} {x : Nat × Nat}
    (hplace : place nodes' data' = update (place nodes data) x fb)
    (howned : VolOwned sb nodes' (update (fun b => decide (b < fb)) fb true) data' ∅)
    (hx : place nodes data x = 0) (hzero : ∀ b, fb ≤ b → data' b = fun _ => 0)
    (hdata : ∀ n p, p < MAXFILE → place nodes data (n, p) ≠ 0 →
      data' (place nodes data (n, p)) = data (place nodes data (n, p))) :
    Core nodes' data' (fb + 1) c := by
  have hused : update (fun b => decide (b < fb)) fb true = fun b => decide (b < fb + 1) := by
    funext b
    by_cases hb : b = fb
    · simp [hb]
    · rw [update_of_ne hb, decide_eq_decide]
      omega
  refine ⟨hused ▸ howned, fun b hb => hzero b (by omega), h.short, fun n o ho hp => ?_,
    fun n o ho hp => ?_⟩
  · by_cases he : (n, o / BSIZE) = x
    · exact h.mapped n o ho (he ▸ hx)
    · rw [hplace, update_of_ne he] at hp
      exact h.mapped n o ho hp
  · rw [byteAt]
    by_cases he : (n, o / BSIZE) = x
    · have hlen := h.mapped n o ho (he ▸ hx)
      rw [hplace, he, update_self, hzero fb le_rfl, List.getD_eq_default _ _ hlen]
    · rw [hplace, update_of_ne he] at hp ⊢
      rw [hdata n _ ho hp]
      exact h.bytes n o ho hp

/-- Bytes are copied into the block in which the content ends. -/
theorem write (h : Core nodes data fb c) (hoff : (c n).length = off) (hmax : off / BSIZE < MAXFILE)
    {x : Nat} (hx : place nodes data (n, off / BSIZE) = x) (hpos : x ≠ 0)
    (hbs : off % BSIZE + bs.length ≤ BSIZE) :
    place nodes (update data x (bcopy bs (data x) (off % BSIZE))) = place nodes data ∧
      Core nodes (update data x (bcopy bs (data x) (off % BSIZE))) fb (update c n (c n ++ bs)) := by
  have hplace : place nodes (update data x (bcopy bs (data x) (off % BSIZE))) = place nodes data :=
    place_update_data _ fun m hm => hx ▸ h.owned.content_ne_indirect hmax (hx.trans_ne hpos) hm
  subst hx
  refine ⟨hplace, by rw [VolOwned, hplace]; exact h.owned, fun b hb => ?_, fun m => ?_,
    fun m o ho hp => ?_, fun m o ho hp => ?_⟩
  · rw [update_of_ne (by have := h.lt_of_place hpos; omega), h.fresh b hb]
  · by_cases hm : m = n
    · subst hm
      rw [update_self, List.length_append]
      unfold BSIZE at *
      omega
    · rw [update_of_ne hm]
      exact h.short m
  · rw [hplace] at hp
    have hlen := h.mapped m o ho hp
    by_cases hm : m = n
    · subst hm
      have hne : o / BSIZE ≠ off / BSIZE := fun he => hpos (he ▸ hp)
      rw [update_self, List.length_append]
      unfold BSIZE at *
      omega
    · rwa [update_of_ne hm]
  · rw [hplace] at hp
    have hold := h.bytes m o ho hp
    rw [byteAt] at hold ⊢
    rw [hplace]
    by_cases he : (m, o / BSIZE) = (n, off / BSIZE)
    · obtain ⟨rfl, hb⟩ := Prod.mk.inj he
      rw [he] at hold ⊢
      rw [update_self, update_self, getD_append, bcopy, ← hold]
      refine if_congr ?_ (congrArg (bs.getD · 0) ?_) rfl
      · unfold BSIZE at *
        omega
      · unfold BSIZE at *
        omega
    · rw [update_of_ne fun hp' => he (h.owned.inj _ _ hp hp'), hold]
      by_cases hm : m = n
      · subst hm
        have hb : o / BSIZE ≠ off / BSIZE := fun hb => he (by rw [hb])
        rw [update_self, getD_append, if_neg]
        unfold BSIZE at *
        omega
      · rw [update_of_ne hm]

theorem congr (h : Core nodes data fb c) {nodes' : Nodes}
    (hp : place nodes' data = place nodes data) : Core nodes' data fb c := by
  have hbytes : byteAt nodes' data = byteAt nodes data := by
    funext m o
    rw [byteAt, byteAt, hp]
  exact ⟨by rw [VolOwned, hp]; exact h.owned, h.fresh, h.short, by rw [hp]; exact h.mapped,
    by rw [hp, hbytes]; exact h.bytes⟩

end Core

/-- `d` is what has become of the copy of inode `n`, which is not yet written back. -/
structure Moved (n : Nat) (nodes : Nodes) (s : Image) (c : Nat → List UInt8) (d : Dinode)
    (s' : Image) : Prop where
  info : d = { nodes n with addrs := d.addrs }
  dinode : s'.dinode = s.dinode
  freeinode : s'.freeinode = s.freeinode
  core : Core (update nodes n d) s'.data s'.freeblock c

theorem Moved.type {d : Dinode} {s' : Image} (h : Moved n nodes s c d s') :
    (update nodes n d n).type = (nodes n).type := by
  rw [update_self, h.info]

theorem fillAddr_spec (h : Core nodes s.data s.freeblock c) (hn : (nodes n).type ≠ .free)
    (hi : i ≤ NDIRECT) :
    wp (fillAddr (nodes n) i) (fun d s' => d.addrs i < FSSIZE → Moved n nodes s c d s' ∧
      d.addrs i ≠ 0 ∧ ∀ x, x ≠ (n, addrPlace i) →
        place (update nodes n d) s'.data x = place nodes s.data x) (fun _ => True) s := by
  simp only [fillAddr, nextBlock, wp_ite, wp_bind, wp_get, wp_modify, wp_pure]
  refine ⟨fun hz hlt => ?_, fun hnz _ => ?_⟩
  · replace hlt : s.freeblock < FSSIZE := by simpa [Dinode.setAddr] using hlt
    obtain ⟨hpos, -, howned⟩ := h.owned.alloc hlt (by simp)
    rw [← h.fresh s.freeblock le_rfl, update_eq_self] at howned
    obtain ⟨hplace, howned'⟩ := howned.setAddr hn hi hz (h.fresh _ le_rfl)
    refine ⟨⟨rfl, rfl, rfl, ?_⟩, by simpa [Dinode.setAddr] using hpos, fun x hx => ?_⟩
    · exact h.grow hplace howned' (by rw [place_addrPlace hn hi, hz]) h.fresh fun _ _ _ _ => rfl
    · rw [hplace, update_of_ne hx]
  · rw [update_eq_self]
    exact ⟨⟨rfl, rfl, rfl, by rwa [update_eq_self]⟩, hnz, fun _ _ => rfl⟩

theorem appendBlock_spec (h : Core nodes s.data s.freeblock c) (hn : (nodes n).type ≠ .free)
    (hmax : fbn < MAXFILE) :
    wp (appendBlock (nodes n) fbn) (fun r s' => r.2 < FSSIZE → Moved n nodes s c r.1 s' ∧
      place (update nodes n r.1) s'.data (n, fbn) = r.2 ∧ r.2 ≠ 0 ∧
      ∀ x, x.2 < MAXFILE → x ≠ (n, fbn) →
        place (update nodes n r.1) s'.data x = place nodes s.data x) (fun _ => True) s := by
  rw [appendBlock, wp_ite]
  refine ⟨fun hdirect => ?_, fun hdirect => ?_⟩
  · rw [wp_bind]
    refine wp_mono (fillAddr_spec h hn hdirect.le) (fun d s' hd hlt => ?_) fun _ _ => trivial
    obtain ⟨hmoved, hpos, hoff⟩ := hd hlt
    have hself : addrPlace fbn = fbn := if_neg hdirect.ne
    refine ⟨hmoved, ?_, hpos, fun x _ hx => hoff x (by rwa [hself])⟩
    rw [← hself, place_addrPlace (by rwa [hmoved.type]) hdirect.le, update_self, hself]
  · rw [wp_bind]
    refine wp_mono (fillAddr_spec h hn le_rfl) (fun d s' hd => ?_) fun _ _ => trivial
    simp only [rsect, nextBlock, wsect, wp_bind, wp_ite, wp_throw, wp_pure, wp_get, wp_modify]
    refine ⟨fun _ => trivial, fun hsect => ?_⟩
    obtain ⟨hmoved, hpos, hoff⟩ := hd (not_le.mp hsect)
    have hcore := hmoved.core
    have htype : (update nodes n d n).type ≠ .free := by rwa [hmoved.type]
    have haddr : (update nodes n d n).addrs NDIRECT = d.addrs NDIRECT := by rw [update_self]
    have hj : fbn - NDIRECT < NINDIRECT := by
      rw [MAXFILE_eq] at hmax
      omega
    have hfbn : NDIRECT + (fbn - NDIRECT) = fbn := by omega
    have hword : place _ s'.data (n, NDIRECT + (fbn - NDIRECT)) = _ :=
      place_word htype (haddr.trans_ne hpos) hj
    rw [hfbn, haddr] at hword
    have hind : place (update nodes n d) s'.data (n, MAXFILE) = d.addrs NDIRECT := by
      rw [place_indirect htype, haddr]
    refine ⟨fun hz hlt => ?_, fun hnz _ => ?_⟩
    · obtain ⟨hb, -, howned⟩ := hcore.owned.alloc hlt (by simp)
      rw [← hcore.fresh s'.freeblock le_rfl, update_eq_self] at howned
      obtain ⟨hplace, howned'⟩ := howned.setWord (by decide) htype (haddr.trans_ne hpos) hj
        (by rwa [haddr])
      rw [hfbn, haddr] at hplace
      rw [haddr] at howned'
      refine ⟨⟨hmoved.info, hmoved.dinode, hmoved.freeinode, hcore.grow hplace howned' ?_ ?_ ?_⟩,
        by rw [hplace, update_self], hb, fun x hx hne => ?_⟩
      · rw [hword, hz]
      · intro b hb
        have hlt := hind ▸ hcore.lt_of_place (hind.trans_ne hpos)
        exact (update_of_ne (by omega) _ _).trans (hcore.fresh b hb)
      · intro m p hp hne
        refine update_of_ne (fun he => ?_) _ _
        exact hcore.owned.content_ne_indirect hp hne htype (haddr.trans he.symm)
      · rw [hplace, update_of_ne hne, hoff x]
        rintro rfl
        exact absurd hx (lt_irrefl _)
    · refine ⟨hmoved, hword, hnz, fun x hx hne => hoff x ?_⟩
      rintro rfl
      exact absurd hx (lt_irrefl _)

theorem moved_nil (h : Core nodes s.data s.freeblock c) (ht : Tight nodes s.data c) :
    Moved n nodes s (update c n (c n ++ [])) (nodes n) s ∧
      Tight (update nodes n (nodes n)) s.data (update c n (c n ++ [])) := by
  rw [List.append_nil, update_eq_self, update_eq_self]
  exact ⟨⟨rfl, rfl, rfl, by rwa [update_eq_self]⟩, ht⟩

theorem appendLoop_spec {fuel : Nat} (h : Core nodes s.data s.freeblock c) (ht : Tight nodes s.data c)
    (hn : (nodes n).type ≠ .free) (hoff : (c n).length = off) (hfuel : bs.length ≤ fuel) :
    wp (appendLoop fuel (nodes n) off bs) (fun r s' => r.2 = off + bs.length ∧
      Moved n nodes s (update c n (c n ++ bs)) r.1 s' ∧
      Tight (update nodes n r.1) s'.data (update c n (c n ++ bs))) (fun _ => True) s := by
  induction fuel generalizing nodes s c off bs with
  | zero =>
    obtain rfl := List.length_eq_zero_iff.mp (Nat.le_zero.mp hfuel)
    exact ⟨rfl, moved_nil h ht⟩
  | succ fuel ih =>
    rw [appendLoop, wp_ite]
    refine ⟨fun hempty => hempty ▸ ⟨rfl, moved_nil h ht⟩, fun hne => ?_⟩
    rw [wp_ite]
    refine ⟨fun _ => trivial, fun hmax => ?_⟩
    rw [wp_bind]
    refine wp_mono (appendBlock_spec h hn (not_le.mp hmax)) (fun r s1 hr => ?_) fun _ _ => trivial
    simp only [rsect, wsect, wp_bind, wp_ite, wp_throw, wp_pure, wp_get, wp_modify]
    refine ⟨fun _ => trivial, fun hsect => ?_⟩
    obtain ⟨hmoved, hx, hpos, hother⟩ := hr (not_le.mp hsect)
    have hmod : off - off / BSIZE * BSIZE = off % BSIZE := by
      unfold BSIZE
      omega
    have hbpos := List.length_pos_iff.mpr hne
    rw [hmod]
    generalize hn1 : min bs.length ((off / BSIZE + 1) * BSIZE - off) = n1
    have htake : (bs.take n1).length = n1 := List.length_take_of_le (by omega)
    have hn1' : 0 < n1 ∧ off % BSIZE + n1 ≤ BSIZE := by
      unfold BSIZE at *
      omega
    obtain ⟨hplace, hcore⟩ := hmoved.core.write hoff (not_le.mp hmax) hx hpos (htake.symm ▸ hn1'.2)
    generalize update s1.data r.2 _ = data' at hplace hcore ⊢
    have hlen' : (update c n (c n ++ bs.take n1) n).length = off + n1 := by
      rw [update_self, List.length_append, hoff, htake]
    have htight : Tight (update nodes n r.1) data' (update c n (c n ++ bs.take n1)) := by
      intro m p hp hmp
      rw [hplace] at hmp
      by_cases he : (m, p) = (n, off / BSIZE)
      · obtain ⟨rfl, rfl⟩ := Prod.mk.inj he
        rw [hlen']
        unfold BSIZE at *
        omega
      · refine (ht m p hp (hother _ hp he ▸ hmp)).trans_le ?_
        by_cases hm : m = n
        · rw [hm, hlen', hoff]
          exact Nat.le_add_right _ _
        · rw [update_of_ne hm]
    have hfuel' : (bs.drop n1).length ≤ fuel := by
      rw [List.length_drop]
      omega
    have hrest := ih (s := { s1 with data := data' }) hcore htight (by rwa [hmoved.type]) hlen' hfuel'
    simp only [update_self, update_idem, List.append_assoc, List.take_append_drop] at hrest
    refine wp_post hrest fun r' s' hr' => ?_
    obtain ⟨hsize, hmoved', htight'⟩ := hr'
    refine ⟨?_, ⟨?_, hmoved'.dinode.trans hmoved.dinode,
      hmoved'.freeinode.trans hmoved.freeinode, ?_⟩, htight'⟩
    · rw [hsize, List.length_drop]
      omega
    · rw [hmoved'.info, update_self, hmoved.info]
    · simpa using hmoved'.core

/-- The inodes that have been handed out, with the content `c`. -/
structure Shape (s : Image) (c : Nat → List UInt8) : Prop where
  core : Core s.dinode s.data s.freeblock c
  tight : Tight s.dinode s.data c
  unused : ∀ n, n = 0 ∨ s.freeinode ≤ n → s.dinode n = {}
  used : ∀ n, 0 < n → n < s.freeinode → (s.dinode n).nlink = 1 ∧
    (s.dinode n).type = if n = ROOTINO then .dir else .file

structure Built (s : Image) (c : Nat → List UInt8) : Prop extends Shape s c where
  size : ∀ n, (s.dinode n).size = (c n).length

theorem Shape.type_ne (h : Shape s c) (hn : 0 < n) (hlt : n < s.freeinode) :
    (s.dinode n).type ≠ .free := by
  rw [(h.used n hn hlt).2]
  split_ifs <;> decide

theorem Shape.inUse (h : Shape s c) (hn : (s.dinode n).type ≠ .free) : 0 < n ∧ n < s.freeinode := by
  by_contra hout
  exact hn (by rw [h.unused n (by omega)])

/-- An inode is written that is in use, or the first one that is not. -/
theorem Shape.put (h : Shape s c) {s' : Image} {c' : Nat → List UInt8} {d : Dinode}
    (hnode : s'.dinode = update s.dinode n d) (hcore : Core s'.dinode s'.data s'.freeblock c')
    (htight : Tight s'.dinode s'.data c') (hn : 0 < n)
    (hused : d.nlink = 1 ∧ d.type = if n = ROOTINO then .dir else .file)
    (hfree : s'.freeinode = s.freeinode ∧ n < s.freeinode ∨
      s'.freeinode = n + 1 ∧ n = s.freeinode) : Shape s' c' := by
  refine ⟨hcore, htight, fun m hm => ?_, fun m hm hlt => ?_⟩
  · rw [hnode, update_of_ne (by omega), h.unused m (by omega)]
  · rw [hnode]
    by_cases he : m = n
    · rw [he, update_self]
      exact hused
    · rw [update_of_ne he]
      exact h.used m hm (by omega)

theorem Built.put (h : Built s c) {s' : Image} {c' : Nat → List UInt8} {d : Dinode}
    (hshape : Shape s' c') (hnode : s'.dinode = update s.dinode n d)
    (hsize : d.size = (c' n).length) (hc : ∀ m, m ≠ n → c' m = c m) : Built s' c' := by
  refine ⟨hshape, fun m => ?_⟩
  rw [hnode]
  by_cases hm : m = n
  · rw [hm, update_self, hsize]
  · rw [update_of_ne hm, hc m hm, h.size]

theorem iappend_spec (h : Built s c) (hn : 0 < n) (hlt : n < s.freeinode) :
    wp (iappend n bs) (fun _ s' => Built s' (update c n (c n ++ bs)) ∧
      s'.freeinode = s.freeinode) (fun _ => True) s := by
  simp only [iappend, rinode, winode, wp_bind, wp_get, wp_pure]
  refine wp_post (appendLoop_spec h.core h.tight (h.type_ne hn hlt) (h.size n).symm le_rfl) ?_
  rintro ⟨d, off⟩ s1 ⟨hoff, hmoved, htight⟩
  have hplace : place (update (update s.dinode n d) n { d with size := off }) s1.data =
      place (update s.dinode n d) s1.data := by
    rw [place_setInfo] <;> rw [update_self]
  rw [update_idem] at hplace
  rw [wp_modify, hmoved.dinode]
  refine ⟨h.put (h.toShape.put rfl (hmoved.core.congr hplace)
    (fun m p hp hmp => htight m p hp (hplace ▸ hmp)) hn ?_ (.inl ⟨hmoved.freeinode, hlt⟩)) rfl ?_
    fun m hm => update_of_ne hm _ _, hmoved.freeinode⟩
  · have hinfo : d = { s.dinode n with addrs := d.addrs } := hmoved.info
    rw [hinfo]
    exact h.used n hn hlt
  · rw [update_self, List.length_append, ← h.size]
    exact hoff

theorem ialloc_spec (h : Built s c) (hpos : 0 < s.freeinode) :
    wp (ialloc (if s.freeinode = ROOTINO then .dir else .file)) (fun n s' => n = s.freeinode ∧
      Built s' c ∧ s'.freeinode = n + 1) (fun _ => True) s := by
  simp only [ialloc, winode, wp_bind, wp_get, wp_modify, wp_pure]
  have hfree := h.unused s.freeinode (.inr le_rfl)
  have hplace : ∀ t, place (update s.dinode s.freeinode { type := t, nlink := 1 }) s.data =
      place s.dinode s.data := fun t => by
    funext x
    obtain ⟨m, p⟩ := x
    by_cases hm : m = s.freeinode
    · rw [hm, place_of_addrs_zero (by simp), place_of_addrs_zero (by simp [hfree])]
    · rw [place_eq_of_nodes (update_of_ne hm _ _)]
  refine ⟨trivial, h.put (h.toShape.put rfl (h.core.congr (hplace _))
    (fun m p hp hmp => h.tight m p hp (hplace _ ▸ hmp)) hpos ⟨rfl, rfl⟩ (.inr ⟨rfl, rfl⟩)) rfl ?_
    fun _ _ => rfl, trivial⟩
  rw [← h.size, hfree]

theorem addFile_spec (h : Built s c) (hpos : 1 < s.freeinode) (f : Source) :
    wp (addFile f) (fun _ s' => Built s' (update (update c ROOTINO
        (c ROOTINO ++ direntBytes s.freeinode (filename f.path))) s.freeinode f.bytes) ∧
      s'.freeinode = s.freeinode + 1) (fun _ => True) s := by
  simp only [addFile, wp_bind, wp_ite, wp_throw]
  refine ⟨fun _ => trivial, fun _ => ?_⟩
  cases hf : f.chunks with
  | none => trivial
  | some chunks =>
    simp only [wp_bind, wp_ite, wp_throw]
    refine ⟨fun _ => trivial, fun _ => ?_⟩
    have halloc := ialloc_spec h (by omega)
    have hne : s.freeinode ≠ ROOTINO := hpos.ne'
    rw [if_neg hne] at halloc
    refine wp_post halloc ?_
    rintro _ s1 ⟨rfl, h1, hnext⟩
    refine wp_post (iappend_spec h1 Nat.one_pos (by rw [hnext]; exact Nat.lt_succ_of_lt hpos)) ?_
    rintro _ s2 ⟨h2, hnext'⟩
    have hempty : update c ROOTINO (c ROOTINO ++ direntBytes s.freeinode (filename f.path))
        s.freeinode = [] := by
      rw [update_of_ne hne, ← List.length_eq_zero_iff, ← h.size, h.unused _ (.inr le_rfl)]
    generalize update c ROOTINO _ = c' at h2 hempty ⊢
    -- what has been read is `pre`
    refine wp_post (wp_forM (I := fun l t => ∃ pre, pre ++ l.flatten = f.bytes ∧
      Built t (update c' s.freeinode pre) ∧ t.freeinode = s.freeinode + 1) ?_
      ⟨[], ?_, ?_, hnext'.trans hnext⟩) ?_
    · rintro a l t ⟨pre, hpre, ht, hfree⟩
      refine wp_post (iappend_spec ht (by omega) (hfree ▸ Nat.lt_succ_self _)) ?_
      rintro _ t' ⟨ht', hfree'⟩
      rw [update_self, update_idem] at ht'
      exact ⟨pre ++ a, by rw [← hpre, List.flatten_cons, List.append_assoc], ht', hfree'.trans hfree⟩
    · simp [Source.bytes, hf]
    · rwa [← hempty, update_eq_self]
    · rintro _ t ⟨pre, hpre, ht, hfree⟩
      rw [List.flatten_nil, List.append_nil] at hpre
      exact ⟨hpre ▸ ht, hfree⟩

/-- The entries of files whose inodes are numbered from `k` on. -/
def entries (k : Nat) : List Source → List UInt8
  | [] => []
  | f :: fs => direntBytes k (filename f.path) ++ entries (k + 1) fs

theorem length_entries (k : Nat) (fs : List Source) : (entries k fs).length = 16 * fs.length := by
  induction fs generalizing k with
  | nil => rfl
  | cons f fs ih =>
    rw [entries, List.length_append, ih, direntBytes, length_bytesFrom, List.length_cons]
    omega

theorem addFiles_spec (h : Built s c) (hpos : 1 < s.freeinode) (fs : List Source) :
    wp (forM fs addFile) (fun _ s' => ∃ c', Built s' c' ∧ s'.freeinode = s.freeinode + fs.length ∧
      c' ROOTINO = c ROOTINO ++ entries s.freeinode fs ∧
      (∀ i f, fs[i]? = some f → c' (s.freeinode + i) = f.bytes) ∧
      ∀ m, m ≠ ROOTINO → m < s.freeinode → c' m = c m) (fun _ => True) s := by
  induction fs generalizing s c with
  | nil => exact ⟨c, h, rfl, (List.append_nil _).symm, by simp, fun _ _ _ => rfl⟩
  | cons f fs ih =>
    rw [List.forM_cons]
    refine wp_seq (addFile_spec h hpos f) ?_
    rintro _ s1 ⟨h1, hnext⟩
    refine wp_post (ih h1 (by omega)) ?_
    rintro _ s2 ⟨c', h2, hfree, hroot, hfiles, hkept⟩
    rw [hnext] at hfree hroot hfiles hkept
    have hne : ROOTINO ≠ s.freeinode := hpos.ne
    refine ⟨c', h2, by rw [hfree, List.length_cons]; omega, ?_, fun i g hg => ?_, fun m hm hlt => ?_⟩
    · rw [hroot, update_of_ne hne, update_self, List.append_assoc, entries]
    · cases i with
      | zero =>
        rw [Nat.add_zero, hkept _ hne.symm (Nat.lt_succ_self _), update_self]
        exact congrArg Source.bytes (Option.some.inj hg)
      | succ i =>
        rw [← hfiles i g hg]
        exact congrArg c' (by omega)
    · rw [hkept m hm (by omega), update_of_ne hlt.ne, update_of_ne hm]

def rootEntries (files : List Source) : List UInt8 :=
  direntBytes ROOTINO dotName ++ direntBytes ROOTINO dotDotName ++ entries 2 files

theorem built_empty : Built {} fun _ => [] := by
  have hzero : ∀ x, place (fun _ => {}) (fun _ _ => 0) x = 0 := fun x =>
    place_of_addrs_zero (by simp) x.2
  refine ⟨⟨⟨⟨by decide, by simp [hzero], by simp [hzero], fun b _ => ?_, by simp⟩, fun _ _ => rfl,
    by simp, by simp, by simp [hzero]⟩, by simp [Tight, hzero], fun _ _ => rfl,
    fun n hn hlt => absurd hlt (not_lt.mpr hn)⟩, fun _ => rfl⟩
  have hlo : sb.nmeta = nmeta := by decide
  have hpos : 0 < nmeta := by decide
  simp only [decide_eq_true_eq, hlo, hzero, Set.mem_empty_iff_false, or_false]
  refine ⟨.inl, fun h => h.elim id ?_⟩
  rintro ⟨-, rfl⟩
  exact hpos

theorem foldl_mark (k : Nat) : (List.range k).foldl (fun m i => update m i true)
    (fun _ => false) = fun b => decide (b < k) := by
  induction k with
  | zero => simp
  | succ k ih =>
    rw [List.range_succ, List.foldl_append, ih]
    funext b
    by_cases hb : b = k
    · simp [hb]
    · simp only [List.foldl_cons, List.foldl_nil, update_of_ne hb, decide_eq_decide]
      omega

/-- The image that `mkfs` leaves. -/
structure Made (files : List Source) (c : Nat → List UInt8) (s : Image) : Prop where
  shape : Shape s c
  inodes : s.freeinode = 2 + files.length
  size : ∀ n, (s.dinode n).size =
    if n = ROOTINO then ((c n).length / BSIZE + 1) * BSIZE else (c n).length
  bitmap : s.bitmap = fun b => decide (b < s.freeblock)
  root : c ROOTINO = rootEntries files
  files : ∀ i f, files[i]? = some f → c (i + 2) = f.bytes

theorem main_spec (files : List Source) :
    wp (main files) (fun _ s => ∃ c, Made files c s) (fun _ => True) {} := by
  simp only [main, rinode, winode, balloc, wp_bind, wp_ite, wp_throw, wp_get, wp_modify, wp_pure]
  refine wp_post (ialloc_spec built_empty Nat.one_pos) ?_
  rintro r s1 ⟨hr, h1, hnext1⟩
  obtain rfl : r = ROOTINO := hr
  refine ⟨fun _ => trivial, fun _ => ?_⟩
  refine wp_post (iappend_spec h1 Nat.one_pos (by rw [hnext1]; decide)) ?_
  rintro _ s2 ⟨h2, hnext2⟩
  refine wp_post (iappend_spec h2 Nat.one_pos (by rw [hnext2, hnext1]; decide)) ?_
  rintro _ s3 ⟨h3, hnext3⟩
  replace hnext3 : s3.freeinode = 2 := by rw [hnext3, hnext2, hnext1]; rfl
  refine wp_post (addFiles_spec h3 (by omega) files) ?_
  rintro _ s ⟨c, h, hfree, hroot, hfiles, -⟩
  rw [hnext3] at hfree hroot hfiles
  have hplace := fun z => @place_setInfo s.dinode s.data ROOTINO { s.dinode ROOTINO with size := z }
    rfl rfl
  have hlt : ROOTINO < s.freeinode := by
    rw [hfree]
    exact Nat.lt_add_right _ (by decide)
  refine ⟨fun _ => trivial, fun _ => ⟨c, ?_, hfree, fun n => ?_, foldl_mark _, ?_, fun i f hf => ?_⟩⟩
  · exact h.toShape.put rfl (h.core.congr (hplace _)) (fun m p hp hmp => h.tight m p hp (hplace _ ▸ hmp))
      Nat.one_pos (h.used ROOTINO Nat.one_pos hlt) (.inl ⟨rfl, hlt⟩)
  · simp only [update_apply]
    split_ifs with hn
    · rw [hn, ← h.size]
    · exact h.size n
  · simpa [rootEntries] using hroot
  · rw [← hfiles i f hf, Nat.add_comm]

def Image.boot (s : Image) : Fs where
  dinode := s.dinode
  bitmap := s.bitmap
  data := s.data
  kernel := { proc := fun _ => {} }

namespace Made

variable {files : List Source}

theorem length_root (h : Made files c s) : (c ROOTINO).length = 16 * (files.length + 2) := by
  simp only [h.root, rootEntries, List.length_append, direntBytes, length_bytesFrom, length_entries]
  omega

theorem mapped (h : Made files c s) {o : Nat} (ho : o < (c n).length) :
    o / BSIZE < MAXFILE ∧ place s.dinode s.data (n, o / BSIZE) ≠ 0 := by
  have hmax : o / BSIZE < MAXFILE := Nat.div_lt_of_lt_mul (by
    rw [Nat.mul_comm]
    exact ho.trans_le (h.shape.core.short n))
  exact ⟨hmax, fun hz => absurd (h.shape.core.mapped n o hmax hz) (not_le.mpr ho)⟩

theorem take_content (h : Made files c s) (n : Nat) :
    (s.boot.content n).take (c n).length = c n := by
  have hsize : (c n).length ≤ (s.dinode n).size := by
    rw [h.size]
    split_ifs
    · unfold BSIZE
      omega
    · exact le_rfl
  refine List.ext_getElem? fun o => ?_
  rw [List.getElem?_take]
  split_ifs with ho
  · obtain ⟨hmax, hp⟩ := h.mapped ho
    have hbyte := h.shape.core.bytes n o hmax hp
    rw [List.getD_eq_getElem _ _ ho] at hbyte
    rw [Fs.getElem?_content, List.getElem?_eq_getElem ho]
    exact (if_pos (ho.trans_le hsize)).trans (congrArg some hbyte)
  · rw [List.getElem?_eq_none (not_lt.mp ho)]

theorem filled (h : Made files c s) (hfit : files.length + 2 ≤ NINODES)
    (hend : ¬ 64 ∣ files.length + 2) (hn : (s.dinode n).type ≠ .free) : Filled s.data (s.dinode n) := by
  have hlen := h.length_root
  refine ⟨?_, fun bn hbn => ?_⟩
  · rw [h.size]
    split_ifs with he
    · rw [he, hlen, show MAXFILE = 268 from rfl]
      unfold NINODES BSIZE at *
      omega
    · exact h.shape.core.short n
  · have hlt : bn * BSIZE < (c n).length := by
      rw [h.size] at hbn
      split_ifs at hbn with he
      · rw [he, hlen] at hbn ⊢
        unfold BSIZE at *
        omega
      · exact hbn
    obtain ⟨hmax, hp⟩ := h.mapped hlt
    rw [Nat.mul_div_cancel _ (by decide)] at hmax hp
    rwa [place_of_le hn hmax.le] at hp

theorem volInv (h : Made files c s) (hfit : files.length + 2 ≤ NINODES)
    (hend : ¬ 64 ∣ files.length + 2) : VolInv sb s.dinode s.bitmap s.data := by
  refine ⟨by decide, by rw [h.bitmap]; exact h.shape.core.owned, fun n => h.filled hfit hend,
    fun n hn => ?_, fun n hn => ?_, fun n => ?_⟩
  · obtain ⟨hpos, hlt⟩ := h.shape.inUse hn
    refine ⟨hpos, hlt.trans_le ?_⟩
    rw [h.inodes, Nat.add_comm]
    exact hfit
  · obtain ⟨hpos, hlt⟩ := h.shape.inUse (n := n) (by simp [hn])
    rw [(h.shape.used n hpos hlt).2] at hn
    have he : n = ROOTINO := by
      by_contra he
      simp [he] at hn
    rw [h.size, if_pos he]
    exact Dvd.dvd.mul_left (by decide) _
  · by_cases hn : (s.dinode n).type = .free
    · rw [h.shape.unused n]
      · rfl
      · by_contra hout
        exact h.shape.type_ne (by omega) (by omega) hn
    · obtain ⟨hpos, hlt⟩ := h.shape.inUse hn
      rw [(h.shape.used n hpos hlt).1]
      rfl

theorem sys (h : Made files c s) (hvol : VolInv sb s.dinode s.bitmap s.data) : Sys sb s.boot [] := by
  have hhold : ∀ i, holders s.boot i = 0 := fun i => by
    simp [holders, Image.boot, Proc.holds, File.holds]
  refine ⟨⟨⟨fun i _ hi => absurd hi (lt_irrefl _), fun i hi => absurd hi (lt_irrefl _), fun i => ?_,
    fun i hi => absurd (hhold i) hi.ne', fun n hn hz => ?_⟩, hvol⟩,
    fun f => ⟨fun _ => rfl, fun hf => (by cases hf)⟩, fun p _ => rfl⟩
  · rw [hhold]
    rfl
  · obtain ⟨hpos, hlt⟩ := h.shape.inUse hn
    exact absurd ((h.shape.used n hpos hlt).1.symm.trans hz) (by decide)

end Made

/-- The invariant of the file system holds exactly if the entries of the root directory do not fill
their last block, and the kernel reads the files as `mkfs` has read them. -/
theorem mkfs_image {files : List Source} {s : Image} (hrun : main files {} = .ok ((), s))
    (hfit : files.length + 2 ≤ NINODES) :
    (Sys sb s.boot [] ↔ ¬ 64 ∣ files.length + 2) ∧
      (∀ i f, files[i]? = some f → s.boot.content (i + 2) = f.bytes) ∧
      (s.boot.content ROOTINO).take (16 * (files.length + 2)) = rootEntries files := by
  obtain ⟨c, h⟩ := wp_ok (main_spec files) hrun
  refine ⟨⟨fun hsys hend => ?_, fun hend => h.sys (h.volInv hfit hend)⟩, fun i f hf => ?_, ?_⟩
  · have hlt : ROOTINO < s.freeinode := by
      rw [h.inodes]
      exact Nat.lt_add_right _ (by decide)
    have htype : (s.dinode ROOTINO).type ≠ .free := h.shape.type_ne Nat.one_pos hlt
    have hlen := h.length_root
    have hsize := (h.size ROOTINO).trans (if_pos rfl)
    -- the block behind the entries is missing
    have hhole := (hsys.ok.vol.filled ROOTINO htype).mapped ((c ROOTINO).length / BSIZE) (by
      rw [show (s.boot.dinode ROOTINO).size = _ from hsize]
      exact Nat.mul_lt_mul_of_pos_right (Nat.lt_succ_self _) (by decide))
    have hmax : (c ROOTINO).length / BSIZE < MAXFILE := by
      rw [hlen, show MAXFILE = 268 from rfl]
      unfold NINODES BSIZE at *
      omega
    have hlast := h.shape.tight ROOTINO _ hmax (by rwa [place_of_le htype hmax.le])
    rw [hlen] at hlast
    unfold BSIZE at hlast
    omega
  · have htake := h.take_content (i + 2)
    rwa [h.files i f hf, List.take_of_length_le] at htake
    rw [Fs.length_content, ← h.files i f hf]
    exact ((h.size _).trans (if_neg (by unfold ROOTINO; omega))).le
  · rw [← h.length_root, h.take_content, h.root]

/-- An image with the file `a`. -/
theorem mkfs_image_small : ∃ s, main [⟨[97], some [[104, 105]]⟩] {} = .ok ((), s) ∧
    Sys sb s.boot [] ∧ s.boot.content 2 = [104, 105] := by
  have hok : (main [⟨[97], some [[104, 105]]⟩] {}).isOk = true := by decide +kernel
  cases hrun : main [⟨[97], some [[104, 105]]⟩] {} with
  | error e => simp [hrun, Except.isOk, Except.toBool] at hok
  | ok r =>
    have himage := mkfs_image hrun (by decide)
    exact ⟨r.2, rfl, himage.1.mpr (by decide), himage.2.1 0 _ rfl⟩

end OsProject.Mkfs
