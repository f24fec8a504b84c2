import OsProject.BlockSpec

/-! `itrunc` gives every block of an inode back to the bitmap. -/

namespace OsProject

variable {sb : Superblock} {s t : Fs} {nodes : Nodes} {hold : Slot → Nat} {held : List Slot}
  {doomed : List Nat} {ip : Slot} {a : Nat → Nat} {E : Panic → Prop}

theorem bfree_spec {b : Nat} (hu : s.bitmap b = true) :
    wp (bfree sb b) (fun _ s' => ∃ l, s' = { s with
      bitmap := Function.update s.bitmap b false, logged := l }) E s := by
  simp only [bfree, logBlock, wp_bind, wp_get, wp_ite, wp_modify, wp_throw]
  refine ⟨fun hf => ?_, fun _ => ⟨_, rfl⟩⟩
  rw [hu] at hf
  exact absurd hf (by decide)

def reAddr (nodes : Nodes) (n : Nat) (a : Nat → Nat) : Nodes :=
  Function.update nodes n { nodes n with addrs := a }

@[simp] theorem reAddr_type (nodes : Nodes) (n m : Nat) (a : Nat → Nat) :
    (reAddr nodes n a m).type = (nodes m).type := by
  by_cases h : m = n <;> simp [reAddr, h]

@[simp] theorem reAddr_addrs (nodes : Nodes) (n : Nat) (a : Nat → Nat) :
    (reAddr nodes n a n).addrs = a := by
  simp [reAddr]

theorem place_reAddr_free {n : Nat} (hn : (nodes n).type = .free) (a : Nat → Nat)
    (data : Nat → Block) : place (reAddr nodes n a) data = place nodes data := by
  funext ⟨m, p⟩
  by_cases hm : m = n
  · simp [place, hm, hn]
  · simp [place, reAddr, hm]

theorem reAddr_setAddr (nodes : Nodes) (n i b : Nat) (a : Nat → Nat) :
    Function.update (reAddr nodes n a) n ((reAddr nodes n a n).setAddr i b) =
      reAddr nodes n (Function.update a i b) := by
  simp [reAddr, Dinode.setAddr]

structure Trimmed (sb : Superblock) (ip : Slot) (s : Fs) (nodes : Nodes) (a : Nat → Nat)
    (t : Fs) : Prop where
  state : ∃ bm l, t = { s with
    bitmap := bm
    inode := Function.update s.inode ip { s.inode ip with addrs := a }
    logged := l }
  owned : VolOwned sb (reAddr nodes (s.inode ip).inum a) t.bitmap t.data ∅

theorem Trimmed.addrs (h : Trimmed sb ip s nodes a t) : (t.inode ip).addrs = a := by
  obtain ⟨bm, l, rfl⟩ := h.state
  simp

theorem Trimmed.data (h : Trimmed sb ip s nodes a t) : t.data = s.data := by
  obtain ⟨bm, l, rfl⟩ := h.state
  rfl

theorem Trimmed.clear (h : Trimmed sb ip s nodes a t) {i : Nat} {bm : Nat → Bool} {l : List Nat}
    (howned : VolOwned sb (reAddr nodes (s.inode ip).inum (Function.update a i 0)) bm t.data ∅) :
    Trimmed sb ip s nodes (Function.update a i 0) (Fs.setInode { t with
      bitmap := bm, logged := l } ip
        { t.inode ip with addrs := Function.update (t.inode ip).addrs i 0 }) := by
  refine ⟨⟨bm, l, ?_⟩, howned⟩
  have haddrs := h.addrs
  obtain ⟨bm', l', rfl⟩ := h.state
  simp only [Fs.setInode, Function.update_idem, Function.update_self]

theorem truncDirect_spec {i : Nat} (hi : i < NDIRECT)
    (hn : (nodes (s.inode ip).inum).type ≠ .free) (h : Trimmed sb ip s nodes a t) :
    wp (truncDirect sb ip i)
      (fun _ u => Trimmed sb ip s nodes (Function.update a i 0) u) E t := by
  have hn' : (reAddr nodes (s.inode ip).inum a (s.inode ip).inum).type ≠ .free := by simpa using hn
  simp only [truncDirect, getInode, wp_bind, wp_get, wp_pure, wp_ite, h.addrs]
  refine ⟨fun hz => ?_, fun hne => ?_⟩
  · rw [← hz, Function.update_eq_self]
    exact h
  · have hmax : i ≤ MAXFILE := by rw [MAXFILE_eq]; omega
    have hat : place (reAddr nodes (s.inode ip).inum a) t.data ((s.inode ip).inum, i) = a i := by
      simp [place_of_le hn' hmax, blockAt, hi]
    obtain ⟨hused, hfreed⟩ := h.owned.free (x := ((s.inode ip).inum, i)) (by rwa [hat])
    rw [hat] at hused hfreed
    refine wp_post (bfree_spec hused) ?_
    rintro _ u ⟨l, rfl⟩
    refine h.clear ?_
    rw [VolOwned, ← reAddr_setAddr, place_setAddr_direct hn' hi]
    exact hfreed

theorem truncDirect_loop (hn : (nodes (s.inode ip).inum).type ≠ .free)
    (h : Trimmed sb ip s nodes a t) :
    wp (forM (List.range NDIRECT) (truncDirect sb ip))
      (fun _ u => ∃ a', Trimmed sb ip s nodes a' u ∧ ∀ i < NDIRECT, a' i = 0) E t := by
  -- The addresses that the loop has passed are 0.
  let I : List Nat → Fs → Prop := fun l u => (∀ i ∈ l, i < NDIRECT) ∧
    ∃ a', Trimmed sb ip s nodes a' u ∧ ∀ i < NDIRECT, i ∉ l → a' i = 0
  have hstep : ∀ i l u, I (i :: l) u → wp (truncDirect sb ip i) (fun _ v => I l v) E u := by
    rintro i l u ⟨hl, a', htrim, hzero⟩
    refine wp_post (truncDirect_spec (hl i (by simp)) hn htrim) ?_
    refine fun _ v hv => ⟨fun j hj => hl j (by simp [hj]), _, hv, fun j hj hnot => ?_⟩
    by_cases hji : j = i
    · rw [hji, Function.update_self]
    · rw [Function.update_of_ne hji]
      exact hzero j hj (by simp [hji, hnot])
  have hinit : I (List.range NDIRECT) t :=
    ⟨by simp, a, h, fun i hi hnot => absurd (List.mem_range.mpr hi) hnot⟩
  refine wp_post (wp_forM hstep hinit) ?_
  rintro _ u ⟨-, a', htrim, hzero⟩
  exact ⟨a', htrim, fun i hi => hzero i hi (by simp)⟩

def emptied (f : Nat × Nat → Nat) (n : Nat) (l : List Nat) (x : Nat × Nat) : Nat :=
  if x.1 = n ∧ NDIRECT ≤ x.2 ∧ x.2 < MAXFILE ∧ x.2 - NDIRECT ∉ l then 0 else f x

theorem emptied_range (f : Nat × Nat → Nat) (n : Nat) :
    emptied f n (List.range NINDIRECT) = f := by
  funext x
  refine if_neg fun hx => hx.2.2.2 (List.mem_range.mpr ?_)
  have hmax := MAXFILE_eq
  omega

theorem emptied_cons (f : Nat × Nat → Nat) (n : Nat) {j : Nat} {l : List Nat} (hj : j < NINDIRECT)
    (hl : j ∉ l) :
    emptied f n l = Function.update (emptied f n (j :: l)) (n, NDIRECT + j) 0 := by
  have hmax := MAXFILE_eq
  funext x
  by_cases hx : x = (n, NDIRECT + j)
  · rw [hx, Function.update_self, emptied, if_pos]
    simp only [Nat.add_sub_cancel_left]
    exact ⟨trivial, by omega, by omega, hl⟩
  · rw [Function.update_of_ne hx]
    simp only [emptied, List.mem_cons]
    refine if_congr ?_ rfl rfl
    have hne : x.1 = n → NDIRECT ≤ x.2 → x.2 - NDIRECT ≠ j := fun h1 h2 h3 =>
      hx (Prod.ext h1 (by simp only; omega))
    tauto

theorem emptied_entry (f : Nat × Nat → Nat) (n j : Nat) (l : List Nat) :
    emptied f n (j :: l) (n, NDIRECT + j) = f (n, NDIRECT + j) :=
  if_neg fun hx => hx.2.2.2 (by simp)

theorem emptied_indirect (f : Nat × Nat → Nat) (n : Nat) (l : List Nat) :
    emptied f n l (n, MAXFILE) = f (n, MAXFILE) :=
  if_neg fun hx => lt_irrefl _ hx.2.2.1

theorem place_clear_indirect {data : Nat → Block} {n : Nat} (hn : (nodes n).type ≠ .free) :
    place (Function.update nodes n ((nodes n).setAddr NDIRECT 0)) data =
      Function.update (emptied (place nodes data) n []) (n, MAXFILE) 0 := by
  have hmax := MAXFILE_eq
  have hpos := NINDIRECT_pos
  funext ⟨m, p⟩
  by_cases hm : m = n
  · subst hm
    by_cases hp : p ≤ MAXFILE
    · rw [place_of_le (by simpa using hn) hp, Function.update_self]
      by_cases hd : p < NDIRECT
      · have h1 : p ≠ MAXFILE := by omega
        have h2 : p ≠ NDIRECT := by omega
        have h3 : ¬ NDIRECT ≤ p := by omega
        simp [blockAt, hd, h1, h2, h3, Dinode.setAddr, emptied, place_of_le hn hp]
      · by_cases hc : p < MAXFILE
        · have h1 : p ≠ MAXFILE := by omega
          have h2 : NDIRECT ≤ p := by omega
          simp [blockAt, hd, hc, h1, h2, Dinode.setAddr, emptied]
        · have h1 : p = MAXFILE := by omega
          subst h1
          simp [blockAt, hd, Dinode.setAddr]
    · have h1 : p ≠ MAXFILE := by omega
      simp [place, hp, h1, emptied]
  · rw [place_eq_of_nodes (Function.update_of_ne hm _ _), Function.update_of_ne (by simp [hm])]
    simp [emptied, hm]

theorem truncEntry_loop {n ind : Nat} {f : Nat × Nat → Nat}
    (hentry : ∀ j < NINDIRECT, f (n, NDIRECT + j) = word (t.data ind) j)
    (h : Owned f t.bitmap sb.nmeta sb.size ∅) :
    wp (forM (List.range NINDIRECT) (truncEntry sb (t.data ind)))
      (fun _ u => ∃ bm l, u = { t with bitmap := bm, logged := l } ∧
        Owned (emptied f n []) bm sb.nmeta sb.size ∅) E t := by
  -- The entries that the loop has passed are no places any more.
  let I : List Nat → Fs → Prop := fun l u => l.Nodup ∧ (∀ j ∈ l, j < NINDIRECT) ∧
    ∃ bm lg, u = { t with bitmap := bm, logged := lg } ∧
      Owned (emptied f n l) bm sb.nmeta sb.size ∅
  have hstep : ∀ j l u, I (j :: l) u →
      wp (truncEntry sb (t.data ind) j) (fun _ v => I l v) E u := by
    rintro j l u ⟨hnodup, hlt, bm, lg, rfl, howned⟩
    obtain ⟨hjl, hnodup'⟩ := List.nodup_cons.mp hnodup
    have hj : j < NINDIRECT := hlt j (by simp)
    have hat : emptied f n (j :: l) (n, NDIRECT + j) = word (t.data ind) j := by
      rw [emptied_entry, hentry j hj]
    have hlt' : ∀ i ∈ l, i < NINDIRECT := fun i hi => hlt i (by simp [hi])
    simp only [truncEntry, wp_ite, wp_pure]
    refine ⟨fun hz => ⟨hnodup', hlt', bm, lg, rfl, ?_⟩, fun hne => ?_⟩
    · rw [emptied_cons f n hj hjl, ← hz, ← hat, Function.update_eq_self]
      exact howned
    · obtain ⟨hused, hfreed⟩ := howned.free (x := (n, NDIRECT + j)) (by rwa [hat])
      rw [hat] at hused hfreed
      rw [← emptied_cons f n hj hjl] at hfreed
      refine wp_post (bfree_spec hused) ?_
      rintro _ u ⟨l', rfl⟩
      exact ⟨hnodup', hlt', _, l', rfl, hfreed⟩
  have hinit : I (List.range NINDIRECT) t :=
    ⟨List.nodup_range, by simp, t.bitmap, t.logged, rfl, by rwa [emptied_range]⟩
  refine wp_post (wp_forM hstep hinit) ?_
  rintro _ u ⟨-, -, bm, lg, hu, howned⟩
  exact ⟨bm, lg, hu, howned⟩

theorem truncIndirect_spec (hn : (nodes (s.inode ip).inum).type ≠ .free)
    (h : Trimmed sb ip s nodes a t) :
    wp (truncIndirect sb ip)
      (fun _ u => Trimmed sb ip s nodes (Function.update a NDIRECT 0) u) E t := by
  have hn' : (reAddr nodes (s.inode ip).inum a (s.inode ip).inum).type ≠ .free := by simpa using hn
  simp only [truncIndirect, getInode, wp_bind, wp_get, wp_pure, wp_ite, h.addrs]
  refine ⟨fun hz => ?_, fun hne => ?_⟩
  · rw [← hz, Function.update_eq_self]
    exact h
  · have hentry : ∀ j < NINDIRECT, place (reAddr nodes (s.inode ip).inum a) t.data
        ((s.inode ip).inum, NDIRECT + j) = word (t.data (a NDIRECT)) j := fun j hj => by
      rw [place_word hn' (by simpa using hne) hj, reAddr_addrs]
    refine wp_post (truncEntry_loop hentry h.owned) ?_
    rintro _ u ⟨bm, l, rfl, howned⟩
    have hat : emptied (place (reAddr nodes (s.inode ip).inum a) t.data) (s.inode ip).inum []
        ((s.inode ip).inum, MAXFILE) = a NDIRECT := by
      rw [emptied_indirect, place_indirect hn', reAddr_addrs]
    obtain ⟨hused, hfreed⟩ := howned.free (x := ((s.inode ip).inum, MAXFILE)) (by rwa [hat])
    rw [hat] at hused hfreed
    refine wp_post (bfree_spec hused) ?_
    rintro _ u ⟨l', rfl⟩
    refine h.clear ?_
    rw [VolOwned, ← reAddr_setAddr, place_clear_indirect hn']
    exact hfreed

theorem place_of_addrs_zero {data : Nat → Block} {n : Nat}
    (hd : ∀ i ≤ NDIRECT, (nodes n).addrs i = 0) (p : Nat) : place nodes data (n, p) = 0 := by
  have hzero : blockAt data (nodes n) p = 0 := by
    by_cases hp : p < NDIRECT
    · simp [blockAt, hp, hd p hp.le]
    · simp [blockAt, hp, hd NDIRECT le_rfl]
  simp [place, hzero]

theorem place_trim {data : Nat → Block} {n : Nat} {d : Dinode}
    (hd : ∀ i ≤ NDIRECT, d.addrs i = 0) :
    place (Function.update nodes n d) data = place (reAddr nodes n d.addrs) data := by
  funext ⟨m, p⟩
  by_cases hm : m = n
  · subst hm
    rw [place_of_addrs_zero (by simpa using hd), place_of_addrs_zero (by simpa using hd)]
  · simp [place, reAddr, hm]

theorem VolInv.trim {bm bm' : Nat → Bool} {data : Nat → Block} {n : Nat} {d : Dinode}
    (h : VolInv sb nodes bm data) (hd : ∀ i ≤ NDIRECT, d.addrs i = 0) (hsize : d.size = 0)
    (hinum : d.type ≠ .free → 0 < n ∧ n < sb.ninodes) (hlink : short d.nlink = d.nlink)
    (howned : VolOwned sb (reAddr nodes n d.addrs) bm' data ∅) :
    VolInv sb (Function.update nodes n d) bm' data := by
  refine ⟨h.fits, by rwa [VolOwned, place_trim hd], fun m hm => ?_, fun m hm => ?_, fun m hm => ?_,
    fun m => ?_⟩
  · by_cases hmn : m = n
    · rw [hmn, Function.update_self]
      exact ⟨by omega, fun bn hbn => by omega⟩
    · rw [Function.update_of_ne hmn] at hm ⊢
      exact h.filled m hm
  · by_cases hmn : m = n
    · rw [hmn, Function.update_self] at hm
      exact hmn ▸ hinum hm
    · rw [Function.update_of_ne hmn] at hm
      exact h.inums m hm
  · by_cases hmn : m = n
    · rw [hmn, Function.update_self, hsize]
      exact dvd_zero 16
    · rw [Function.update_of_ne hmn] at hm ⊢
      exact h.dirSize m hm
  · by_cases hmn : m = n
    · rw [hmn, Function.update_self, hlink]
    · rw [Function.update_of_ne hmn]
      exact h.links m

structure Truncated (sb : Superblock) (ip : Slot) (s : Fs) (d : Dinode) (s' : Fs) : Prop where
  addrs : ∀ i ≤ NDIRECT, d.addrs i = 0
  inode : ∃ a, d = { (s.inode ip).toDinode with addrs := a, size := 0 }
  state : ∃ bm l, s' = { s with
    bitmap := bm
    inode := Function.update s.inode ip { s.inode ip with toDinode := d }
    dinode := Function.update s.dinode (s.inode ip).inum d
    logged := l }
  owned : VolOwned sb (reAddr s.dinode (s.inode ip).inum d.addrs) s'.bitmap s'.data ∅

theorem itrunc_owned (hco : (s.inode ip).toDinode = s.dinode (s.inode ip).inum)
    (hn : (s.dinode (s.inode ip).inum).type ≠ .free)
    (howned : VolOwned sb s.dinode s.bitmap s.data ∅) :
    wp (itrunc sb ip) (fun _ s' => ∃ d, Truncated sb ip s d s') E s := by
  have hinit : Trimmed sb ip s s.dinode (s.inode ip).addrs s := by
    refine ⟨⟨s.bitmap, s.logged, by simp⟩, ?_⟩
    have heq : reAddr s.dinode (s.inode ip).inum (s.inode ip).addrs = s.dinode := by
      simp [reAddr, hco]
    rw [heq]
    exact howned
  simp only [itrunc, wp_bind]
  refine wp_post (truncDirect_loop hn hinit) ?_
  rintro _ t ⟨a, htrim, hzero⟩
  refine wp_post (truncIndirect_spec hn htrim) ?_
  intro _ u htrim'
  have hzero' : ∀ i ≤ NDIRECT, Function.update a NDIRECT 0 i = 0 := fun i hi => by
    by_cases he : i = NDIRECT
    · rw [he, Function.update_self]
    · rw [Function.update_of_ne he]
      exact hzero i (by omega)
  have howned := htrim'.owned
  obtain ⟨bm, l, rfl⟩ := htrim'.state
  simp only [modInode, iupdate, getInode, setDinode, logBlock, wp_bind, wp_get, wp_pure, wp_modify,
    Fs.setInode, Function.update_self, Function.update_idem]
  exact ⟨_, hzero', ⟨_, rfl⟩, ⟨bm, _, rfl⟩, howned⟩

theorem itrunc_spec (h : FsOk sb s hold held doomed) (hr : 0 < (s.inode ip).ref)
    (hv : (s.inode ip).valid = true) :
    wp (itrunc sb ip) (fun _ s' => ∃ d, Truncated sb ip s d s') E s := by
  obtain ⟨hco, hty⟩ := h.cache.coherent ip hr hv
  exact itrunc_owned hco (hco ▸ hty) h.vol.owned

theorem Truncated.short_nlink {d : Dinode} {s' : Fs} (ht : Truncated sb ip s d s')
    (h : FsOk sb s hold held doomed) (hr : 0 < (s.inode ip).ref)
    (hv : (s.inode ip).valid = true) : short d.nlink = d.nlink := by
  obtain ⟨hco, -⟩ := h.cache.coherent ip hr hv
  obtain ⟨a, hd⟩ := ht.inode
  have hl := h.vol.links (s.inode ip).inum
  rw [← hco] at hl
  rw [hd]
  exact hl

theorem Truncated.fsOk {d : Dinode} {s' : Fs} (ht : Truncated sb ip s d s')
    (h : FsOk sb s hold held doomed) (hr : 0 < (s.inode ip).ref)
    (hv : (s.inode ip).valid = true) : FsOk sb s' hold held doomed := by
  obtain ⟨hco, hty⟩ := h.cache.coherent ip hr hv
  obtain ⟨a, hd⟩ := ht.inode
  have hcache := h.cache.modify_keep hr hv (d := d) (by rw [hd]) (by rw [hd])
  have howned := ht.owned
  have hlink := ht.short_nlink h hr hv
  obtain ⟨bm, l, rfl⟩ := ht.state
  exact ⟨hcache, h.vol.trim ht.addrs (by rw [hd])
    (fun _ => h.vol.inums _ (by rw [← hco]; exact hty)) hlink howned⟩

end OsProject
