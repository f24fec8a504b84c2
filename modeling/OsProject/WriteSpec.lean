import OsProject.ReadSpec

/-! `writei` keeps the volume in order whether it completes, runs out of blocks or faults on the
user buffer. -/

namespace OsProject

variable {sb : Superblock} {s s' : Fs} {nodes nodes' : Nodes} {hold : Slot → Nat}
  {held : List Slot} {doomed : List Nat} {ip : Slot} {T : Prop} {E : Panic → Prop}
  {src : Nat → Option UInt8}

/-- The first `k` bytes from offset `off` on are in blocks of the file and hold what `src`
gives. -/
def Wrote (nodes : Nodes) (data : Nat → Block) (src : Nat → Option UInt8) (n off tot k : Nat) :
    Prop :=
  ∀ i < k, (off + i) / BSIZE < MAXFILE ∧ place nodes data (n, (off + i) / BSIZE) ≠ 0 ∧
    ∀ v, src (tot + i) = some v → byteAt nodes data n (off + i) = v

theorem Grew.wrote {lo hi n off tot k : Nat} (hg : Grew ip lo hi s s' nodes nodes')
    (h : Wrote nodes s.data src n off tot k) (hlo : off + k ≤ lo) :
    Wrote nodes' s'.data src n off tot k := by
  intro i hi
  obtain ⟨hmax, hne, hval⟩ := h i hi
  refine ⟨hmax, by rwa [hg.blocks _ hne], fun v hv => ?_⟩
  rw [hg.bytes n _ hmax hne (.inr (.inl (by omega)))]
  exact hval v hv

theorem Wrote.append {n off tot k k' : Nat} (h : Wrote nodes s.data src n off tot k)
    (h' : Wrote nodes s.data src n (off + k) (tot + k) k') :
    Wrote nodes s.data src n off tot (k + k') := by
  intro i hi
  by_cases hk : i < k
  · exact h i hk
  · have hi' := h' (i - k) (by omega)
    have hoff : off + k + (i - k) = off + i := by omega
    have htot : tot + k + (i - k) = tot + i := by omega
    rwa [hoff, htot] at hi'

def copyBlockIn (src : Nat → Option UInt8) (blk : Block) (o tot k : Nat) : Block := fun x =>
  if o ≤ x ∧ x < o + k then (src (tot + (x - o))).getD 0 else blk x

structure Fetched (src : Nat → Option UInt8) (tot m g : Nat) : Prop where
  le : g ≤ m
  mapped : ∀ i < g, (src (tot + i)).isSome
  fault : g < m → src (tot + g) = none

theorem fetched_takeWhile (src : Nat → Option UInt8) (tot m : Nat) : Fetched src tot m
    (((List.range m).map fun i => src (tot + i)).takeWhile Option.isSome).length := by
  have hpre := List.takeWhile_prefix Option.isSome (l := (List.range m).map fun i => src (tot + i))
  have hle := hpre.length_le
  rw [List.length_map, List.length_range] at hle
  refine ⟨hle, fun i hi => ?_, fun hlt => ?_⟩
  · have hmem := List.mem_takeWhile_imp (List.getElem_mem hi)
    rwa [hpre.getElem hi, List.getElem_map, List.getElem_range] at hmem
  · have happ := List.takeWhile_append_dropWhile (p := Option.isSome)
      (l := (List.range m).map fun i => src (tot + i))
    have hne : ((List.range m).map fun i => src (tot + i)).dropWhile Option.isSome ≠ [] := by
      intro hnil
      rw [hnil, List.append_nil] at happ
      rw [happ, List.length_map, List.length_range] at hlt
      exact lt_irrefl _ hlt
    have hhead := List.head_dropWhile_not Option.isSome hne
    have hat := congrArg
      (·[(((List.range m).map fun i => src (tot + i)).takeWhile Option.isSome).length]?) happ
    rw [List.getElem?_append_right le_rfl, Nat.sub_self, ← List.head?_eq_getElem?,
      List.head?_eq_some_head hne, List.getElem?_map, List.getElem?_range hlt, Option.map_some,
      Option.some_inj] at hat
    rwa [hat, Option.isSome_eq_false_iff, Option.isNone_iff_eq_none] at hhead

theorem place_copyBlockIn {n p o tot k : Nat} (h : FsInv sb s nodes hold held doomed)
    (hp : p < MAXFILE) (hb : place nodes s.data (n, p) ≠ 0) :
    place nodes (Function.update s.data (place nodes s.data (n, p))
      (copyBlockIn src (s.data (place nodes s.data (n, p))) o tot k)) = place nodes s.data :=
  place_update_data _ fun _ hm => h.vol.owned.content_ne_indirect hp hb hm

theorem grew_copyBlockIn (src : Nat → Option UInt8) (tot k : Nat) {off : Nat}
    (h : FsInv sb s nodes hold held doomed)
    (hr : 0 < (s.inode ip).ref) (hv : (s.inode ip).valid = true) (hmax : off / BSIZE < MAXFILE)
    (hb : place nodes s.data ((s.inode ip).inum, off / BSIZE) ≠ 0) :
    Grew ip off (off + k) s { s with
      data := Function.update s.data (place nodes s.data ((s.inode ip).inum, off / BSIZE))
        (copyBlockIn src (s.data (place nodes s.data ((s.inode ip).inum, off / BSIZE)))
          (off % BSIZE) tot k) } nodes nodes := by
  obtain ⟨hco, hty⟩ := h.cache.coherent ip hr hv
  refine ⟨rfl, rfl, rfl, ⟨(s.inode ip).addrs, by simp, by simp [← hco]⟩, fun x _ => ?_,
    fun n o ho hx hout => ?_⟩
  · rw [place_copyBlockIn h hmax hb]
  · simp only [byteAt]
    rw [place_copyBlockIn h hmax hb]
    by_cases hsame : place nodes s.data (n, o / BSIZE) =
        place nodes s.data ((s.inode ip).inum, off / BSIZE)
    · -- The byte is in the same block, outside of what is written.
      have hx' := h.vol.owned.inj _ _ hx hsame
      have hnum : n = (s.inode ip).inum := congrArg Prod.fst hx'
      have hdiv : o / BSIZE = off / BSIZE := congrArg Prod.snd hx'
      rw [hsame, Function.update_self, copyBlockIn, if_neg]
      have h1 := Nat.div_add_mod o BSIZE
      have h2 := Nat.div_add_mod off BSIZE
      rw [hdiv] at h1
      have hout' : o < off ∨ off + k ≤ o := hout.resolve_left fun hne => hne hnum
      omega
    · rw [Function.update_of_ne hsame]

theorem wrote_copyBlockIn {n off tot k : Nat} (h : FsInv sb s nodes hold held doomed)
    (hmax : off / BSIZE < MAXFILE) (hb : place nodes s.data (n, off / BSIZE) ≠ 0)
    (hk : off % BSIZE + k ≤ BSIZE) :
    Wrote nodes (Function.update s.data (place nodes s.data (n, off / BSIZE))
      (copyBlockIn src (s.data (place nodes s.data (n, off / BSIZE))) (off % BSIZE) tot k))
      src n off tot k := by
  intro i hi
  obtain ⟨hdiv, hmod⟩ := block_offset off i (by omega)
  rw [place_copyBlockIn h hmax hb, hdiv]
  refine ⟨hmax, hb, fun v hv => ?_⟩
  rw [byteAt, place_copyBlockIn h hmax hb, hdiv, hmod, Function.update_self, copyBlockIn,
    if_pos (by omega)]
  have htot : tot + (off % BSIZE + i - off % BSIZE) = tot + i := by omega
  rw [htot, hv]
  rfl

theorem copyIn_spec {off tot m : Nat} (h : FsInv sb s nodes hold held doomed)
    (hr : 0 < (s.inode ip).ref) (hv : (s.inode ip).valid = true) (hmax : off / BSIZE < MAXFILE)
    (hb : place nodes s.data ((s.inode ip).inum, off / BSIZE) ≠ 0)
    (hm : off % BSIZE + m ≤ BSIZE) :
    wp (copyIn src (place nodes s.data ((s.inode ip).inum, off / BSIZE)) (off % BSIZE) tot m)
      (fun ok s' => ∃ g, Fetched src tot m g ∧ (ok = true ↔ g = m) ∧
        FsInv sb s' nodes hold held doomed ∧ Grew ip off (off + g) s s' nodes nodes ∧
        Wrote nodes s'.data src (s.inode ip).inum off tot g ∧
        place nodes s'.data = place nodes s.data ∧ s'.bitmap = s.bitmap) E s := by
  have hfetch := fetched_takeWhile src tot m
  simp only [copyIn, wp_bind, wp_modify, wp_pure]
  generalize (((List.range m).map fun i => src (tot + i)).takeWhile Option.isSome).length = g
    at hfetch
  refine ⟨g, hfetch, by simp, ?_⟩
  have hle := hfetch.le
  have hgrew := grew_copyBlockIn src tot g h hr hv hmax hb
  have howned := h.vol.owned
  rw [VolOwned, ← place_copyBlockIn h hmax hb] at howned
  exact ⟨hgrew.fsInv h hr hv howned, hgrew, wrote_copyBlockIn h hmax hb (by omega),
    place_copyBlockIn h hmax hb, trivial⟩

/-- The places that a write of `n` bytes at `off` may fill: those of its blocks, and the one of
the indirect block. -/
def Wanted (off n p : Nat) : Prop :=
  0 < n ∧ (p < MAXFILE ∧ off / BSIZE ≤ p ∧ p * BSIZE < off + n ∨
    p = MAXFILE ∧ NDIRECT * BSIZE < off + n)

theorem wanted_first {off n : Nat} (hn : 0 < n) (hmax : off / BSIZE < MAXFILE) :
    Wanted off n (off / BSIZE) ∧ (NDIRECT ≤ off / BSIZE → Wanted off n MAXFILE) := by
  have hle : off / BSIZE * BSIZE ≤ off := Nat.div_mul_le_self off BSIZE
  refine ⟨⟨hn, .inl ⟨hmax, le_rfl, by omega⟩⟩, fun hd => ⟨hn, .inr ⟨rfl, ?_⟩⟩⟩
  have hmul : NDIRECT * BSIZE ≤ off / BSIZE * BSIZE := Nat.mul_le_mul_right _ hd
  omega

theorem Wanted.mono {off n off' n' p : Nat} (h : Wanted off' n' p) (hoff : off ≤ off')
    (hend : off' + n' ≤ off + n) : Wanted off n p := by
  obtain ⟨hn, ⟨hp, hlo, hhi⟩ | ⟨hp, hhi⟩⟩ := h
  · have hdiv : off / BSIZE ≤ off' / BSIZE := Nat.div_le_div_right hoff
    exact ⟨by omega, .inl ⟨hp, by omega, by omega⟩⟩
  · exact ⟨by omega, .inr ⟨hp, by omega⟩⟩

/-- Why the loop of `writei` stops after `k` of `n` bytes, with `g` bytes more in the block that it
was copying: it is done, or there is no block for the next bytes, or the source faults. -/
def Stopped (sb : Superblock) (src : Nat → Option UInt8) (t : Fs) (hole : Nat → Prop)
    (off n tot k g : Nat) : Prop :=
  k = n ∧ g = 0 ∨ (k = 0 ∨ (off + k) % BSIZE = 0) ∧ k < n ∧
    (g = 0 ∧ hole ((off + k) / BSIZE) ∧ t.Full sb ∨
      k + g < n ∧ (off + (k + g)) / BSIZE = (off + k) / BSIZE ∧ src (tot + (k + g)) = none)

structure LoopDone (sb : Superblock) (hold : Slot → Nat) (held : List Slot) (doomed : List Nat)
    (ip : Slot) (src : Nat → Option UInt8) (off n tot k g : Nat) (s t : Fs) (nodes nodes' : Nodes) :
    Prop where
  inv : FsInv sb t nodes' hold held doomed
  grew : Grew ip off (off + (k + g)) s t nodes nodes'
  wrote : Wrote nodes' t.data src (s.inode ip).inum off tot (k + g)
  mapped : ∀ i < k + g, (src (tot + i)).isSome
  others : ∀ x, (x.1 = (s.inode ip).inum → ¬ Wanted off n x.2) →
    place nodes' t.data x = place nodes s.data x
  stop : Stopped sb src t (fun p => place nodes' t.data ((s.inode ip).inum, p) = 0) off n tot k g

theorem Stopped.le {t : Fs} {hole : Nat → Prop} {off n tot k g : Nat}
    (h : Stopped sb src t hole off n tot k g) : k + g ≤ n := by
  rcases h with ⟨rfl, rfl⟩ | ⟨-, hk, ⟨rfl, -⟩ | ⟨hlt, -⟩⟩
  · exact le_rfl
  · omega
  · omega

theorem LoopDone.append {off n tot m k g : Nat} {t u : Fs} {nodes'' : Nodes}
    (h : LoopDone sb hold held doomed ip src off m tot m 0 s t nodes nodes')
    (h' : LoopDone sb hold held doomed ip src (off + m) (n - m) (tot + m) k g t u nodes' nodes'')
    (hm : m = n ∨ (off + m) % BSIZE = 0) (hle : m ≤ n) :
    LoopDone sb hold held doomed ip src off n tot (m + k) g s u nodes nodes'' := by
  have hinum := h.grew.inum ip
  refine ⟨h'.inv, ?_, ?_, fun i hi => ?_, fun x hx => ?_, ?_⟩
  · exact (h.grew.mono fun o _ ho => by omega).trans (h'.grew.mono fun o _ ho => by omega)
  · have hw := h'.wrote
    rw [hinum] at hw
    rw [Nat.add_assoc]
    exact (h'.grew.wrote h.wrote (by omega)).append hw
  · by_cases him : i < m
    · exact h.mapped i (by omega)
    · have hi' := h'.mapped (i - m) (by omega)
      rwa [show tot + m + (i - m) = tot + i by omega] at hi'
  · rw [h'.others x, h.others x]
    · exact fun hx' hw => hx hx' (hw.mono le_rfl (by omega))
    · rw [hinum]
      exact fun hx' hw => hx hx' (hw.mono (by omega) (by omega))
  · rcases h'.stop with ⟨hk, hg⟩ | ⟨hblock, hk, hwhy⟩
    · exact .inl ⟨by omega, hg⟩
    · have hm' : (off + m) % BSIZE = 0 := hm.resolve_left (by omega)
      rw [hinum] at hwhy
      refine .inr ⟨.inr ?_, by omega, hwhy.imp ?_ ?_⟩
      · rcases hblock with rfl | hblock
        · exact hm'
        · rwa [← Nat.add_assoc]
      · rintro ⟨hg, hhole, hfull⟩
        rw [Nat.add_assoc] at hhole
        exact ⟨hg, hhole, hfull⟩
      · rintro ⟨hlt, hsame, hfault⟩
        refine ⟨by omega, ?_, ?_⟩
        · rwa [show off + (m + k + g) = off + m + (k + g) by omega, ← Nat.add_assoc off]
        · rwa [show tot + (m + k + g) = tot + m + (k + g) by omega]

theorem writeLoop_spec {n : Nat} (fuel : Nat) : ∀ {s : Fs} {nodes : Nodes} {off tot : Nat},
    FsInv sb s nodes hold held doomed → 0 < (s.inode ip).ref → (s.inode ip).valid = true →
    n - tot ≤ fuel → off + (n - tot) ≤ MAXFILE * BSIZE →
    wp (writeLoop sb ip src fuel off n tot) (fun r t => ∃ nodes' k g, r = tot + k ∧
      LoopDone sb hold held doomed ip src off (n - tot) tot k g s t nodes nodes') E s := by
  -- nothing is left to write
  have hdone : ∀ {s : Fs} {nodes : Nodes} {off tot : Nat}, FsInv sb s nodes hold held doomed →
      0 < (s.inode ip).ref → (s.inode ip).valid = true → n - tot = 0 →
      LoopDone sb hold held doomed ip src off (n - tot) tot 0 0 s s nodes nodes := by
    intro s nodes off tot h hr hv hn
    obtain ⟨hco, -⟩ := h.cache.coherent ip hr hv
    exact ⟨h, .refl _ _ hco, by simp [Wrote], by simp, fun _ _ => rfl, .inl ⟨hn.symm, rfl⟩⟩
  induction fuel with
  | zero =>
    intro s nodes off tot h hr hv hfuel _
    simp only [writeLoop, wp_pure]
    exact ⟨nodes, 0, 0, rfl, hdone h hr hv (by omega)⟩
  | succ fuel ih =>
    intro s nodes off tot h hr hv hfuel hfits
    simp only [writeLoop, wp_ite, wp_bind, wp_pure]
    refine ⟨fun hlt => ?_, fun hge => ⟨nodes, 0, 0, rfl, hdone h hr hv (by omega)⟩⟩
    have hbn : off / BSIZE < MAXFILE := Nat.div_lt_of_lt_mul (by rw [Nat.mul_comm]; omega)
    refine wp_post (bmap_spec (.inl hbn) h hr hv) ?_
    rintro b s1 ⟨nodes1, h1, hg1, hmax, hb, hothers, hfull⟩
    have hmod : off % BSIZE < BSIZE := Nat.mod_lt off BSIZE_pos
    have hmin := min_def (n - tot) (BSIZE - off % BSIZE)
    generalize min (n - tot) (BSIZE - off % BSIZE) = m at hmin
    have hm : 0 < m ∧ m ≤ n - tot ∧ off % BSIZE + m ≤ BSIZE ∧ (m = n - tot ∨ off % BSIZE + m = BSIZE) := by
      split_ifs at hmin <;> omega
    obtain ⟨hpos, hle, hblock, hend⟩ := hm
    obtain ⟨hwant, hwantInd⟩ := wanted_first hpos hmax
    have hothers1 : ∀ x, (x.1 = (s.inode ip).inum → ¬ Wanted off m x.2) →
        place nodes1 s1.data x = place nodes s.data x := by
      intro x hx
      refine hothers x ?_ fun hd => ?_
      · rintro rfl
        exact hx rfl hwant
      · rintro rfl
        exact hx rfl (hwantInd hd)
    have hothers2 : ∀ x, (x.1 = (s.inode ip).inum → ¬ Wanted off (n - tot) x.2) →
        place nodes1 s1.data x = place nodes s.data x := fun x hx =>
      hothers1 x fun hx' hw => hx hx' (hw.mono le_rfl (by omega))
    refine ⟨fun hz => ⟨nodes1, 0, 0, rfl, h1, hg1.mono fun o _ ho => by omega, by simp [Wrote],
      by simp, hothers2, .inr ⟨.inl rfl, by omega, .inl ⟨rfl, hb.symm.trans hz, hfull hz⟩⟩⟩,
      fun hne => ?_⟩
    have hr1 : 0 < (s1.inode ip).ref := by rwa [hg1.ref]
    have hv1 : (s1.inode ip).valid = true := by rwa [hg1.valid]
    rw [← hg1.inum ip] at hb
    subst hb
    refine wp_post (copyIn_spec h1 hr1 hv1 hmax hne hblock) ?_
    rintro ok s2 ⟨g, hfetch, hok, h2, hg2, hwrote, hplace, -⟩
    rw [hg1.inum] at hwrote
    have hgle := hfetch.le
    have hg : Grew ip off (off + g) s s2 nodes nodes1 :=
      (hg1.mono fun o _ ho => by omega).trans hg2
    refine ⟨fun hyes => ?_, fun hno => ?_⟩
    · obtain rfl := hok.mp hyes
      simp only [logBlock, wp_modify]
      generalize absorb s2.logged _ = l
      refine wp_post (ih (h2.logged l) (by rwa [← hg2.ref] at hr1) (by rwa [← hg2.valid] at hv1)
        (by omega) (by omega)) ?_
      rintro r s3 ⟨nodes3, k, g', rfl, hrest⟩
      rw [show n - (tot + g) = n - tot - g by omega] at hrest
      refine ⟨nodes3, g + k, g', by omega, LoopDone.append ⟨h2.logged l, hg.logged l, hwrote,
        hfetch.mapped, fun x hx => ?_, .inl ⟨rfl, rfl⟩⟩ hrest ?_ hle⟩
      · rw [← hothers1 x hx, ← hplace]
      · refine hend.imp id fun he => ?_
        have hdiv := Nat.div_add_mod off BSIZE
        have hsum : off + g = BSIZE * (off / BSIZE + 1) := by
          rw [Nat.mul_add]
          omega
        rw [hsum, Nat.mul_mod_right]
    · have hlt' : g < m := lt_of_le_of_ne hgle fun he => hno (hok.mpr he)
      refine ⟨nodes1, 0, g, rfl, h2, ?_, ?_, ?_, fun x hx => ?_,
        .inr ⟨.inl rfl, by omega, .inr ⟨by omega, ?_, ?_⟩⟩⟩
      · rwa [Nat.zero_add]
      · rwa [Nat.zero_add]
      · rw [Nat.zero_add]
        exact hfetch.mapped
      · rw [hplace]
        exact hothers2 x hx
      · rw [Nat.zero_add, Nat.add_zero]
        exact (block_offset off g (by omega)).1
      · rw [Nat.zero_add]
        exact hfetch.fault hlt'

def resized (s : Fs) (ip : Slot) (size : Nat) (l : List Nat) : Fs :=
  { s with
    inode := Function.update s.inode ip { s.inode ip with size := size }
    dinode := Function.update s.dinode (s.inode ip).inum
      { (s.inode ip).toDinode with size := size }
    logged := l }

structure WriteDone (sb : Superblock) (hold : Slot → Nat) (held : List Slot) (doomed : List Nat)
    (ip : Slot) (src : Nat → Option UInt8) (off n k : Nat) (s t : Fs) (nodes : Nodes) : Prop where
  inv : FsInv sb t nodes hold held doomed
  grew : Grew ip off (off + n) s t s.dinode nodes
  le : k ≤ n
  off_le : off ≤ (s.inode ip).size
  fits : off + n ≤ MAXFILE * BSIZE
  wrote : Wrote nodes t.data src (s.inode ip).inum off 0 k
  full : (∀ i, (src i).isSome) → Grew ip off (off + k) s t s.dinode nodes ∧
    (k = n ∨ k = 0 ∨ (off + k) % BSIZE = 0)

theorem LoopDone.writeDone {off n k g : Nat} {t : Fs}
    (h : LoopDone sb hold held doomed ip src off n 0 k g s t s.dinode nodes)
    (hoff : off ≤ (s.inode ip).size) (hfits : off + n ≤ MAXFILE * BSIZE) :
    WriteDone sb hold held doomed ip src off n k s t nodes := by
  have hle := h.stop.le
  refine ⟨h.inv, h.grew.mono fun o _ ho => by omega, by omega, hoff, hfits,
    fun i hi => h.wrote i (by omega), fun hall => ?_⟩
  rcases h.stop with ⟨rfl, rfl⟩ | ⟨hblock, -, ⟨rfl, -⟩ | ⟨-, -, hfault⟩⟩
  · exact ⟨h.grew, .inl rfl⟩
  · exact ⟨h.grew, .inr hblock⟩
  · have hsome := hall (0 + (k + g))
    rw [hfault] at hsome
    exact absurd hsome (by simp)

theorem writei_loop {off n : Nat} (h : FsOk sb s hold held doomed) (hr : 0 < (s.inode ip).ref)
    (hv : (s.inode ip).valid = true) (hn : n < 2 ^ 32) :
    wp (writei sb ip src off n) (fun r s' =>
      (r = -1 ∧ s' = s ∧ ((s.inode ip).size < off ∨ MAXFILE * BSIZE < off + n)) ∨
      ∃ (k g : Nat) (t : Fs) (nodes : Nodes) (l : List Nat), r = k ∧
        off ≤ (s.inode ip).size ∧ off + n ≤ MAXFILE * BSIZE ∧
        LoopDone sb hold held doomed ip src off n 0 k g s t s.dinode nodes ∧
        s' = resized t ip (max (s.inode ip).size (off + k)) l) E s := by
  have hsize := h.size_le hr hv
  have hmax : MAXFILE * BSIZE < 2 ^ 32 := by decide
  simp only [writei, getInode, wp_bind, wp_get, wp_pure, wp_ite]
  have hwrap : ¬ off + n < 2 ^ 32 → off ≤ (s.inode ip).size → (off + n) % 2 ^ 32 < off := by
    intro hge hoff
    rw [Nat.mod_eq_sub_mod (by omega), Nat.mod_eq_of_lt (by omega)]
    omega
  by_cases hnowrap : off + n < 2 ^ 32
  · rw [Nat.mod_eq_of_lt hnowrap]
    refine ⟨fun hbad => .inl ⟨trivial, trivial, .inl (by omega)⟩,
      fun hok => ⟨fun hbig => .inl ⟨trivial, trivial, .inr hbig⟩, fun hfits => ?_⟩⟩
    refine wp_post (writeLoop_spec n h hr hv (by omega) (by omega)) ?_
    rintro r t ⟨nodes, k, g, rfl, hdone⟩
    have hslot : (t.inode ip).size = (s.inode ip).size := by
      obtain ⟨a, ha, -⟩ := hdone.grew.grown
      simp [ha]
    simp only [modInode, iupdate, getInode, setDinode, logBlock, wp_bind, wp_get, wp_pure, wp_modify,
      Fs.setInode, Function.update_self]
    have hmaxif : (if (t.inode ip).size < off + (0 + k) then off + (0 + k) else (t.inode ip).size) =
        max (s.inode ip).size (off + k) := by
      rw [hslot]
      split_ifs <;> omega
    rw [hmaxif]
    exact .inr ⟨k, g, t, nodes, _, by simp, by omega, by omega, hdone, rfl⟩
  · refine ⟨fun _ => .inl ⟨trivial, trivial, .inr (by omega)⟩, fun hok => ?_⟩
    have hlt := hwrap hnowrap (by omega)
    omega

theorem writei_core {off n : Nat} (h : FsOk sb s hold held doomed) (hr : 0 < (s.inode ip).ref)
    (hv : (s.inode ip).valid = true) (hn : n < 2 ^ 32) :
    wp (writei sb ip src off n) (fun r s' => (r = -1 ∧ s' = s) ∨
      ∃ (k : Nat) (t : Fs) (nodes : Nodes) (l : List Nat), r = k ∧
        WriteDone sb hold held doomed ip src off n k s t nodes ∧
        s' = resized t ip (max (s.inode ip).size (off + k)) l) E s := by
  refine wp_post (writei_loop h hr hv hn) ?_
  rintro r s' (⟨hr, hs, -⟩ | ⟨k, g, t, nodes, l, hk, hoff, hfits, hdone, hs⟩)
  · exact .inl ⟨hr, hs⟩
  · exact .inr ⟨k, t, nodes, l, hk, hdone.writeDone hoff hfits, hs⟩

theorem VolInv.resize {bm : Nat → Bool} {data : Nat → Block} {n size : Nat}
    (h : VolInv sb nodes bm data) (hn : (nodes n).type ≠ .free) (hle : size ≤ MAXFILE * BSIZE)
    (hmapped : ∀ bn, bn * BSIZE < size → place nodes data (n, bn) ≠ 0)
    (hdir : (nodes n).type = .dir → 16 ∣ size) :
    VolInv sb (Function.update nodes n { nodes n with size := size }) bm data := by
  have htypes : ∀ m, (Function.update nodes n { nodes n with size := size } m).type =
      (nodes m).type := fun m => by
    by_cases hm : m = n <;> simp [hm]
  refine ⟨h.fits, ?_, fun m hm => ?_, fun m hm => ?_, fun m hm => ?_, fun m => ?_⟩
  · rw [VolOwned, place_setInfo (d := { nodes n with size := size }) rfl rfl]
    exact h.owned
  · by_cases hmn : m = n
    · subst hmn
      rw [Function.update_self]
      refine ⟨hle, fun bn hbn => ?_⟩
      have hlt : bn < MAXFILE := lt_of_mul_lt_mul_right (hbn.trans_le hle) (Nat.zero_le _)
      have hne := hmapped bn hbn
      rwa [place_of_le hn hlt.le] at hne
    · rw [Function.update_of_ne hmn] at hm ⊢
      exact h.filled m hm
  · exact h.inums m (by rwa [htypes] at hm)
  · rw [htypes] at hm
    by_cases hmn : m = n
    · subst hmn
      rw [Function.update_self]
      exact hdir hm
    · rw [Function.update_of_ne hmn]
      exact h.dirSize m hm
  · by_cases hmn : m = n
    · subst hmn
      rw [Function.update_self]
      exact h.links m
    · rw [Function.update_of_ne hmn]
      exact h.links m

section Done

variable {off n k : Nat} {t : Fs} (hd : WriteDone sb hold held doomed ip src off n k s t nodes)
include hd

theorem WriteDone.kept (size : Nat) (l : List Nat)
    (hkind : ∀ m, ((resized t ip size l).graph m).kind = (s.graph m).kind) :
    Kept hold held s (resized t ip size l) := by
  refine ⟨hd.grew.file, hd.grew.kernel, fun i _ => ?_, fun i _ => hkind _⟩
  have h1 := hd.grew.inum i
  have h2 := hd.grew.valid i
  by_cases he : i = ip
  · subst he
    simp [resized, h1, h2]
  · simp [resized, he, h1, h2]

variable (hr : 0 < (s.inode ip).ref) (hv : (s.inode ip).valid = true)
include hr hv

theorem WriteDone.slot : (t.inode ip).toDinode = nodes (s.inode ip).inum ∧
    (nodes (s.inode ip).inum).type ≠ .free := by
  obtain ⟨hco, hty⟩ := hd.inv.cache.coherent ip (by rwa [hd.grew.ref]) (by rwa [hd.grew.valid])
  rw [hd.grew.inum] at hco
  exact ⟨hco, hco ▸ hty⟩

theorem WriteDone.resized_dinode (size : Nat) (l : List Nat) :
    (resized t ip size l).dinode = Function.update nodes (s.inode ip).inum
      { nodes (s.inode ip).inum with size := size } := by
  obtain ⟨a, -, hn⟩ := hd.grew.grown
  obtain ⟨hco, -⟩ := hd.slot hr hv
  simp only [resized, hd.grew.inum, hd.grew.dinode, hco]
  rw [hn, Function.update_idem]

theorem WriteDone.mapped {bn : Nat} (hbn : bn * BSIZE < max (s.inode ip).size (off + k)) :
    place nodes t.data ((s.inode ip).inum, bn) ≠ 0 := by
  obtain ⟨hco, hty⟩ := hd.slot hr hv
  have hslot : (t.inode ip).size = (s.inode ip).size := by
    obtain ⟨a, ha, -⟩ := hd.grew.grown
    simp [ha]
  have hdiv : bn * BSIZE / BSIZE = bn := Nat.mul_div_cancel bn BSIZE_pos
  by_cases hold' : bn * BSIZE < (s.inode ip).size
  · have hm := (hd.inv.vol.filled _ hty).place_ne hty (o := bn * BSIZE)
      (by rw [← hco, hslot]; exact hold')
    rw [hdiv] at hm
    exact hm.2
  · -- The block starts at or after `off`, since `off` is not above the old size.
    have hoff := hd.off_le
    have hw := (hd.wrote (bn * BSIZE - off) (by omega)).2.1
    have hat : off + (bn * BSIZE - off) = bn * BSIZE := by omega
    rwa [hat, hdiv] at hw

theorem WriteDone.fsOk (hsize : (s.inode ip).size ≤ MAXFILE * BSIZE)
    (hdir : (s.inode ip).type = .dir → 16 ∣ max (s.inode ip).size (off + k)) (l : List Nat) :
    FsOk sb (resized t ip (max (s.inode ip).size (off + k)) l) hold held doomed := by
  obtain ⟨hco, hty⟩ := hd.slot hr hv
  have htype : (t.inode ip).type = (s.inode ip).type := by
    obtain ⟨a, ha, -⟩ := hd.grew.grown
    simp [ha]
  have hle : max (s.inode ip).size (off + k) ≤ MAXFILE * BSIZE := by
    have h1 := hd.fits
    have h2 := hd.le
    omega
  have hr' : 0 < (t.inode ip).ref := by rwa [hd.grew.ref]
  have hv' : (t.inode ip).valid = true := by rwa [hd.grew.valid]
  rw [FsOk, hd.resized_dinode hr hv]
  constructor
  · have hm := hd.inv.cache.modify_keep hr' hv'
      (d := { (t.inode ip).toDinode with size := max (s.inode ip).size (off + k) }) rfl rfl
    rw [hd.grew.inum] at hm
    rw [← hco]
    exact hm
  · exact hd.inv.vol.resize hty hle (fun bn hbn => hd.mapped hr hv hbn) fun hdir' =>
      hdir (by rw [← htype, hco]; exact hdir')

theorem WriteDone.byteAt_resized (size : Nat) (l : List Nat) (m o : Nat) :
    byteAt (resized t ip size l).dinode (resized t ip size l).data m o =
      byteAt nodes t.data m o := by
  rw [hd.resized_dinode hr hv, byteAt, byteAt,
    place_setInfo (d := { nodes (s.inode ip).inum with size := size }) rfl rfl]
  rfl

theorem WriteDone.byteAt_outside (h : FsOk sb s hold held doomed) {lo hi : Nat}
    (hg : Grew ip lo hi s t s.dinode nodes) {size : Nat} {l : List Nat} {m o : Nat}
    (hm : (s.dinode m).type ≠ .free) (ho : o < (s.dinode m).size)
    (hout : m ≠ (s.inode ip).inum ∨ o < lo ∨ hi ≤ o) :
    byteAt (resized t ip size l).dinode (resized t ip size l).data m o =
      byteAt s.dinode s.data m o := by
  obtain ⟨hmax, hne⟩ := (h.vol.filled m hm).place_ne hm ho
  rw [← hg.bytes m o hmax hne hout, hd.byteAt_resized hr hv]

theorem WriteDone.graph_of_ne (h : FsOk sb s hold held doomed) (size : Nat) (l : List Nat) {m : Nat}
    (hm : m ≠ (s.inode ip).inum ∨ (s.inode ip).type ≠ .dir) :
    (resized t ip size l).graph m = s.graph m := by
  obtain ⟨hco, -⟩ := h.cache.coherent ip hr hv
  have hnode := hd.resized_dinode hr hv size l
  have htype : ((resized t ip size l).dinode m).type = (s.dinode m).type := by
    rw [← hd.grew.type m, hnode]
    by_cases he : m = (s.inode ip).inum <;> simp [he]
  have hlink : ((resized t ip size l).dinode m).nlink = (s.dinode m).nlink := by
    rw [← hd.grew.nlink m, hnode]
    by_cases he : m = (s.inode ip).inum <;> simp [he]
  have hne : (s.dinode m).type = .dir → m ≠ (s.inode ip).inum := by
    rintro hdir rfl
    rw [← hco] at hdir
    exact hm.elim (fun hmm => hmm rfl) fun hnd => hnd hdir
  refine graphOf_congr htype hlink (fun hdir => ?_) fun hdir j i hj hi => ?_
  · rw [← hd.grew.size m, hnode, Function.update_of_ne (hne hdir)]
  · have hdvd := h.vol.dirSize m hdir
    exact hd.byteAt_outside hr hv h hd.grew (by rw [hdir]; decide) (by omega) (.inl (hne hdir))

end Done

theorem writei_file {off n : Nat} (h : FsOk sb s hold held doomed) (hi : 0 < hold ip ∨ ip ∈ held)
    (hv : (s.inode ip).valid = true) (hn : n < 2 ^ 32) (hdir : (s.inode ip).type ≠ .dir) :
    wp (writei sb ip src off n) (fun _ s' => Reaches sb hold held s s' held doomed s.graph)
      (Err T) s := by
  have hr := h.ref_pos hi
  obtain ⟨hco, hty⟩ := h.cache.coherent ip hr hv
  have hsize : (s.inode ip).size ≤ MAXFILE * BSIZE := by
    rw [hco]
    exact (h.vol.filled _ (hco ▸ hty)).size_le
  refine wp_post (writei_core h hr hv hn) ?_
  rintro r s' (⟨-, rfl⟩ | ⟨k, t, nodes, l, -, hd, rfl⟩)
  · exact .refl h
  · have hgraph : (resized t ip (max (s.inode ip).size (off + k)) l).graph = s.graph :=
      funext fun m => hd.graph_of_ne hr hv h _ l (.inr hdir)
    exact ⟨hd.fsOk hr hv hsize (fun hd => absurd hd hdir) l,
      hd.kept _ l fun m => by rw [hgraph], hgraph⟩

end OsProject
