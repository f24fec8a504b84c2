import OsProject.FileContent

/-! `filewrite` writes in several transactions. When there are blocks for all of the bytes, the
parts together have the effect of one `writei`. -/

namespace OsProject

variable {sb : Superblock} {s s' : Fs} {nodes nodes' : Nodes} {hold : Slot → Nat}
  {held : List Slot} {doomed : List Nat} {ip : Slot} {src : Nat → Option UInt8}
  {off n off' n' m : Nat} {bitmap bitmap' : Nat → Bool} {data data' : Nat → Block}
  {E : Panic → Prop} {f : Fin NFILE}

instance : DecidablePred (Wanted off n) := fun _ => inferInstanceAs (Decidable (_ ∧ _))

/-- The places of inode `m` for which a write of `n` bytes at `off` has to allocate. -/
def lacking (nodes : Nodes) (data : Nat → Block) (m off n : Nat) : Finset Nat :=
  (Finset.range (MAXFILE + 1)).filter fun p => Wanted off n p ∧ place nodes data (m, p) = 0

def Enough (sb : Superblock) (s : Fs) (m off n : Nat) : Prop :=
  (lacking s.dinode s.data m off n).card ≤ (freeBlocks s.bitmap sb.size).card

instance : Decidable (Enough sb s m off n) := inferInstanceAs (Decidable (_ ≤ _))

theorem Wanted.le {p : Nat} (h : Wanted off n p) : p ≤ MAXFILE := by
  obtain ⟨-, ⟨hp, -⟩ | ⟨hp, -⟩⟩ := h
  · exact hp.le
  · exact hp.le

theorem mem_lacking {p : Nat} :
    p ∈ lacking nodes data m off n ↔ Wanted off n p ∧ place nodes data (m, p) = 0 := by
  rw [lacking, Finset.mem_filter, Finset.mem_range]
  exact ⟨fun h => h.2, fun h => ⟨Nat.lt_succ_of_le h.1.le, h⟩⟩

structure Fills (m off n : Nat) (nodes : Nodes) (data : Nat → Block) (nodes' : Nodes)
    (data' : Nat → Block) : Prop where
  kept : ∀ x, place nodes data x ≠ 0 → place nodes' data' x = place nodes data x
  others : ∀ x, (x.1 = m → ¬ Wanted off n x.2) → place nodes' data' x = place nodes data x

theorem Fills.card_freeBlocks (h : Fills m off n nodes data nodes' data')
    (hs : VolOwned sb nodes bitmap data ∅) (hs' : VolOwned sb nodes' bitmap' data' ∅) :
    (freeBlocks bitmap sb.size).card + (lacking nodes' data' m off n).card =
      (freeBlocks bitmap' sb.size).card + (lacking nodes data m off n).card := by
  have hmap : ∀ (nodes : Nodes) (data : Nat → Block), (lacking nodes data m off n).card =
      ((((Finset.range (MAXFILE + 1)).filter (Wanted off n)).image (Prod.mk m)).filter fun x =>
        place nodes data x = 0).card := by
    intro nodes data
    rw [Finset.filter_image, Finset.card_image_of_injective _ (Prod.mk_right_injective m),
      Finset.filter_filter]
    rfl
  rw [hmap, hmap]
  refine hs.card_freeBlocks hs' (fun x hx => h.others x ?_) h.kept
  rintro rfl hw
  refine hx (Finset.mem_image.mpr ⟨x.2, Finset.mem_filter.mpr ⟨?_, hw⟩, rfl⟩)
  exact Finset.mem_range.mpr (Nat.lt_succ_of_le hw.le)

theorem Fills.mono (h : Fills m off' n' nodes data nodes' data') (hoff : off ≤ off')
    (hend : off' + n' ≤ off + n) : Fills m off n nodes data nodes' data' :=
  ⟨h.kept, fun x hx => h.others x fun hx' hw => hx hx' (hw.mono hoff hend)⟩

theorem Fills.enough (h : Fills m off n s.dinode s.data s'.dinode s'.data)
    (hs : VolOwned sb s.dinode s.bitmap s.data ∅) (hs' : VolOwned sb s'.dinode s'.bitmap s'.data ∅)
    (henough : Enough sb s m off n) : Enough sb s' m off n := by
  have hcard := h.card_freeBlocks hs hs'
  rw [Enough] at henough ⊢
  omega

theorem Enough.mono (h : Enough sb s m off n) (hoff : off ≤ off') (hend : off' + n' ≤ off + n) :
    Enough sb s m off' n' := by
  refine le_trans (Finset.card_le_card fun p hp => ?_) h
  rw [mem_lacking] at hp ⊢
  exact ⟨hp.1.mono hoff hend, hp.2⟩

theorem Fs.Full.freeBlocks_eq (h : s.Full sb) : freeBlocks s.bitmap sb.size = ∅ := by
  refine Finset.eq_empty_of_forall_notMem fun b hb => ?_
  obtain ⟨hlt, hfree⟩ := mem_freeBlocks.mp hb
  rw [h b hlt] at hfree
  exact Bool.noConfusion hfree

theorem LoopDone.fills {k g : Nat} {t : Fs}
    (hd : LoopDone sb hold held doomed ip src off n 0 k g s t s.dinode nodes) :
    Fills (s.inode ip).inum off n s.dinode s.data nodes t.data := ⟨hd.grew.blocks, hd.others⟩

theorem LoopDone.complete {k g : Nat} {t : Fs}
    (hd : LoopDone sb hold held doomed ip src off n 0 k g s t s.dinode nodes)
    (h : FsOk sb s hold held doomed) (hfits : off + n ≤ MAXFILE * BSIZE)
    (hsrc : ∀ i < n, (src i).isSome) (henough : Enough sb s (s.inode ip).inum off n) :
    k = n ∧ g = 0 := by
  rcases hd.stop with hdone | ⟨-, hk, ⟨-, hhole, hfull⟩ | ⟨hlt, -, hnone⟩⟩
  · exact hdone
  · -- the place of the next block still lacks one, and there are none
    have hcard := hd.fills.card_freeBlocks h.vol.owned hd.inv.vol.owned
    rw [hfull.freeBlocks_eq, Finset.card_empty] at hcard
    have hle : (off + k) / BSIZE * BSIZE ≤ off + k := Nat.div_mul_le_self _ _
    have hmax : (off + k) / BSIZE < MAXFILE := Nat.div_lt_of_lt_mul (by rw [Nat.mul_comm]; omega)
    have hmem : (off + k) / BSIZE ∈ lacking nodes t.data (s.inode ip).inum off n :=
      mem_lacking.mpr ⟨⟨by omega, .inl ⟨hmax, Nat.div_le_div_right (by omega), by omega⟩⟩, hhole⟩
    have hpos := Finset.card_pos.mpr ⟨_, hmem⟩
    rw [Enough] at henough
    omega
  · have hsome := hsrc (k + g) hlt
    rw [Nat.zero_add] at hnone
    rw [hnone] at hsome
    exact absurd hsome (by simp)

theorem place_indirect_ne {p : Nat} (hp : NDIRECT ≤ p) (hmax : p < MAXFILE)
    (h : place nodes data (m, p) ≠ 0) : place nodes data (m, MAXFILE) ≠ 0 := by
  by_cases htype : (nodes m).type = .free
  · simp [place, htype] at h
  · rw [place_of_le htype hmax.le, blockAt, if_neg (by omega), if_pos hmax] at h
    rw [place_indirect htype]
    intro hzero
    exact h (if_pos hzero)

theorem lacking_eq_empty (h : ∀ o, off ≤ o → o < off + n → o / BSIZE < MAXFILE ∧
    place nodes data (m, o / BSIZE) ≠ 0) : lacking nodes data m off n = ∅ := by
  refine Finset.eq_empty_of_forall_notMem fun p hp => ?_
  obtain ⟨⟨hn, hwant⟩, hzero⟩ := mem_lacking.mp hp
  rcases hwant with ⟨-, hlo, hhi⟩ | ⟨rfl, hhi⟩
  · have hdiv : max off (p * BSIZE) / BSIZE = p := by
      rcases le_total off (p * BSIZE) with hle | hle
      · rw [max_eq_right hle, Nat.mul_div_cancel _ BSIZE_pos]
      · rw [max_eq_left hle]
        exact le_antisymm hlo ((Nat.le_div_iff_mul_le BSIZE_pos).mpr hle)
    have hplaced := (h (max off (p * BSIZE)) (le_max_left _ _) (by omega)).2
    rw [hdiv] at hplaced
    exact hplaced hzero
  · obtain ⟨hmax, hplaced⟩ := h (off + n - 1) (by omega) (by omega)
    have hlast : NDIRECT ≤ (off + n - 1) / BSIZE :=
      (Nat.le_div_iff_mul_le BSIZE_pos).mpr (by omega)
    exact place_indirect_ne hlast hmax hplaced hzero

theorem enough_of_filled (h : FsOk sb s hold held doomed) (htype : (s.dinode m).type ≠ .free)
    (hsize : off + n ≤ (s.dinode m).size) : Enough sb s m off n := by
  have hempty : lacking s.dinode s.data m off n = ∅ :=
    lacking_eq_empty fun o _ ho => (h.vol.filled m htype).place_ne htype (by omega)
  rw [Enough, hempty, Finset.card_empty]
  exact Nat.zero_le _

theorem LoopDone.enough {t : Fs}
    (hd : LoopDone sb hold held doomed ip src off n 0 n 0 s t s.dinode nodes)
    (h : FsOk sb s hold held doomed) : Enough sb s (s.inode ip).inum off n := by
  have hempty : lacking nodes t.data (s.inode ip).inum off n = ∅ := by
    refine lacking_eq_empty fun o hlo hhi => ?_
    obtain ⟨hmax, hplaced, -⟩ := hd.wrote (o - off) (by omega)
    rw [show off + (o - off) = o by omega] at hmax hplaced
    exact ⟨hmax, hplaced⟩
  have hcard := hd.fills.card_freeBlocks h.vol.owned hd.inv.vol.owned
  rw [hempty, Finset.card_empty] at hcard
  rw [Enough]
  omega

structure WroteAll (ip : Slot) (src : Nat → Option UInt8) (off n : Nat) (s s' : Fs) : Prop where
  file : s'.file = s.file
  inum : (s'.inode ip).inum = (s.inode ip).inum
  ref : (s'.inode ip).ref = (s.inode ip).ref
  locked : (s'.inode ip).locked = (s.inode ip).locked
  content : s'.content (s.inode ip).inum =
    overwrite (s.content (s.inode ip).inum) off (copied src n)
  fills : Fills (s.inode ip).inum off n s.dinode s.data s'.dinode s'.data

theorem writei_enough (h : FsOk sb s hold held doomed) (hr : 0 < (s.inode ip).ref)
    (hv : (s.inode ip).valid = true) (hoff : off ≤ (s.inode ip).size)
    (hfits : off + n ≤ MAXFILE * BSIZE) (hsrc : ∀ i < n, (src i).isSome)
    (henough : Enough sb s (s.inode ip).inum off n) :
    wp (writei sb ip src off n) (fun r s' => r = n ∧ WroteAll ip src off n s s') E s := by
  have hmax : MAXFILE * BSIZE < 2 ^ 32 := by decide
  obtain ⟨hco, -⟩ := h.cache.coherent ip hr hv
  refine wp_post (writei_loop h hr hv (by omega)) ?_
  rintro r s' (⟨-, -, hbad⟩ | ⟨k, g, t, nodes, l, rfl, -, -, hd, rfl⟩)
  · omega
  · obtain ⟨rfl, rfl⟩ := hd.complete h hfits hsrc henough
    have hw := hd.writeDone hoff hfits
    have hlen : (s.content (s.inode ip).inum).length = (s.inode ip).size := by
      rw [Fs.length_content, ← hco]
    obtain ⟨a, hinode, -⟩ := hd.grew.grown
    refine ⟨rfl, hd.grew.file, ?_, ?_, ?_, ?_, ?_⟩
    · simp [resized, hinode]
    · simp [resized, hinode]
    · simp [resized, hinode]
    · rw [hd.content_written h hr hv hoff hfits l, Nat.add_zero, List.take_of_length_le]
      rw [length_overwrite (by omega), hlen, copied, length_bytesFrom]
    · have hplace : place (resized t ip (max (s.inode ip).size (off + k)) l).dinode
          (resized t ip (max (s.inode ip).size (off + k)) l).data = place nodes t.data := by
        rw [hw.resized_dinode hr hv, place_setInfo (d := { nodes (s.inode ip).inum with
          size := max (s.inode ip).size (off + k) }) rfl rfl]
        rfl
      exact ⟨by rw [hplace]; exact hd.fills.kept, by rw [hplace]; exact hd.fills.others⟩

def Fs.lockedAt (s : Fs) (ip : Slot) : Fs :=
  s.setInode ip { s.inode ip with
    locked := true, valid := true, toDinode := s.dinode (s.inode ip).inum }

theorem Fs.lockedAt_inode (s : Fs) (ip : Slot) : (s.lockedAt ip).inode ip = { s.inode ip with
    locked := true, valid := true, toDinode := s.dinode (s.inode ip).inum } :=
  Function.update_self _ _ _

theorem ilock_unlocked (h : FsOk sb s hold held doomed) (hpos : 0 < hold ip)
    (hfree : (s.inode ip).locked = false) :
    wp (ilock ip) (fun _ s' => s' = s.lockedAt ip) E s := by
  have hr := h.ref_pos (.inl hpos)
  have htype := h.cache.alloc ip hpos
  simp only [ilock, getInode, modInode, wp_bind, wp_get, wp_pure, wp_ite, wp_throw, wp_modify]
  refine ⟨fun hlt => by omega, fun _ => ⟨fun hl => by simp [hfree] at hl, fun _ => ⟨fun hv => ?_,
    fun _ => ⟨fun hfree => absurd hfree htype, fun _ => rfl⟩⟩⟩⟩
  obtain ⟨hco, -⟩ := h.cache.coherent ip hr hv
  rw [Fs.lockedAt, ← hco, ← hv]

def Fs.fileNum (s : Fs) (f : Fin NFILE) : Nat := (s.inode (s.file f).ip).inum

/-- A file that is open for writing, whose inode nobody has locked and which has room for the next
`n` bytes. -/
structure Writable (sb : Superblock) (s : Fs) (f : Fin NFILE) (n : Nat) : Prop where
  sys : Sys sb s []
  type : (s.file f).type = .inode
  writable : (s.file f).writable = true
  unlocked : (s.inode (s.file f).ip).locked = false
  off_le : (s.file f).off ≤ (s.dinode (s.fileNum f)).size
  fits : (s.file f).off + n ≤ MAXFILE * BSIZE
  enough : Enough sb s (s.fileNum f) (s.file f).off n

theorem Writable.locked (h : Writable sb s f n) :
    FsOk sb (s.lockedAt (s.file f).ip) (holders s) [] [] ∧
      ilock (s.file f).ip s = .ok ((), s.lockedAt (s.file f).ip) := by
  have hpos := holders_pos_of_file (.inl h.type)
  have hlock : ilock (s.file f).ip s = .ok ((), s.lockedAt (s.file f).ip) :=
    eq_ok_of_wp (wp_post (ilock_unlocked h.sys.ok hpos h.unlocked) fun _ _ hs => ⟨rfl, hs⟩)
  exact ⟨(wp_ok (ilock_file (T := True) h.sys (.inl h.type)) hlock).1.ok, hlock⟩

theorem Writable.writei (h : Writable sb s f n) (hsrc : ∀ i < n, (src i).isSome) :
    wp (writei sb (s.file f).ip src (s.file f).off n) (fun r s' => r = n ∧
      WroteAll (s.file f).ip src (s.file f).off n (s.lockedAt (s.file f).ip) s') E
      (s.lockedAt (s.file f).ip) := by
  have hr := h.sys.ok.ref_pos (.inl (holders_pos_of_file (.inl h.type)))
  refine writei_enough h.locked.1 ?_ ?_ ?_ h.fits hsrc ?_
  · rwa [Fs.lockedAt_inode]
  · rw [Fs.lockedAt_inode]
  · rw [Fs.lockedAt_inode]
    exact h.off_le
  · rw [Fs.lockedAt_inode]
    exact h.enough

structure ChunkDone (f : Fin NFILE) (src : Nat → Option UInt8) (n : Nat) (s s' : Fs) : Prop where
  file : s'.file f = { s.file f with off := (s.file f).off + n }
  num : s'.fileNum f = s.fileNum f
  unlocked : (s'.inode (s'.file f).ip).locked = false
  content : s'.content (s.fileNum f) =
    overwrite (s.content (s.fileNum f)) (s.file f).off (copied src n)
  fills : Fills (s.fileNum f) (s.file f).off n s.dinode s.data s'.dinode s'.data

theorem writeChunk_enough (h : Writable sb s f n) (hsrc : ∀ i < n, (src i).isSome) :
    wp (writeChunk sb f src n) (fun r s' => r = n ∧ ChunkDone f src n s s') E s := by
  have hr := h.sys.ok.ref_pos (.inl (holders_pos_of_file (.inl h.type)))
  simp only [writeChunk, beginOp, endOp, wp_bind, wp_get, wp_pure, wp_modify]
  refine wp_post (ilock_unlocked h.sys.ok (holders_pos_of_file (.inl h.type)) h.unlocked) ?_
  rintro - s1 rfl
  refine wp_post (h.writei hsrc) ?_
  rintro r s2 ⟨rfl, hw⟩
  have hfile : s2.file = s.file := hw.file
  have hinum := hw.inum
  have hlocked := hw.locked
  have href := hw.ref
  rw [Fs.lockedAt_inode] at hinum hlocked href
  have hoff : (if 0 < (n : Int) then (s.file f).off + (n : Int).toNat else (s.file f).off) =
      (s.file f).off + n := by
    split_ifs <;> omega
  have hcontent := hw.content
  have hfills := hw.fills
  rw [Fs.lockedAt_inode] at hcontent hfills
  simp only [setOff, iunlock, getInode, modInode, wp_bind, wp_modify, wp_get, wp_pure, wp_ite,
    wp_throw, hfile, hoff]
  refine ⟨fun hbad => ?_, fun _ => ⟨trivial, ?_, ?_, ?_, hcontent, hfills⟩⟩
  · rw [hlocked, href] at hbad
    simp at hbad
    omega
  · exact Function.update_self _ _ _
  · simp only [Fs.fileNum, Fs.setInode, Function.update_self]
    exact hinum
  · simp only [Fs.setInode, Function.update_self]

theorem copied_add (src : Nat → Option UInt8) (a b : Nat) :
    copied src (a + b) = copied src a ++ copied (fun i => src (a + i)) b := by
  rw [copied, bytesFrom_add, Nat.zero_add, copied, copied]
  simp only [bytesFrom, Nat.zero_add]

theorem Fills.trans {nodes'' : Nodes} {data'' : Nat → Block}
    (h : Fills m off n nodes data nodes' data') (h' : Fills m off n nodes' data' nodes'' data'') :
    Fills m off n nodes data nodes'' data'' where
  kept x hx := by
    have hx' := h.kept x hx
    rw [h'.kept x (hx' ▸ hx), hx']
  others x hx := (h'.others x hx).trans (h.others x hx)

theorem ChunkDone.append {a b : Nat} {s'' : Fs} (h : ChunkDone f src a s s')
    (h' : ChunkDone f (fun i => src (a + i)) b s' s'')
    (hoff : (s.file f).off ≤ (s.dinode (s.fileNum f)).size) :
    ChunkDone f src (a + b) s s'' := by
  have hfile := h.file
  have hcontent := h'.content
  have hfills := h'.fills
  rw [h.num, hfile] at hcontent hfills
  refine ⟨?_, h'.num.trans h.num, h'.unlocked, ?_, ?_⟩
  · rw [h'.file, hfile, Nat.add_assoc]
  · have hlen : (copied src a).length = a := length_bytesFrom _ _ _
    have hle : (s.file f).off ≤ (s.content (s.fileNum f)).length := by rwa [Fs.length_content]
    have happ := overwrite_append hle (copied src a) (copied (fun i => src (a + i)) b)
    rw [hlen] at happ
    rw [hcontent, h.content, copied_add, ← happ]
  · exact (h.fills.mono le_rfl (by omega)).trans (hfills.mono (by simp only; omega) (by simp only; omega))

theorem ChunkDone.next {k : Nat} (h : Writable sb s f n) (hk : k ≤ n) (hd : ChunkDone f src k s s')
    (hs' : Sys sb s' []) : Writable sb s' f (n - k) := by
  have hfile := hd.file
  refine ⟨hs', ?_, ?_, hd.unlocked, ?_, ?_, ?_⟩
  · rw [hfile]
    exact h.type
  · rw [hfile]
    exact h.writable
  · have hlen := congrArg List.length hd.content
    rw [Fs.length_content, length_overwrite (by rw [Fs.length_content]; exact h.off_le), copied,
      length_bytesFrom] at hlen
    rw [hfile, hd.num, hlen]
    exact le_max_right _ _
  · have hfits := h.fits
    rw [hfile]
    simp only
    omega
  · have hfills := hd.fills.mono (n := n) le_rfl (by omega)
    have henough := hfills.enough h.sys.ok.vol.owned hs'.ok.vol.owned h.enough
    rw [hfile, hd.num]
    exact henough.mono (by simp only; omega) (by simp only; omega)

theorem Writable.mono {k : Nat} (h : Writable sb s f n) (hk : k ≤ n) : Writable sb s f k := by
  have hfits := h.fits
  exact ⟨h.sys, h.type, h.writable, h.unlocked, h.off_le, by omega, h.enough.mono le_rfl (by omega)⟩

theorem Writable.nothing (h : Writable sb s f n) (src : Nat → Option UInt8) :
    ChunkDone f src 0 s s := by
  refine ⟨rfl, rfl, h.unlocked, ?_, ⟨fun _ _ => rfl, fun _ _ => rfl⟩⟩
  rw [copied, bytesFrom, List.range_zero, List.map_nil, overwrite_nil]

theorem writeChunks_enough {i : Nat} (fuel : Nat) (h : Writable sb s f (n - i)) (hi : i ≤ n)
    (hfuel : n - i ≤ fuel) (hsrc : ∀ j < n, (src j).isSome) :
    wp (writeChunks sb f src fuel n i)
      (fun r s' => r = n ∧ ChunkDone f (fun j => src (i + j)) (n - i) s s') E s := by
  have hnone : ∀ {s : Fs} {i : Nat}, Writable sb s f (n - i) → n - i = 0 →
      ChunkDone f (fun j => src (i + j)) (n - i) s s := by
    intro s i h hz
    rw [hz]
    exact h.nothing _
  induction fuel generalizing s i with
  | zero => exact ⟨by omega, hnone h (by omega)⟩
  | succ fuel ih =>
    simp only [writeChunks, wp_ite, wp_bind, wp_pure]
    refine ⟨fun hlt => ?_, fun hge => ⟨by omega, hnone h (by omega)⟩⟩
    obtain ⟨k, hk⟩ : ∃ k, k = min (n - i) writeMax := ⟨_, rfl⟩
    have hmax : 0 < writeMax := by decide
    rw [← hk]
    have hw : Writable sb s f k := h.mono (by omega)
    have hspec : wp (writeChunk sb f (fun j => src (i + j)) k) _ _ s :=
      wp_and (writeChunk_enough (E := fun _ => False) hw fun j hj => hsrc (i + j) (by omega))
        (writeChunk_spec (T := True) h.sys h.type h.writable (by omega))
    refine wp_mono hspec ?_ fun _ he => he.1.elim
    rintro r s1 ⟨⟨rfl, hd⟩, hs1, -⟩
    refine ⟨fun _ => ?_, fun hne => absurd rfl hne⟩
    have hrest : Writable sb s1 f (n - (i + k)) := by
      rw [Nat.sub_add_eq]
      exact hd.next h (by omega) hs1
    refine wp_post (ih hrest (by omega) (by omega)) ?_
    rintro r s2 ⟨hr, hd2⟩
    refine ⟨hr, ?_⟩
    simp only [Nat.add_assoc] at hd2
    have happ := hd.append hd2 h.off_le
    rwa [show k + (n - (i + k)) = n - i by omega] at happ

theorem sysWrite_enough {me : Fin NPROC} {fd : Int} {slot : Fin NOFILE} (dev : Int)
    (hfd : argfd s me fd = some (slot, f)) (h : Writable sb s f n)
    (hsrc : ∀ i < n, (src i).isSome) :
    wp (sysWrite sb me fd n src dev) (fun r s' => r = n ∧ ChunkDone f src n s s') E s := by
  simp only [sysWrite, wp_bind, wp_get, hfd, wp_ite, wp_pure]
  refine ⟨fun hno => ?_, fun _ => ?_⟩
  · rw [h.writable] at hno
    cases hno
  · simp only [h.type, wp_bind, wp_ite, wp_pure, Int.toNat_natCast]
    refine wp_post (writeChunks_enough n h (Nat.zero_le n) le_rfl hsrc) ?_
    rintro r s' ⟨rfl, hd⟩
    simp only [Nat.zero_add, Nat.sub_zero] at hd
    exact ⟨fun _ => ⟨trivial, hd⟩, fun hne => absurd rfl hne⟩

/-- `filewrite` of `n` bytes against one `writei`, from the state with the inode locked. -/
theorem chunked_write {me : Fin NPROC} {fd : Int} {slot : Fin NOFILE} (dev : Int)
    (hfd : argfd s me fd = some (slot, f)) (h : Writable sb s f n)
    (hsrc : ∀ i < n, (src i).isSome) :
    ∃ s' s'', sysWrite sb me fd n src dev s = .ok ((n : Int), s') ∧
      (s'.file f).off = (s.file f).off + n ∧
      writei sb (s.file f).ip src (s.file f).off n (s.lockedAt (s.file f).ip) = .ok ((n : Int), s'') ∧
      s'.content (s.fileNum f) = s''.content (s.fileNum f) ∧
      s'.content (s.fileNum f) =
        overwrite (s.content (s.fileNum f)) (s.file f).off (copied src n) := by
  have hchunks : wp (sysWrite sb me fd n src dev) _ (fun _ => False) s :=
    sysWrite_enough dev hfd h hsrc
  obtain ⟨r, s', hrun, rfl, hd⟩ := exists_ok_of_wp hchunks
  have hone : wp (OsProject.writei sb (s.file f).ip src (s.file f).off n) _ (fun _ => False)
      (s.lockedAt (s.file f).ip) := h.writei hsrc
  obtain ⟨r, s'', hwrite, rfl, hall⟩ := exists_ok_of_wp hone
  have hcontent := hall.content
  rw [Fs.lockedAt_inode] at hcontent
  refine ⟨s', s'', hrun, by rw [hd.file], hwrite, ?_, hd.content⟩
  rw [hd.content]
  exact hcontent.symm

/-- What the state has to say about file 0 for a write of `n` bytes. -/
def FileReady (s : Fs) (n : Nat) : Prop :=
  argfd s 0 0 = some (⟨0, by decide⟩, 0) ∧ (s.file 0).type = .inode ∧ (s.file 0).writable = true ∧
    (s.inode (s.file 0).ip).locked = false ∧ (s.file 0).off = 5 ∧
    Enough smallSb s (s.fileNum 0) (s.file 0).off n

instance (n : Nat) : DecidablePred (FileReady · n) := fun _ => inferInstanceAs (Decidable (_ ∧ _))

theorem fileReady_note : Outcome (fun s => FileReady s 4000 ∧ (s.dinode (s.fileNum 0)).size = 5)
    (fun _ => False) (noteCalls.foldl (fsStep smallSb) (.ok smallFs)) := by
  decide +kernel

theorem chunked_write_note : ∃ s s' s'', FileReady s 4000 ∧
    sysWrite smallSb 0 0 4000 (fun _ => some 9) 0 s = .ok (4000, s') ∧ (s'.file 0).off = 4005 ∧
    writei smallSb (s.file 0).ip (fun _ => some 9) 5 4000 (s.lockedAt (s.file 0).ip) =
      .ok (4000, s'') ∧
    s'.content (s.fileNum 0) = s''.content (s.fileNum 0) := by
  obtain ⟨s, -, hsys, hready, hsize⟩ := exists_of_run sys_smallFs fileReady_note
  obtain ⟨hfd, htype, hwritable, hfree, hoff, henough⟩ := hready
  have hw : Writable smallSb s 0 4000 :=
    ⟨hsys, htype, hwritable, hfree, by omega, by rw [hoff]; decide, henough⟩
  obtain ⟨s', s'', hrun, hoff', hwrite, hsame, -⟩ := chunked_write 0 hfd hw
    (fun _ _ => by simp : ∀ i < 4000, ((fun _ => some 9 : Nat → Option UInt8) i).isSome)
  rw [hoff] at hoff' hwrite
  exact ⟨s, s', s'', ⟨hfd, htype, hwritable, hfree, hoff, henough⟩, hrun, hoff', hwrite, hsame⟩

def truncatedCalls : List (Fin NPROC × FsCall) :=
  [(0, .open (some [102, 0]) (O_CREATE ||| O_RDWR)), (0, .write 0 5 (fun _ => some 7) 0),
    (0, .open (some [102, 0]) O_TRUNC)]

theorem sysWrite_truncated : Outcome (fun s => FileReady s 1 ∧
    (s.dinode (s.fileNum 0)).size = 0 ∧
    returned (sysWrite smallSb 0 0 1 (fun _ => some 9) 0) s = some (-1))
      (fun _ => False) (truncatedCalls.foldl (fsStep smallSb) (.ok smallFs)) := by
  decide +kernel

theorem chunked_write_truncated : ∃ s, Sys smallSb s [] ∧ FileReady s 1 ∧
    (s.dinode (s.fileNum 0)).size = 0 ∧
    returned (sysWrite smallSb 0 0 1 (fun _ => some 9) 0) s = some (-1) := by
  obtain ⟨s, -, hsys, hready, hsize, hrun⟩ := exists_of_run sys_smallFs sysWrite_truncated
  exact ⟨s, hsys, hready, hsize, hrun⟩

end OsProject
