import OsProject.Inode
import OsProject.Volume

/-! The invariant of the file system between and during system calls. `nodes` are the inodes as
the kernel sees them, in the table or on disk. The references of a slot are those that last
beyond the call, counted by `hold`, and those of the running call, listed in `held`. An inode
without links that nothing lasting refers to is in `doomed`: the call is about to delete it. -/

namespace OsProject

structure CacheInv (inode : Slot → Inode) (nodes : Nodes) (hold : Slot → Nat) (held : List Slot)
    (doomed : List Nat) : Prop where
  unique : ∀ i j, 0 < (inode i).ref → 0 < (inode j).ref → (inode i).inum = (inode j).inum → i = j
  coherent : ∀ i, 0 < (inode i).ref → (inode i).valid = true →
    (inode i).toDinode = nodes (inode i).inum ∧ (inode i).type ≠ .free
  refs : ∀ i, (inode i).ref = hold i + held.count i
  alloc : ∀ i, 0 < hold i → (nodes (inode i).inum).type ≠ .free
  orphan : ∀ n, (nodes n).type ≠ .free → (nodes n).nlink = 0 →
    n ∈ doomed ∨ ∃ i, (inode i).inum = n ∧ (inode i).valid = true ∧ 0 < hold i

structure FsInv (sb : Superblock) (s : Fs) (nodes : Nodes) (hold : Slot → Nat)
    (held : List Slot) (doomed : List Nat) : Prop where
  cache : CacheInv s.inode nodes hold held doomed
  vol : VolInv sb nodes s.bitmap s.data

abbrev FsOk (sb : Superblock) (s : Fs) (hold : Slot → Nat) (held : List Slot)
    (doomed : List Nat) : Prop :=
  FsInv sb s s.dinode hold held doomed

theorem FsInv.logged {sb : Superblock} {s : Fs} {nodes : Nodes} {hold : Slot → Nat}
    {held : List Slot} {doomed : List Nat} (h : FsInv sb s nodes hold held doomed) (l : List Nat) :
    FsInv sb { s with logged := l } nodes hold held doomed :=
  ⟨h.cache, h.vol⟩

/-- The panics that a specification allows: never "freeing free block", and "ilock: no type" only
if `T`. -/
def Err (T : Prop) (e : Panic) : Prop := e ≠ .freeingFreeBlock ∧ (e = .ilockNoType → T)

section Cache

variable {inode : Slot → Inode} {nodes : Nodes} {hold : Slot → Nat} {held : List Slot}
  {doomed : List Nat} {ip : Slot}

theorem CacheInv.ref_pos_of_mem (h : CacheInv inode nodes hold held doomed) (hi : ip ∈ held) :
    0 < (inode ip).ref := by
  have hc : 0 < held.count ip := List.count_pos_iff.mpr hi
  have hr := h.refs ip
  omega

theorem CacheInv.ref_pos_of_hold (h : CacheInv inode nodes hold held doomed) (hi : 0 < hold ip) :
    0 < (inode ip).ref := by
  have hr := h.refs ip
  omega

theorem CacheInv.setSlot (h : CacheInv inode nodes hold held doomed) {x : Inode}
    {held' : List Slot}
    (hinum : 0 < x.ref → ∀ j, j ≠ ip → 0 < (inode j).ref → (inode j).inum ≠ x.inum)
    (hco : 0 < x.ref → x.valid = true → x.toDinode = nodes x.inum ∧ x.type ≠ .free)
    (href : x.ref = hold ip + held'.count ip)
    (hcount : ∀ j, j ≠ ip → held'.count j = held.count j)
    (hhold : 0 < hold ip →
      x.inum = (inode ip).inum ∧ ((inode ip).valid = true → x.valid = true)) :
    CacheInv (Function.update inode ip x) nodes hold held' doomed := by
  refine ⟨?_, ?_, ?_, ?_, ?_⟩
  · intro i j hi hj he
    by_cases hip : i = ip
    · by_cases hjp : j = ip
      · rw [hip, hjp]
      · subst hip
        rw [Function.update_self] at hi he
        rw [Function.update_of_ne hjp] at hj he
        exact absurd he.symm (hinum hi j hjp hj)
    · rw [Function.update_of_ne hip] at hi he
      by_cases hjp : j = ip
      · subst hjp
        rw [Function.update_self] at hj he
        exact absurd he (hinum hj i hip hi)
      · rw [Function.update_of_ne hjp] at hj he
        exact h.unique i j hi hj he
  · intro i
    by_cases hip : i = ip
    · subst hip
      rw [Function.update_self]
      exact hco
    · rw [Function.update_of_ne hip]
      exact h.coherent i
  · intro i
    by_cases hip : i = ip
    · subst hip
      rw [Function.update_self]
      exact href
    · rw [Function.update_of_ne hip, hcount i hip]
      exact h.refs i
  · intro i hpos
    by_cases hip : i = ip
    · subst hip
      rw [Function.update_self, (hhold hpos).1]
      exact h.alloc i hpos
    · rw [Function.update_of_ne hip]
      exact h.alloc i hpos
  · intro n ht hz
    rcases h.orphan n ht hz with hm | ⟨i, hi, hv, hpos⟩
    · exact .inl hm
    · refine .inr ⟨i, ?_⟩
      by_cases hip : i = ip
      · subst hip
        obtain ⟨hi', hv'⟩ := hhold hpos
        rw [Function.update_self]
        exact ⟨hi'.trans hi, hv' hv, hpos⟩
      · rw [Function.update_of_ne hip]
        exact ⟨hi, hv, hpos⟩

theorem CacheInv.setNode (h : CacheInv inode nodes hold held doomed) {n : Nat} {d : Dinode}
    {doomed' : List Nat}
    (hslot : ∀ i, 0 < (inode i).ref → (inode i).valid = true → (inode i).inum ≠ n)
    (hhold : ∀ i, 0 < hold i → (inode i).inum ≠ n)
    (hlinks : d.type ≠ .free → d.nlink = 0 → n ∈ doomed') (hsub : doomed ⊆ doomed') :
    CacheInv inode (Function.update nodes n d) hold held doomed' := by
  refine ⟨h.unique, fun i hr hv => ?_, h.refs, fun i hpos => ?_, fun m ht hz => ?_⟩
  · rw [Function.update_of_ne (hslot i hr hv)]
    exact h.coherent i hr hv
  · rw [Function.update_of_ne (hhold i hpos)]
    exact h.alloc i hpos
  · by_cases hm : m = n
    · subst hm
      rw [Function.update_self] at ht hz
      exact .inl (hlinks ht hz)
    · rw [Function.update_of_ne hm] at ht hz
      exact (h.orphan m ht hz).imp_left fun hd => hsub hd

theorem CacheInv.modify (h : CacheInv inode nodes hold held doomed) (hi : 0 < (inode ip).ref)
    {d : Dinode} (hd : d.type ≠ .free) {doomed' : List Nat}
    (hlinks : d.nlink = 0 → (inode ip).inum ∈ doomed' ∨ (inode ip).valid = true ∧ 0 < hold ip)
    (hsub : ∀ m ∈ doomed, m ≠ (inode ip).inum → m ∈ doomed') :
    CacheInv (Function.update inode ip { inode ip with toDinode := d })
      (Function.update nodes (inode ip).inum d) hold held doomed' := by
  have hinum : ∀ i, (Function.update inode ip { inode ip with toDinode := d } i).inum =
      (inode i).inum := fun i => by
    by_cases he : i = ip <;> simp [he]
  have href : ∀ i, (Function.update inode ip { inode ip with toDinode := d } i).ref =
      (inode i).ref := fun i => by
    by_cases he : i = ip <;> simp [he]
  have hvalid : ∀ i, (Function.update inode ip { inode ip with toDinode := d } i).valid =
      (inode i).valid := fun i => by
    by_cases he : i = ip <;> simp [he]
  refine ⟨?_, ?_, ?_, ?_, ?_⟩
  · intro i j
    simpa only [hinum, href] using h.unique i j
  · intro i hr hv
    rw [href] at hr
    rw [hvalid] at hv
    rw [hinum]
    by_cases he : i = ip
    · subst he
      simpa using hd
    · have hne : (inode i).inum ≠ (inode ip).inum := fun hn => he (h.unique i ip hr hi hn)
      rw [Function.update_of_ne he, Function.update_of_ne hne]
      exact h.coherent i hr hv
  · intro i
    rw [href]
    exact h.refs i
  · intro i hpos
    rw [hinum]
    by_cases he : (inode i).inum = (inode ip).inum
    · rw [he, Function.update_self]
      exact hd
    · rw [Function.update_of_ne he]
      exact h.alloc i hpos
  · intro n
    by_cases he : n = (inode ip).inum
    · subst he
      rw [Function.update_self]
      intro _ hz
      rcases hlinks hz with hm | hm
      · exact .inl hm
      · exact .inr ⟨ip, hinum ip, (hvalid ip).trans hm.1, hm.2⟩
    · rw [Function.update_of_ne he]
      intro ht hz
      rcases h.orphan n ht hz with hm | ⟨i, hm, hv, hh⟩
      · exact .inl (hsub n hm he)
      · exact .inr ⟨i, (hinum i).trans hm, (hvalid i).trans hv, hh⟩

theorem CacheInv.modify_keep (h : CacheInv inode nodes hold held doomed)
    (hi : 0 < (inode ip).ref) (hv : (inode ip).valid = true) {d : Dinode}
    (htype : d.type = (inode ip).type) (hlink : d.nlink = (inode ip).nlink) :
    CacheInv (Function.update inode ip { inode ip with toDinode := d })
      (Function.update nodes (inode ip).inum d) hold held doomed := by
  obtain ⟨hco, hty⟩ := h.coherent ip hi hv
  refine h.modify hi (htype ▸ hty) (fun hz => ?_) fun m hm _ => hm
  have hnl : (nodes (inode ip).inum).nlink = 0 := by rw [← hco, ← hlink, hz]
  rcases h.orphan _ (by rw [← hco]; exact hty) hnl with hm | ⟨i, hm, hvi, hh⟩
  · exact .inl hm
  · have he : i = ip := h.unique i ip (h.ref_pos_of_hold hh) hi hm
    exact .inr ⟨hv, he ▸ hh⟩

end Cache

/-- The slot of `ip` gets new block addresses and its file new bytes in `[lo, hi)`; everything
that was there before stays. -/
structure Grew (ip : Slot) (lo hi : Nat) (s s' : Fs) (nodes nodes' : Nodes) : Prop where
  dinode : s'.dinode = s.dinode
  file : s'.file = s.file
  kernel : s'.kernel = s.kernel
  grown : ∃ a, s'.inode = Function.update s.inode ip { s.inode ip with addrs := a } ∧
    nodes' = Function.update nodes (s.inode ip).inum
      { nodes (s.inode ip).inum with addrs := a }
  blocks : ∀ x, place nodes s.data x ≠ 0 → place nodes' s'.data x = place nodes s.data x
  bytes : ∀ n o, o / BSIZE < MAXFILE → place nodes s.data (n, o / BSIZE) ≠ 0 →
    n ≠ (s.inode ip).inum ∨ o < lo ∨ hi ≤ o →
    byteAt nodes' s'.data n o = byteAt nodes s.data n o

section Grew

variable {ip : Slot} {lo hi : Nat} {s s' s'' : Fs} {nodes nodes' nodes'' : Nodes}

theorem Grew.inum (h : Grew ip lo hi s s' nodes nodes') (i : Slot) :
    (s'.inode i).inum = (s.inode i).inum := by
  obtain ⟨a, ha, -⟩ := h.grown
  by_cases he : i = ip <;> simp [ha, he]

theorem Grew.ref (h : Grew ip lo hi s s' nodes nodes') (i : Slot) :
    (s'.inode i).ref = (s.inode i).ref := by
  obtain ⟨a, ha, -⟩ := h.grown
  by_cases he : i = ip <;> simp [ha, he]

theorem Grew.valid (h : Grew ip lo hi s s' nodes nodes') (i : Slot) :
    (s'.inode i).valid = (s.inode i).valid := by
  obtain ⟨a, ha, -⟩ := h.grown
  by_cases he : i = ip <;> simp [ha, he]

theorem Grew.type (h : Grew ip lo hi s s' nodes nodes') (n : Nat) :
    (nodes' n).type = (nodes n).type := by
  obtain ⟨a, -, hn⟩ := h.grown
  by_cases he : n = (s.inode ip).inum <;> simp [hn, he]

theorem Grew.size (h : Grew ip lo hi s s' nodes nodes') (n : Nat) :
    (nodes' n).size = (nodes n).size := by
  obtain ⟨a, -, hn⟩ := h.grown
  by_cases he : n = (s.inode ip).inum <;> simp [hn, he]

theorem Grew.nlink (h : Grew ip lo hi s s' nodes nodes') (n : Nat) :
    (nodes' n).nlink = (nodes n).nlink := by
  obtain ⟨a, -, hn⟩ := h.grown
  by_cases he : n = (s.inode ip).inum <;> simp [hn, he]

theorem Grew.refl (lo hi : Nat)
    (hco : (s.inode ip).toDinode = nodes (s.inode ip).inum) : Grew ip lo hi s s nodes nodes where
  dinode := rfl
  file := rfl
  kernel := rfl
  grown := ⟨(s.inode ip).addrs, by simp, by simp [← hco]⟩
  blocks _ _ := rfl
  bytes _ _ _ _ _ := rfl

theorem Grew.trans (h : Grew ip lo hi s s' nodes nodes') (h' : Grew ip lo hi s' s'' nodes' nodes'') :
    Grew ip lo hi s s'' nodes nodes'' where
  dinode := h'.dinode.trans h.dinode
  file := h'.file.trans h.file
  kernel := h'.kernel.trans h.kernel
  grown := by
    obtain ⟨a, hs, hn⟩ := h.grown
    obtain ⟨a', hs', hn'⟩ := h'.grown
    refine ⟨a', ?_, ?_⟩
    · simp [hs', hs]
    · simp [hn', h.inum, hn]
  blocks x hx := by
    have hx' := h.blocks x hx
    rw [h'.blocks x (hx' ▸ hx), hx']
  bytes n o ho hx hout := by
    have hx' := h.blocks _ hx
    rw [h'.bytes n o ho (hx' ▸ hx) (h.inum ip ▸ hout), h.bytes n o ho hx hout]

theorem Grew.mono (h : Grew ip lo hi s s' nodes nodes') {lo' hi' : Nat}
    (hsub : ∀ o, lo ≤ o → o < hi → lo' ≤ o ∧ o < hi') : Grew ip lo' hi' s s' nodes nodes' :=
  { h with
    bytes := fun n o ho hx hout => h.bytes n o ho hx <| hout.imp_right fun hb => by
      by_contra hin
      have ho := hsub o (by omega) (by omega)
      omega }

theorem Grew.logged (h : Grew ip lo hi s s' nodes nodes') (l : List Nat) :
    Grew ip lo hi s { s' with logged := l } nodes nodes' :=
  ⟨h.dinode, h.file, h.kernel, h.grown, h.blocks, h.bytes⟩

theorem Grew.filled (h : Grew ip lo hi s s' nodes nodes') {n : Nat}
    (hn : (nodes n).type ≠ .free) (hf : Filled s.data (nodes n)) :
    Filled s'.data (nodes' n) where
  size_le := by
    rw [h.size]
    exact hf.size_le
  mapped bn hbn := by
    rw [h.size] at hbn
    have hlt : bn < MAXFILE := by
      have hle := hf.size_le
      by_contra hge
      have hmul : MAXFILE * BSIZE ≤ bn * BSIZE := Nat.mul_le_mul_right _ (by omega)
      omega
    have hm := hf.mapped bn hbn
    rw [← place_of_le hn hlt.le] at hm
    have hn' : (nodes' n).type ≠ .free := by rwa [h.type]
    rw [← place_of_le hn' hlt.le, h.blocks _ hm]
    exact hm

theorem Grew.fsInv (h : Grew ip lo hi s s' nodes nodes') {sb : Superblock} {hold : Slot → Nat}
    {held : List Slot} {doomed : List Nat} (hinv : FsInv sb s nodes hold held doomed)
    (hr : 0 < (s.inode ip).ref) (hv : (s.inode ip).valid = true)
    (howned : VolOwned sb nodes' s'.bitmap s'.data ∅) :
    FsInv sb s' nodes' hold held doomed where
  cache := by
    obtain ⟨a, hs, hn⟩ := h.grown
    obtain ⟨hco, -⟩ := hinv.cache.coherent ip hr hv
    have hm := hinv.cache.modify_keep hr hv
      (d := { nodes (s.inode ip).inum with addrs := a }) (by rw [← hco]) (by rw [← hco])
    rw [hs, hn]
    have hslot : { s.inode ip with addrs := a } =
        { s.inode ip with toDinode := { nodes (s.inode ip).inum with addrs := a } } := by
      rw [← hco]
    rw [hslot]
    exact hm
  vol :=
    { fits := hinv.vol.fits
      owned := howned
      filled := fun n hn => by
        rw [h.type] at hn
        exact h.filled hn (hinv.vol.filled n hn)
      inums := fun n hn => hinv.vol.inums n (by rwa [h.type] at hn)
      dirSize := fun n hn => by
        rw [h.size]
        exact hinv.vol.dirSize n (by rwa [h.type] at hn)
      links := fun n => by
        rw [h.nlink]
        exact hinv.vol.links n }

end Grew

end OsProject
