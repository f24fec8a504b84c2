import OsProject.LinkCounts

/-! Directory entries that name a free inode, over runs of the file system. -/

namespace OsProject

def newDirParent (s : Fs) (me : Fin NPROC) : FsCall → Option Nat
  | .mkdir path => parentOf s me path
  | _ => none

def unlinkedInode (s : Fs) (me : Fin NPROC) : FsCall → Option Nat
  | .unlink path => ((argstr path).bind (resolveParent s me)).bind fun x => s.graph.next x.1 x.2
  | _ => none

/-- No directory is made in one that is not linked, no link count wraps around to 0, and no
directory is removed while one that is not linked has it as its "..". -/
def EntrySafe (r : Except Panic Fs) (e : Fin NPROC × FsCall) : Prop :=
  Outcome (fun s => (∀ d ∈ newDirParent s e.1 e.2, s.graph.Linked d) ∧
    (∀ i ∈ linkedInode s e.1 e.2, (s.graph i).nlink ≠ -1) ∧
    ∀ i ∈ unlinkedInode s e.1 e.2, ∀ b, (s.graph b).kind = .dir → ¬ s.graph.Linked b →
      ((s.graph b).ent 1).inum ≠ i) (fun _ => True) r

section Entries

variable {g g' : Graph} {d k i n : Nat} {name : Name}

structure EntryInv (g : Graph) : Prop where
  tree : ∃ lost, NameTree g lost
  anchored : g.dirs.Anchored ROOTINO

theorem EntryInv.noDangling (h : EntryInv g) : NoDangling g := by
  obtain ⟨lost, htree⟩ := h.tree
  have hroot : (g ROOTINO).kind = .dir := htree.forest.root.1
  -- What a counted entry names has a link, so it is not free.
  have hcounted : ∀ x j, (g x).kind = .dir → ((g x).ent j).inum ≠ 0 →
      2 ≤ j ∨ j = 1 ∧ g.Linked x → (g ((g x).ent j).inum).kind ≠ .free := by
    intro x j hx hne hc hfree
    have hmem : (x, j) ∈ g.counted ((g x).ent j).inum := ⟨hx, ⟨rfl, hne⟩, hc⟩
    rw [(htree.links.counted_empty hne (htree.free _ hfree)).1] at hmem
    exact hmem
  refine ⟨fun x hx j hne => ?_, by rw [hroot]; decide⟩
  match j with
  | 0 =>
    rw [(htree.dots x hx).2.2.1]
    simp [hx]
  | 1 =>
    by_cases hl : g.Linked x
    · exact hcounted x 1 hx hne (.inr ⟨rfl, hl⟩)
    · have hp : (g ((g x).ent 1).inum).kind = .dir :=
        (h.anchored x _ hx hl ⟨rfl, hne⟩).dir hroot
      rw [hp]
      decide
  | j + 2 => exact hcounted x (j + 2) hx hne (.inl (by omega))

theorem EntryInv.link (h : EntryInv g) (he : LinkEdit g i d name k g') (hi0 : i ≠ 0)
    (hmax : unsigned (g i).nlink ≠ 2 ^ 16 - 1) : EntryInv g' := by
  obtain ⟨lost, htree⟩ := h.tree
  exact ⟨⟨lost, htree.link he hmax hi0⟩, (htree.link_adds he hi0).anchored_iff.mpr h.anchored⟩

theorem EntryInv.create {type : FileType} (h : EntryInv g) (he : CreateEdit g type n d k name g')
    (hd : type = .dir → g.Linked d ∧ unsigned (g d).nlink ≠ 2 ^ 16 - 1) : EntryInv g' := by
  obtain ⟨lost, htree⟩ := h.tree
  by_cases htype : type = .dir
  · subst htype
    obtain ⟨hl, hmax⟩ := hd rfl
    exact ⟨⟨lost, htree.mkdir he hl hmax⟩, (htree.mkdir_grows he).anchored h.anchored hl⟩
  · exact ⟨⟨lost, htree.create he htype⟩,
      (htree.create_adds he htype).anchored_iff.mpr h.anchored⟩

theorem EntryInv.unlink (h : EntryInv g) (he : UnlinkEdit g d k i name g')
    (hdot : name ≠ dotName) (hdotdot : name ≠ dotDotName)
    (hback : ∀ b, (g b).kind = .dir → ¬ g.Linked b → ((g b).ent 1).inum ≠ i) : EntryInv g' := by
  obtain ⟨lost, htree⟩ := h.tree
  have hk := htree.member he.dir he.entry.1 hdot hdotdot
  by_cases hi : (g i).kind = .dir
  · have hgrows := htree.rmdir_grows he hk hi
    refine ⟨⟨lost, htree.rmdir he hk hi⟩, hgrows.anchored_before h.anchored
      (htree.rmdir_linked he hk hi) (fun p hp => ?_) fun x hx hl hx1 => hback x hx hl hx1.1⟩
    have hsame : (g' i).ent 1 = (g i).ent 1 := by rw [he.ent_eq, if_neg fun hc => he.ne hc.1]
    refine (hgrows.new.2 p).mp ?_
    simpa [Graph.dirs, hsame] using hp
  · exact ⟨⟨lost, htree.unlink he hk hi⟩,
      (NameTree.unlink_adds he hk hi).anchored_iff.mp h.anchored⟩

theorem EntryInv.drop (h : EntryInv g) (hz : (g n).nlink = 0) : EntryInv (g.drop n) := by
  obtain ⟨lost, htree⟩ := h.tree
  exact ⟨htree.drop hz, (htree.removes hz).anchored h.anchored⟩

end Entries

section Run

variable {sb : Superblock} {s : Fs} {me : Fin NPROC} {g : Graph}

theorem unsigned_ne_max {v : Int} (h : short v = v) (hv : v ≠ -1) : unsigned v ≠ 2 ^ 16 - 1 := by
  have hr := range_of_short h
  rw [unsigned]
  omega

theorem EntryInv.edit (h : EntryInv s.graph) (hs : Sys sb s []) {c : FsCall}
    (hc : EntrySafe (.ok s) (me, c)) (he : callEdit s me c g) : EntryInv g := by
  obtain ⟨hdir, hmax, hback⟩ := Outcome.of_ok hc
  have hlinks : ∀ i ∈ linkedInode s me c, unsigned (s.graph i).nlink ≠ 2 ^ 16 - 1 := fun i hi =>
    unsigned_ne_max (hs.ok.short_nlink i) (hmax i hi)
  cases c with
  | link old new =>
    obtain ⟨po, pn, i, d, name, k, ho, hn, hres, -, hedit⟩ := he
    refine h.link hedit (hs.pos hedit.node.1) (hlinks i ?_)
    simp [linkedInode, ho, hres]
  | unlink path =>
    obtain ⟨p, d, name, k, i, hp, hpar, hdot, hdotdot, hfind, hedit⟩ := he
    refine h.unlink hedit hdot hdotdot (hback i ?_)
    simp [unlinkedInode, hp, hpar, Graph.next_of_find hedit.dir hfind, hedit.entry.1]
  | «open» path omode =>
    obtain ⟨-, p, -, d, name, n, k, -, hedit⟩ := he
    exact h.create hedit fun hd => absurd hd (by decide)
  | mkdir path =>
    obtain ⟨p, hp, d, name, n, k, hpar, hedit⟩ := he
    have hd := parentOf_eq hp hpar
    exact h.create hedit fun _ => ⟨hdir d hd, hlinks d hd⟩
  | mknod path major minor =>
    obtain ⟨p, -, d, name, n, k, -, hedit⟩ := he
    exact h.create hedit fun hd => absurd hd (by decide)
  | _ => exact he.elim

theorem entries_never_dangle {es : List (Fin NPROC × FsCall)} (hs : Sys sb s [])
    (hc : Consistent s.graph) (hsafe : Meets (fsStep sb) EntrySafe (.ok s) es) :
    Always (fsStep sb) (Outcome (fun t => NoDangling t.graph) (· ≠ .ilockNoType)) (.ok s) es := by
  have hstart : EntryInv s.graph :=
    ⟨⟨0, (linkInv_of_consistent hs hc).tree⟩, fun x _ hx hl => absurd (hc.linked x hx) hl⟩
  exact always_of_edits (I := EntryInv) (fun t e g ht hi he hg => hi.edit ht he hg)
    (fun g n hg hz => hg.drop hz) (fun t _ hi => hi.noDangling)
    (fun t p hi hp hno => hp.2 hno hi.noDangling) hs hstart hsafe

end Run

/-- A directory is removed while it is that of the process, which makes a file there and leaves. -/
def leaveCalls : List (Fin NPROC × FsCall) :=
  [(0, .mkdir (some [47, 97, 0])), (0, .chdir (some [97, 0])), (0, .unlink (some [47, 97, 0])),
    (0, .open (some [102, 0]) O_CREATE), (0, .chdir (some [46, 46, 0]))]

theorem entries_never_dangle_leave :
    (leaveCalls.foldl (fsStep smallSb) (.ok smallFs)).isOk = true ∧
    Always (fsStep smallSb) (Outcome (fun t => NoDangling t.graph) (· ≠ .ilockNoType))
      (.ok smallFs) leaveCalls := by
  refine ⟨by decide +kernel, entries_never_dangle sys_smallFs consistent_smallFs ?_⟩
  -- Directories are made in the root, and none that has a ".." to it is removed.
  have hcalls : Meets (fsStep smallSb) (fun r e => Outcome (fun s =>
      (∀ d ∈ newDirParent s e.1 e.2, d = ROOTINO) ∧
      (∀ i ∈ linkedInode s e.1 e.2, (s.graph i).nlink ≠ -1) ∧
      ∀ i ∈ unlinkedInode s e.1 e.2, ∀ b < 8, (s.graph b).kind = .dir →
        ((s.graph b).ent 1).inum ≠ i) (fun _ => True) r) (.ok smallFs) leaveCalls := by
    decide +kernel
  refine meets_of_inv (I := Running smallSb) (fun r e hr _ => running_step r e hr) ?_
    (.ok sys_smallFs) hcalls
  intro r e hr he
  cases hr with
  | error _ => exact .error trivial
  | ok hs =>
    obtain ⟨hdir, hmax, hback⟩ := he.of_ok
    refine .ok ⟨fun d hd => hdir d hd ▸ .root, hmax, fun i hi b hb _ => hback i hi b ?_ hb⟩
    rw [Fs.graph, graphOf_kind] at hb
    exact (hs.ok.vol.inums b (by rw [hb]; decide)).2

/-- A directory is removed while it is that of the process, and then its parent is removed. -/
def orphanCalls : List (Fin NPROC × FsCall) :=
  [(0, .mkdir (some [97, 0])), (0, .mkdir (some [97, 47, 98, 0])),
    (0, .chdir (some [97, 47, 98, 0])), (0, .unlink (some [47, 97, 47, 98, 0])),
    (0, .unlink (some [47, 97, 0]))]

def DanglingParent (s : Fs) : Prop :=
  (s.graph 3).kind = .dir ∧ ((s.graph 3).ent 1).inum = 2 ∧ (s.graph 2).kind = .free

instance : DecidablePred DanglingParent := fun _ => inferInstanceAs (Decidable (_ ∧ _))

theorem orphan_dangling : Outcome DanglingParent (fun _ => False)
    (orphanCalls.foldl (fsStep smallSb) (.ok smallFs)) := by
  decide +kernel

theorem chdir_to_freed_parent : Sys smallSb smallFs [] ∧ Consistent smallFs.graph ∧
    (∃ s, orphanCalls.foldl (fsStep smallSb) (.ok smallFs) = .ok s ∧ ¬ NoDangling s.graph) ∧
    (orphanCalls ++ [(0, FsCall.chdir (some [46, 46, 0]))]).foldl (fsStep smallSb) (.ok smallFs) =
      .error .ilockNoType := by
  obtain ⟨s, hrun, -, hkind, hup, hfree⟩ := exists_of_run sys_smallFs orphan_dangling
  refine ⟨sys_smallFs, consistent_smallFs, ⟨s, hrun, fun hno => ?_⟩,
    Outcome.eq_error (by decide +kernel)⟩
  refine hno.named 3 hkind 1 (by rw [hup]; decide) ?_
  rw [hup]
  exact hfree

end OsProject
