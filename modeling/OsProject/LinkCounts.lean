import OsProject.FsRun
import OsProject.NameTree

/-! The link counts of the inodes over runs of the file system. -/

namespace OsProject

/-- The entries other than "." that name an inode, in the directories linked into the tree. -/
def namedBy (g : Graph) (i : Nat) : Set (Nat × Nat) :=
  {x | g.Linked x.1 ∧ ((g x.1).ent x.2).inum = i ∧ ((g x.1).ent x.2).name ≠ dotName}

def LinksExact (g : Graph) : Prop :=
  ∀ i, (g i).kind ≠ .free → ∃ c : Nat, (g i).nlink = c ∧ (namedBy g i).encard = c

/-- The name space of a consistent image: a tree of directories with their "." and "..", and no
inode that has lost its name. -/
structure Consistent (g : Graph) : Prop where
  dots : ∀ d, DirOk d (g d)
  forest : g.dirs.Forest ROOTINO
  linked : ∀ d, (g d).kind = .dir → g.Linked d
  noDangling : NoDangling g
  exact : LinksExact g

def parentOf (s : Fs) (me : Fin NPROC) (path : Option (List UInt8)) : Option Nat :=
  ((argstr path).bind (resolveParent s me)).map Prod.fst

def entryDir (s : Fs) (me : Fin NPROC) : FsCall → Option Nat
  | .link _ new => parentOf s me new
  | .open path omode => if omode &&& O_CREATE ≠ 0 then parentOf s me path else none
  | .mkdir path => parentOf s me path
  | .mknod path _ _ => parentOf s me path
  | _ => none

def linkedInode (s : Fs) (me : Fin NPROC) : FsCall → Option Nat
  | .link old _ => (argstr old).bind (resolve s me)
  | .mkdir path => parentOf s me path
  | _ => none

/-- No entry is made in a directory that is no longer linked into the tree, and no link count
passes the range of a `short`. -/
def LinkSafe (r : Except Panic Fs) (e : Fin NPROC × FsCall) : Prop :=
  Outcome (fun s => (∀ d ∈ entryDir s e.1 e.2, s.graph.Linked d) ∧
    ∀ i ∈ linkedInode s e.1 e.2, (s.graph i).nlink < 2 ^ 15 - 1) (fun _ => True) r

section Counted

variable {g g' : Graph} {d k i n : Nat} {name : Name}

theorem counted_eq_namedBy (hdots : ∀ d, DirOk d (g d)) (hroot : (g ROOTINO).kind = .dir)
    (hhollow : g.dirs.Hollow ROOTINO) (hi : i ≠ 0) : g.counted i = namedBy g i := by
  refine Set.ext fun ⟨x, j⟩ => ⟨?_, ?_⟩
  · rintro ⟨hx, ⟨he, -⟩, hc⟩
    obtain ⟨-, -, -, h1, h1', hrest⟩ := hdots x hx
    simp only at hx he hc
    rcases hc with hj | ⟨rfl, hl⟩
    · have hl : g.Linked x := by
        by_contra hl
        exact hhollow x hx hl j i hj ⟨he, hi⟩
      exact ⟨hl, he, hrest j hj (by rwa [he])⟩
    · refine ⟨hl, he, ?_⟩
      rw [h1']
      decide
  · rintro ⟨hl, he, hname⟩
    simp only at hl he hname
    have hx : (g x).kind = .dir := hl.dir hroot
    obtain ⟨-, -, h0, -⟩ := hdots x hx
    refine ⟨hx, ⟨he, hi⟩, ?_⟩
    have hj : j ≠ 0 := by
      rintro rfl
      rw [h0] at hname
      exact hname rfl
    rcases Nat.lt_or_ge j 2 with hlt | hge
    · exact .inr ⟨by simp only; omega, hl⟩
    · exact .inl hge

structure LinkInv (g : Graph) : Prop where
  tree : NameTree g 0
  hollow : g.dirs.Hollow ROOTINO
  range : ∀ i, 0 ≤ (g i).nlink ∧ (g i).nlink < 2 ^ 15

theorem short_of_range {v : Int} (h : -2 ^ 15 ≤ v ∧ v < 2 ^ 15) : short v = v := by
  rw [short]
  refine Int.bmod_eq_of_le ?_ ?_
  · simpa using h.1
  · simpa using h.2

theorem unsigned_of_range {v : Int} (h : 0 ≤ v ∧ v < 2 ^ 15) : (unsigned v : Int) = v := by
  rw [unsigned]
  omega

theorem LinkInv.exact (h : LinkInv g) (hpos : (g 0).kind = .free) : LinksExact g := by
  intro i hi
  have hi0 : i ≠ 0 := by
    rintro rfl
    exact hi hpos
  refine ⟨unsigned (g i).nlink, (unsigned_of_range (h.range i)).symm, ?_⟩
  rw [← counted_eq_namedBy h.tree.dots h.tree.forest.root.1 h.hollow hi0, ← h.tree.links i hi0]
  simp

theorem LinkInv.max_ne (h : LinkInv g) (i : Nat) : unsigned (g i).nlink ≠ 2 ^ 16 - 1 := by
  have hu := unsigned_of_range (h.range i)
  have hr := h.range i
  omega

theorem range_succ {v : Int} (h : 0 ≤ v ∧ v < 2 ^ 15 - 1) :
    0 ≤ short (v + 1) ∧ short (v + 1) < 2 ^ 15 := by
  rw [short_of_range (by omega)]
  omega

theorem range_pred {v : Int} (h : 1 ≤ v ∧ v < 2 ^ 15) :
    0 ≤ short (v - 1) ∧ short (v - 1) < 2 ^ 15 := by
  rw [short_of_range (by omega)]
  omega

theorem LinkInv.link (h : LinkInv g) (he : LinkEdit g i d name k g') (hi0 : i ≠ 0)
    (hd : g.Linked d) (hmax : (g i).nlink < 2 ^ 15 - 1) : LinkInv g' := by
  refine ⟨h.tree.link he (h.max_ne i) hi0, (h.tree.link_adds he hi0).hollow h.hollow hd,
    fun x => ?_⟩
  rw [he.nlink_eq]
  split_ifs
  · exact range_succ ⟨(h.range i).1, hmax⟩
  · exact h.range x

theorem LinkInv.create {type : FileType} (h : LinkInv g) (he : CreateEdit g type n d k name g')
    (hd : g.Linked d) (hmax : type = .dir → (g d).nlink < 2 ^ 15 - 1) : LinkInv g' := by
  have hrange : ∀ x, 0 ≤ (g' x).nlink ∧ (g' x).nlink < 2 ^ 15 := fun x => by
    rw [he.nlink_eq]
    split_ifs with hxn hxd
    · decide
    · exact range_succ ⟨(h.range d).1, hmax hxd.2⟩
    · exact h.range x
  by_cases htype : type = .dir
  · subst htype
    exact ⟨h.tree.mkdir he hd (h.max_ne d), (h.tree.mkdir_grows he).hollow h.hollow hd, hrange⟩
  · exact ⟨h.tree.create he htype, (h.tree.create_adds he htype).hollow h.hollow hd, hrange⟩

theorem LinkInv.one_le (h : LinkInv g) (hi0 : i ≠ 0) {x : Nat × Nat} (hx : x ∈ g.counted i) :
    1 ≤ (g i).nlink := by
  by_contra hlt
  have hz : (g i).nlink = 0 := by
    have hr := (h.range i).1
    omega
  rw [(h.tree.links.counted_empty hi0 hz).1] at hx
  exact hx

theorem LinkInv.unlink (h : LinkInv g) (he : UnlinkEdit g d k i name g') (hk : 2 ≤ k) :
    LinkInv g' := by
  by_cases hi : (g i).kind = .dir
  · have hgrows := h.tree.rmdir_grows he hk hi
    have hd0 : d ≠ 0 := (h.tree.dots d he.dir).1
    -- The ".." of the directory is a link of its parent.
    have hback : (i, 1) ∈ g.counted d := by
      have hc := (hgrows.counted_above (h.tree.rmdir_linked he hk hi)).1
      rw [Graph.counted, hc]
      exact Set.mem_insert _ _
    refine ⟨h.tree.rmdir he hk hi, hgrows.hollow_before h.hollow, fun x => ?_⟩
    rw [he.nlink_eq]
    split_ifs
    · exact range_pred ⟨he.node.2, (h.range i).2⟩
    · exact range_pred ⟨h.one_le hd0 hback, (h.range d).2⟩
    · exact h.range x
  · refine ⟨h.tree.unlink he hk hi, (NameTree.unlink_adds he hk hi).hollow_before h.hollow,
      fun x => ?_⟩
    rw [he.nlink_eq]
    split_ifs with hxi hxd
    · exact range_pred ⟨he.node.2, (h.range i).2⟩
    · exact absurd hxd.2 hi
    · exact h.range x

theorem LinkInv.drop (h : LinkInv g) (hz : (g n).nlink = 0) : LinkInv (g.drop n) := by
  have hremoves := h.tree.removes hz
  refine ⟨h.tree.drop_empty hz fun hn j hj => ?_, hremoves.hollow h.hollow, fun x => ?_⟩
  · by_contra hne
    exact h.hollow n hn (h.tree.not_linked hz) j _ hj ⟨rfl, hne⟩
  · by_cases hx : x = n
    · rw [hx, Graph.drop_self]
      decide
    · rw [Graph.drop_of_ne hx]
      exact h.range x

end Counted

section Run

variable {sb : Superblock} {s : Fs} {me : Fin NPROC} {g : Graph}

theorem parentOf_eq {path : Option (List UInt8)} {p : List UInt8} {d : Nat} {name : Name}
    (hp : argstr path = some p) (hres : resolveParent s me p = some (d, name)) :
    d ∈ parentOf s me path := by
  simp [parentOf, hp, hres]

theorem Sys.pos {held : List Slot} (h : Sys sb s held) {i : Nat} (hi : (s.graph i).kind ≠ .free) :
    i ≠ 0 := by
  rw [Fs.graph, graphOf_kind] at hi
  have hpos := (h.ok.vol.inums i hi).1
  omega

theorem LinkInv.edit (h : LinkInv s.graph) (hs : Sys sb s []) {c : FsCall}
    (hc : LinkSafe (.ok s) (me, c)) (he : callEdit s me c g) : LinkInv g := by
  obtain ⟨hdir, hmax⟩ := Outcome.of_ok hc
  cases c with
  | link old new =>
    obtain ⟨po, pn, i, d, name, k, ho, hn, hres, hpar, hedit⟩ := he
    refine h.link hedit (hs.pos hedit.node.1) (hdir d (parentOf_eq hn hpar)) (hmax i ?_)
    simp [linkedInode, ho, hres]
  | unlink path =>
    obtain ⟨p, d, name, k, i, hp, hpar, hdot, hdotdot, -, hedit⟩ := he
    exact h.unlink hedit (h.tree.member hedit.dir hedit.entry.1 hdot hdotdot)
  | «open» path omode =>
    obtain ⟨hcreate, p, hp, d, name, n, k, hpar, hedit⟩ := he
    refine h.create hedit (hdir d ?_) fun hd => absurd hd (by decide)
    simp only [entryDir]
    rw [if_pos hcreate]
    exact parentOf_eq hp hpar
  | mkdir path =>
    obtain ⟨p, hp, d, name, n, k, hpar, hedit⟩ := he
    exact h.create hedit (hdir d (parentOf_eq hp hpar)) fun _ => hmax d (parentOf_eq hp hpar)
  | mknod path major minor =>
    obtain ⟨p, hp, d, name, n, k, hpar, hedit⟩ := he
    exact h.create hedit (hdir d (parentOf_eq hp hpar)) fun hd => absurd hd (by decide)
  | _ => exact he.elim

theorem range_of_short {v : Int} (h : short v = v) : -2 ^ 15 ≤ v ∧ v < 2 ^ 15 := by
  rw [short] at h
  have hle := Int.le_bmod (x := v) (m := 2 ^ 16) (by decide)
  have hlt := Int.bmod_lt (x := v) (m := 2 ^ 16) (by decide)
  omega

theorem linkInv_of_consistent (hs : Sys sb s []) (hc : Consistent s.graph) : LinkInv s.graph := by
  have hfree : ∀ n, (s.graph n).kind = .free → (s.graph n).nlink = 0 := fun n hn => by
    rw [Fs.graph_of_free hn]
  have hhollow : s.graph.dirs.Hollow ROOTINO := fun x hx hl => absurd (hc.linked x hx) hl
  have hrange : ∀ i, 0 ≤ (s.graph i).nlink ∧ (s.graph i).nlink < 2 ^ 15 := fun i => by
    refine ⟨?_, (range_of_short (hs.ok.short_nlink i)).2⟩
    by_cases hi : (s.graph i).kind = .free
    · rw [hfree i hi]
    · obtain ⟨c, hlink, -⟩ := hc.exact i hi
      omega
  refine ⟨⟨hc.dots, hc.forest, fun i hi0 => ?_, hfree⟩, hhollow, hrange⟩
  by_cases hi : (s.graph i).kind = .free
  · have hempty : s.graph.counted i = ∅ := by
      refine Set.eq_empty_of_forall_notMem fun x hx => ?_
      obtain ⟨hx, ⟨he, -⟩, -⟩ := hx
      exact hc.noDangling.named x.1 hx x.2 (by rwa [he]) (by rwa [he])
    rw [hempty, hfree i hi]
    simp [unsigned]
  · obtain ⟨c, hlink, hcard⟩ := hc.exact i hi
    have hu := unsigned_of_range (hrange i)
    rw [counted_eq_namedBy hc.dots hc.forest.root.1 hhollow hi0, hcard]
    have hcu : unsigned (s.graph i).nlink = c := by omega
    simp [hcu]

theorem links_exact {es : List (Fin NPROC × FsCall)} (hs : Sys sb s [])
    (hc : Consistent s.graph) (hsafe : Meets (fsStep sb) LinkSafe (.ok s) es) :
    Always (fsStep sb) (Outcome (fun t => LinksExact t.graph) fun _ => True) (.ok s) es := by
  refine always_of_edits (I := LinkInv) (fun t e g ht hi he hg => hi.edit ht he hg)
    (fun g n hg hz => hg.drop hz) (fun t ht hi => hi.exact ?_) (fun _ _ _ _ => trivial) hs
    (linkInv_of_consistent hs hc) hsafe
  by_contra hpos
  exact ht.pos hpos rfl

end Run

theorem smallFs_graph_kind {n : Nat} (h : (smallFs.graph n).kind ≠ .free) : n = ROOTINO := by
  rw [Fs.graph, graphOf_kind] at h
  exact smallFs_type h

theorem smallFs_graph_ent {k : Nat} (hk : ((smallFs.graph ROOTINO).ent k).inum ≠ 0) :
    (k = 0 ∨ k = 1) ∧ ((smallFs.graph ROOTINO).ent k).inum = ROOTINO := by
  have hlt : k < 2 := by
    by_contra hge
    exact hk (sys_smallFs.ok.ent_beyond (Nat.le_of_not_lt hge))
  have hcases : k = 0 ∨ k = 1 := by omega
  refine ⟨hcases, ?_⟩
  rcases hcases with rfl | rfl <;> decide +kernel

theorem consistent_smallFs : Consistent smallFs.graph := by
  have hkind : ∀ d, (smallFs.graph d).kind = .dir → d = ROOTINO := fun d hd =>
    smallFs_graph_kind (by rw [hd]; decide)
  have hsub : ∀ d k i, ¬ smallFs.graph.dirs.Sub d k i := by
    intro d k i hs
    obtain rfl := hkind d hs.above
    have hz := (smallFs_graph_ent (hs.ent.1 ▸ hs.ent.2)).1
    have hk := hs.member
    omega
  have hroot : (smallFs.graph ROOTINO).ent 0 = { inum := ROOTINO, name := dotName } ∧
      (smallFs.graph ROOTINO).ent 1 = { inum := ROOTINO, name := dotDotName } := by
    decide +kernel
  refine ⟨fun d hd => ?_, ⟨⟨rfl, ?_⟩, fun d k i hs => absurd hs (hsub d k i),
    fun d k j i hs => absurd hs (hsub d k i)⟩, fun d hd => hkind d hd ▸ .root, ⟨?_, by decide⟩, ?_⟩
  · obtain rfl := hkind d hd
    refine ⟨by decide, by decide, hroot.1, by rw [hroot.2]; decide, by rw [hroot.2],
      fun k hk hne => ?_⟩
    have hz := (smallFs_graph_ent hne).1
    omega
  · exact ⟨by rw [hroot.2], by decide⟩
  · intro d hd k hk
    obtain rfl := hkind d hd
    rw [(smallFs_graph_ent hk).2]
    decide
  · intro i hi
    obtain rfl := smallFs_graph_kind hi
    have hset : namedBy smallFs.graph ROOTINO = {(ROOTINO, 1)} := by
      refine Set.ext fun ⟨x, j⟩ => ⟨?_, ?_⟩
      · rintro ⟨hl, he, hname⟩
        have hx : x = ROOTINO := hkind x (hl.dir rfl)
        subst hx
        simp only at he hname
        rcases (smallFs_graph_ent (by rw [he]; decide)).1 with rfl | rfl
        · rw [hroot.1] at hname
          exact absurd rfl hname
        · rfl
      · rintro ⟨⟩
        exact ⟨.root, by rw [hroot.2], by rw [hroot.2]; decide⟩
    exact ⟨1, rfl, by rw [hset, Set.encard_singleton]; rfl⟩

/-- A directory is made, a file in the root gets two names and loses the first. -/
def namingCalls : List (Fin NPROC × FsCall) :=
  [(0, .mkdir (some [47, 100, 0])), (0, .open (some [47, 102, 0]) O_CREATE),
    (0, .link (some [102, 0]) (some [47, 103, 0])), (0, .unlink (some [102, 0])),
    (0, .chdir (some [100, 0])), (0, .unlink (some [46, 46, 47, 100, 0]))]

theorem links_exact_naming :
    (namingCalls.foldl (fsStep smallSb) (.ok smallFs)).isOk = true ∧
    Always (fsStep smallSb) (Outcome (fun t => LinksExact t.graph) fun _ => True) (.ok smallFs)
      namingCalls := by
  have hroot : Meets (fsStep smallSb) (fun r e => Outcome (fun s =>
      (∀ d ∈ entryDir s e.1 e.2, d = ROOTINO) ∧
      ∀ i ∈ linkedInode s e.1 e.2, (s.graph i).nlink < 2 ^ 15 - 1) (fun _ => True) r)
      (.ok smallFs) namingCalls := by
    decide +kernel
  refine ⟨by decide +kernel, links_exact sys_smallFs consistent_smallFs (hroot.imp ?_)⟩
  exact fun r e he => he.imp (fun s hs => ⟨fun d hd => hs.1 d hd ▸ .root, hs.2⟩) fun _ hp => hp

/-- A file is made in the directory of the process after the directory is removed. -/
def removedDirCalls : List (Fin NPROC × FsCall) :=
  [(0, .mkdir (some [100, 0])), (0, .chdir (some [100, 0])),
    (0, .unlink (some [46, 46, 47, 100, 0])), (0, .open (some [102, 0]) O_CREATE)]

theorem linked_of_bare_root {g : Graph} (hbare : ∀ k, 2 ≤ k → ((g ROOTINO).ent k).inum = 0) {x : Nat}
    (h : g.Linked x) : x = ROOTINO := by
  induction h with
  | root => rfl
  | sub _ hs ih =>
    subst ih
    exact absurd hs.ent (not_ent (hbare _ hs.member))

def LeftOver (s : Fs) : Prop :=
  (s.graph 3).kind = .file ∧ (s.graph 3).nlink = 1 ∧ (s.graph ROOTINO).cnt ≤ 3 ∧
    ((s.graph ROOTINO).ent 0).name = dotName ∧ ((s.graph ROOTINO).ent 1).inum = ROOTINO ∧
    ((s.graph ROOTINO).ent 2).inum = 0

instance : DecidablePred LeftOver := fun _ => inferInstanceAs (Decidable (_ ∧ _))

theorem LeftOver.not_exact {sb : Superblock} {s : Fs} (h : LeftOver s) (hs : Sys sb s []) :
    namedBy s.graph 3 = ∅ ∧ ¬ LinksExact s.graph := by
  obtain ⟨hkind, hlink, hcnt, h0, h1, h2⟩ := h
  have hbare : ∀ k, 2 ≤ k → ((s.graph ROOTINO).ent k).inum = 0 := fun k hk => by
    by_cases hk2 : k = 2
    · rw [hk2]
      exact h2
    · exact hs.ok.ent_beyond (by omega)
  have hnone : namedBy s.graph 3 = ∅ := by
    refine Set.eq_empty_of_forall_notMem ?_
    rintro ⟨x, j⟩ ⟨hl, he, hname⟩
    obtain rfl := linked_of_bare_root hbare hl
    simp only at he hname
    match j with
    | 0 => exact hname h0
    | 1 => exact absurd (h1.symm.trans he) (by decide)
    | j + 2 => exact absurd ((hbare (j + 2) (by omega)).symm.trans he) (by decide)
  refine ⟨hnone, fun hexact => ?_⟩
  obtain ⟨c, hc, hcard⟩ := hexact 3 (by rw [hkind]; decide)
  rw [hnone, Set.encard_empty] at hcard
  have hc0 : c = 0 := by exact_mod_cast hcard.symm
  omega

theorem removedDir_leftOver : Outcome LeftOver (fun _ => False)
    (removedDirCalls.foldl (fsStep smallSb) (.ok smallFs)) := by
  decide +kernel

theorem create_in_removed_dir : Sys smallSb smallFs [] ∧ Consistent smallFs.graph ∧
    ∃ s, removedDirCalls.foldl (fsStep smallSb) (.ok smallFs) = .ok s ∧
      (s.graph 3).kind = .file ∧ (s.graph 3).nlink = 1 ∧ namedBy s.graph 3 = ∅ ∧
      ¬ LinksExact s.graph := by
  obtain ⟨s, hrun, hsys, hend⟩ := exists_of_run sys_smallFs removedDir_leftOver
  exact ⟨sys_smallFs, consistent_smallFs, s, hrun, hend.1, hend.2.1, hend.not_exact hsys⟩

end OsProject
