import OsProject.PathSpec

/-! What `sys_link` and `sys_unlink` do to the graph. -/

namespace OsProject

variable {sb : Superblock} {s s' : Fs} {hold : Slot → Nat} {held : List Slot}
  {doomed : List Nat} {ip dp : Slot} {T : Prop} {me : Fin NPROC}

def Effect (g : Graph) (edit : Graph → Prop) (g' : Graph) : Prop :=
  ∃ g1, (g1 = g ∨ edit g1) ∧ g1.Drops g'

theorem Effect.none {g g' : Graph} {edit : Graph → Prop} (h : g.Drops g') : Effect g edit g' :=
  ⟨g, .inl rfl, h⟩

theorem Effect.same {g g' : Graph} {edit : Graph → Prop} (h : g' = g) : Effect g edit g' :=
  ⟨g, .inl rfl, h ▸ .refl⟩

structure LinkEdit (g : Graph) (i d : Nat) (name : Name) (k : Nat) (g' : Graph) : Prop where
  node : (g i).kind ≠ .free ∧ (g i).kind ≠ .dir
  dir : (g d).kind = .dir
  fresh : (g d).find name = none
  free : (g d).FirstFree k
  graph : g' = (g.setLinks i (short ((g i).nlink + 1))).setEnt d k { inum := i, name := name }

theorem Graph.find_setLinks {g : Graph} {n d : Nat} {v : Int} {name : Name} :
    (g.setLinks n v d).find name = (g d).find name := by
  by_cases h : d = n <;> simp [Graph.setLinks, Node.find, h]

theorem Graph.ent_setLinks {g : Graph} {n d : Nat} {v : Int} :
    (g.setLinks n v d).ent = (g d).ent := by
  by_cases h : d = n <;> simp [Graph.setLinks, h]

theorem Graph.setLinks_setLinks {g : Graph} {n : Nat} {v w : Int} :
    (g.setLinks n v).setLinks n w = g.setLinks n w := by
  simp [Graph.setLinks]

theorem Graph.setLinks_self {g : Graph} {n : Nat} : g.setLinks n (g n).nlink = g := by
  simp [Graph.setLinks]

theorem Graph.nlink_setLinks {g : Graph} {n : Nat} {v : Int} : (g.setLinks n v n).nlink = v := by
  simp [Graph.setLinks]

theorem short_add_sub {v : Int} (h : short v = v) : short (short (v + 1) + -1) = v := by
  have hsum : v + 1 + -1 = v := by omega
  rw [short, short, Int.bmod_add_bmod, hsum]
  exact h

theorem linkBad_spec {g : Graph} {n : Nat} (h : FsOk sb s hold [ip] [n])
    (hv : (s.inode ip).valid = true) (hnum : (s.inode ip).inum = n)
    (hshort : short (g n).nlink = (g n).nlink)
    (hg : s.graph = g.setLinks n (short ((g n).nlink + 1))) :
    wp (linkBad sb ip) (fun _ s' => ∃ g', Reaches sb hold [] s s' [] [] g' ∧ g.Drops g')
      (Err T) s := by
  have hmem : 0 < hold ip ∨ ip ∈ [ip] := .inr (by simp)
  obtain ⟨hk, -, hty⟩ := h.slot_node hmem hv
  have hkind : (g n).kind ≠ .free := by
    rw [hg, hnum, Graph.setLinks_kind] at hk
    rw [hk]
    exact hty
  simp only [linkBad, liftM_fs, wp_bind]
  refine wp_post (ilock_spec h hmem fun hf => ?_) ?_
  · rw [hk] at hf
    exact absurd hf hty
  rintro _ s1 ⟨hs1, hv1, -, -⟩
  have hnum1 : (s1.inode ip).inum = n := (hs1.kept.slot ip hmem).1.trans hnum
  refine wp_post (addNlink_spec (-1) hs1.ok hmem hv1) ?_
  intro _ s2 hs2
  obtain ⟨hnum2, hv2⟩ := hs2.kept.slot ip hmem
  have hgraph2 : s2.graph = g := by
    rw [hs2.graph, hs1.graph, hnum1, hg, Graph.nlink_setLinks, Graph.setLinks_setLinks,
      short_add_sub hshort, Graph.setLinks_self]
  have hok2 : FsOk sb s2 hold [ip] [(s2.inode ip).inum] := by
    refine hs2.ok.doom_mono ?_
    simp [hnum2, hnum1]
  refine wp_post (iunlockput_last hok2 (List.Perm.refl _) (by simp) (hv2 hv1)) ?_
  intro _ s3 hs3
  simp only [endOp_fs, wp_modify, wp_pure]
  refine ⟨_, ((hs1.trans hs2 (List.Subset.refl _)).trans hs3 (by simp)).logged [], ?_⟩
  rw [hgraph2, hnum2, hnum1]
  exact Graph.drops_ite _ hkind

theorem linkEntry_spec {g : Graph} {n : Nat} {new : Option (List UInt8)} {pn : List UInt8}
    (hnew : argstr new = some pn) (h : FsOk sb s hold [ip] [n])
    (hv : (s.inode ip).valid = true) (hnum : (s.inode ip).inum = n)
    (hshort : short (g n).nlink = (g n).nlink)
    (hg : s.graph = g.setLinks n (short ((g n).nlink + 1))) (hdir : (g n).kind ≠ .dir)
    (hT : ¬ NoDangling s.graph → T)
    (hcwd : ∀ c, (s.kernel.proc me).cwd = some c → 0 < hold c) :
    wp (linkEntry sb me ip n pn) (fun _ s' => ∃ g', Reaches sb hold [] s s' [] [] g' ∧
      Effect g (fun g1 => ∃ d name k, resolveParent s me pn = some (d, name) ∧
        LinkEdit g n d name k g1) g') (Err T) s := by
  have hmem : 0 < hold ip ∨ ip ∈ [ip] := .inr (by simp)
  obtain ⟨hk, -, hty⟩ := h.slot_node hmem hv
  have hkind : (g n).kind ≠ .free := by
    rw [hg, hnum, Graph.setLinks_kind] at hk
    rw [hk]
    exact hty
  have hlt : n < 2 ^ 16 := by
    obtain ⟨hco, hty'⟩ := h.cache.coherent ip (h.ref_pos hmem) hv
    have hin := (h.vol.inums _ (hco ▸ hty')).2
    have hfits := h.vol.fits.2
    omega
  simp only [linkEntry, liftM_fs, wp_bind]
  refine wp_post (nameiparent_spec h (fun m hm => ⟨ip, by simp, by simp_all⟩) hT
    hcwd) ?_
  rintro r s1 (⟨rfl, hs1⟩ | ⟨dp, name, rfl, hs1, hres⟩)
  · obtain ⟨hnum1, hv1⟩ := hs1.kept.slot ip hmem
    refine wp_post (linkBad_spec hs1.ok (hv1 hv) (hnum1.trans hnum) hshort
      (hs1.graph.trans hg)) ?_
    rintro _ s2 ⟨g', hs2, hdrops⟩
    exact ⟨g', hs1.trans hs2 (by simp), .none hdrops⟩
  have hmemd : 0 < hold dp ∨ dp ∈ [dp, ip] := .inr (by simp)
  have hmemi : 0 < hold ip ∨ ip ∈ [dp, ip] := .inr (by simp)
  have hsub : [ip] ⊆ [dp, ip] := by simp
  have hkindd : (s.graph (s1.inode dp).inum).kind = .dir := (Graph.walkParent_kind hres).1
  refine wp_seq (ilock_spec hs1.ok hmemd fun hf => ?_) ?_
  · rw [hs1.graph, hkindd] at hf
    exact absurd hf (by decide)
  rintro _ s2 ⟨hs2, hv2, -, -⟩
  have hs02 := hs1.same (hs2.mono hsub) (List.Subset.refl _)
  have hnumd := (hs2.kept.slot dp hmemd).1
  obtain ⟨hnumi, hvi⟩ := hs02.kept.slot ip hmem
  refine wp_seq (dirlink_spec hs2.ok hmemd hv2 (by rw [hnumd, hs02.graph]; exact hkindd)
    (fun m hm => ⟨ip, by simp, by simp_all⟩) (fits_of_resolveParent hnew hres hlt)) ?_
  rintro r s3 (⟨rfl, hs3⟩ | ⟨rfl, k, hfind, hfirst, hs3⟩)
  · have hs03 := hs02.same (hs3.mono hsub) (List.Subset.refl _)
    have hnum3 := (hs03.kept.slot ip hmem).1
    refine wp_seq (iunlockput_keep hs3.ok (List.Perm.refl _)
      fun m hm => ⟨ip, by simp, by simp_all⟩) ?_
    intro _ s4 hs4
    have hs04 := hs03.same hs4 (List.Subset.refl _)
    obtain ⟨hnum4, hv4⟩ := hs04.kept.slot ip hmem
    rw [if_pos (by decide)]
    refine wp_post (linkBad_spec hs4.ok (hv4 hv) (hnum4.trans hnum) hshort
      (hs04.graph.trans hg)) ?_
    rintro _ s5 ⟨g', hs5, hdrops⟩
    exact ⟨g', hs04.trans hs5 (by simp), .none hdrops⟩
  · have hs03 := hs02.trans (hs3.mono hsub) (List.Subset.refl _)
    have hnum3 := (hs03.kept.slot ip hmem).1
    refine wp_seq (iunlockput_keep hs3.ok (List.Perm.refl _)
      fun m hm => ⟨ip, by simp, by simp_all⟩) ?_
    intro _ s4 hs4
    have hs04 := hs03.trans hs4 (List.Subset.refl _)
    obtain ⟨hnum4, hv4⟩ := hs04.kept.slot ip hmem
    rw [if_neg (by decide)]
    have hok4 : FsOk sb s4 hold [ip] [(s4.inode ip).inum] := by
      rw [hnum4, hnum]
      exact hs4.ok
    refine wp_seq (iput_last hok4 (List.Perm.refl _) (by simp) fun _ => hv4 hv) ?_
    intro _ s5 hs5
    simp only [endOp_fs, wp_bind, wp_modify, wp_pure]
    refine ⟨_, (hs04.trans hs5 (by simp)).logged [], ?_⟩
    have hedit : LinkEdit g n (s1.inode dp).inum name k s4.graph := by
      rw [hnumd, hs02.graph, hg] at hfind hfirst
      rw [hs04.graph, hs3.graph, hs02.graph, hg, hnumd]
      rw [Graph.find_setLinks] at hfind
      rw [hg, Graph.setLinks_kind] at hkindd
      refine ⟨⟨hkind, hdir⟩, hkindd, hfind, ?_, rfl⟩
      rwa [Node.FirstFree, Graph.ent_setLinks] at hfirst
    refine ⟨s4.graph, .inr ⟨_, name, k, hres, hedit⟩, ?_⟩
    rw [hnum4, hnum]
    refine Graph.drops_ite _ ?_
    rw [hedit.graph, Graph.setEnt_kind, Graph.setLinks_kind]
    exact hkind

def linkEdit (s : Fs) (me : Fin NPROC) (old new : Option (List UInt8)) (g : Graph) : Prop :=
  ∃ po pn i d name k, argstr old = some po ∧ argstr new = some pn ∧ resolve s me po = some i ∧
    resolveParent s me pn = some (d, name) ∧ LinkEdit s.graph i d name k g

theorem sysLink_spec (old new : Option (List UInt8)) (h : FsOk sb s hold [] [])
    (hT : ¬ NoDangling s.graph → T)
    (hcwd : ∀ c, (s.kernel.proc me).cwd = some c → 0 < hold c) :
    wp (sysLink sb me old new) (fun _ s' => ∃ g', Reaches sb hold [] s s' [] [] g' ∧
      Effect s.graph (linkEdit s me old new) g') (Err T) s := by
  have hsame : ∀ {s' : Fs}, Reaches sb hold [] s s' [] [] s.graph →
      ∃ g', Reaches sb hold [] s s' [] [] g' ∧ Effect s.graph (linkEdit s me old new) g' :=
    fun hs => ⟨_, hs, .none .refl⟩
  cases ho : argstr old with
  | none =>
    simp only [sysLink, ho, wp_pure]
    exact hsame (.refl h)
  | some po =>
    cases hn : argstr new with
    | none =>
      simp only [sysLink, ho, hn, wp_pure]
      exact hsame (.refl h)
    | some pn =>
      simp only [sysLink, ho, hn, liftM_fs, beginOp_fs, wp_bind, wp_pure]
      refine wp_post (namei_spec h (by simp) hT hcwd) ?_
      rintro r s1 (⟨rfl, hs1⟩ | ⟨ip, rfl, hs1, hfree, hres⟩)
      · simp only [endOp_fs, wp_bind, wp_modify, wp_pure]
        exact hsame (hs1.logged [])
      simp only [wp_bind]
      have hmem : 0 < hold ip ∨ ip ∈ [ip] := .inr (by simp)
      refine wp_post (ilock_spec hs1.ok hmem (by rwa [hs1.graph])) ?_
      rintro _ s2 ⟨hs2, hv2, -, -⟩
      have hs02 := hs1.same (hs2.mono (List.nil_subset _)) (List.Subset.refl _)
      have hnum2 := (hs2.kept.slot ip hmem).1
      obtain ⟨hk, -, hty⟩ := hs2.ok.slot_node hmem hv2
      rw [hs2.graph, hs1.graph, hnum2] at hk
      simp only [getInode, wp_bind, wp_get, wp_pure, wp_ite]
      refine ⟨fun _ => ?_, fun hdir => ?_⟩
      · refine wp_post (iunlockput_keep hs2.ok (List.Perm.refl _) (by simp)) ?_
        intro _ s3 hs3
        simp only [endOp_fs, wp_modify]
        exact hsame ((hs02.same hs3 (List.Subset.refl _)).logged [])
      refine wp_post (addNlink_spec 1 hs2.ok hmem hv2) ?_
      intro _ s3 hs3
      refine wp_post (iunlock_spec hs3.ok hmem) ?_
      intro _ s4 hs4
      have hs24 := hs3.trans hs4 (List.Subset.refl _)
      have hs04 := hs02.trans (hs24.mono (List.nil_subset _)) (List.Subset.refl _)
      obtain ⟨hnum4, hv4⟩ := hs24.kept.slot ip hmem
      have hgraph : s4.graph = s.graph.setLinks (s2.inode ip).inum
          (short ((s.graph (s2.inode ip).inum).nlink + 1)) := by
        rw [hs4.graph, hs3.graph, hs02.graph]
      have hres' : resolveParent s4 me pn = resolveParent s me pn := by
        rw [resolveParent, resolveParent, startNum_of_kept hs04.kept hcwd, hgraph,
          Graph.walkParent_setLinks]
      refine wp_post (linkEntry_spec hn hs4.ok (hv4 hv2) hnum4 (h.short_nlink _) hgraph ?_ ?_ ?_) ?_
      · rw [hnum2, hk]
        exact hdir
      · intro hdangling
        refine hT fun hno => hdangling ?_
        rw [hgraph]
        exact noDangling_setLinks hno
      · rw [hs04.kept.kernel]
        exact hcwd
      · rintro _ s5 ⟨g', hs5, g1, hg1, hdrops⟩
        refine ⟨g', hs04.trans hs5 (List.Subset.refl _), g1, hg1.imp_right ?_, hdrops⟩
        rintro ⟨d, name, k, hparent, hedit⟩
        rw [hres'] at hparent
        rw [hnum2] at hedit
        exact ⟨po, pn, _, d, name, k, ho, hn, hres, hparent, hedit⟩

theorem Graph.setLinks_of_ne {g : Graph} {n m : Nat} (h : m ≠ n) (v : Int) :
    g.setLinks n v m = g m := Function.update_of_ne h _ _

theorem unlinkInode_spec {d i : Nat} (h : FsOk sb s hold [ip, dp] [d]) (hne : ip ≠ dp)
    (hvd : (s.inode dp).valid = true) (hvi : (s.inode ip).valid = true)
    (hnumd : (s.inode dp).inum = d) (hnumi : (s.inode ip).inum = i) :
    wp (unlinkInode sb dp ip) (fun _ s' => ∃ g', Reaches sb hold [] s s' [] [] g' ∧
      (s.graph.setLinks i (short ((s.graph i).nlink - 1))).Drops g') (Err T) s := by
  have hmemd : 0 < hold dp ∨ dp ∈ [ip, dp] := .inr (by simp)
  have hmemi : 0 < hold ip ∨ ip ∈ [ip, dp] := .inr (by simp)
  have hmem : 0 < hold ip ∨ ip ∈ [ip] := .inr (by simp)
  have hid : i ≠ d := by
    rintro rfl
    exact hne (h.cache.unique ip dp (h.ref_pos hmemi) (h.ref_pos hmemd) (by rw [hnumi, hnumd]))
  have hkd : (s.graph d).kind ≠ .free := by
    obtain ⟨hk, -, hty⟩ := h.slot_node hmemd hvd
    rw [← hnumd, hk]
    exact hty
  have hki : (s.graph i).kind ≠ .free := by
    obtain ⟨hk, -, hty⟩ := h.slot_node hmemi hvi
    rw [← hnumi, hk]
    exact hty
  subst hnumd hnumi
  simp only [unlinkInode, liftM_fs, wp_bind]
  refine wp_post (iunlockput_last h (List.Perm.swap dp ip []) (by simpa using Ne.symm hne) hvd) ?_
  intro _ s1 hs1
  obtain ⟨hnum1, hv1⟩ := hs1.kept.slot ip hmem
  refine wp_post (addNlink_spec (-1) hs1.ok hmem (hv1 hvi)) ?_
  intro _ s2 hs2
  obtain ⟨hnum2, hv2⟩ := hs2.kept.slot ip hmem
  refine wp_post (iunlockput_last (hnum2 ▸ hs2.ok) (List.Perm.refl _) (by simp) (hv2 (hv1 hvi))) ?_
  intro _ s3 hs3
  simp only [endOp_fs, wp_modify, wp_pure]
  refine ⟨_, ((hs1.trans hs2 (List.Subset.refl _)).trans hs3 (by simp)).logged [], ?_⟩
  -- Deleting the directory and changing the links of the inode commute.
  have hdrops : (s.graph.setLinks (s.inode ip).inum
      (short ((s.graph (s.inode ip).inum).nlink - 1))).Drops s2.graph := by
    rw [hs2.graph, hs1.graph, hnum1]
    split_ifs with hc
    · rw [Graph.drop_setLinks hid]
      have hsame : s.graph.drop (s.inode dp).inum (s.inode ip).inum =
          s.graph (s.inode ip).inum := Function.update_of_ne hid _ _
      rw [hsame]
      refine .single ⟨(s.inode dp).inum, ?_, ?_, rfl⟩
      · rwa [Graph.setLinks_kind]
      · rw [Graph.setLinks_of_ne (Ne.symm hid)]
        exact hc.2
    · exact .refl
  refine hdrops.trans (Graph.drops_ite _ ?_)
  obtain ⟨hk, -, hty⟩ := hs2.ok.slot_node hmem (hv2 (hv1 hvi))
  rw [hk]
  exact hty

/-- Entry `k` of directory `d` goes, and with it a link of the inode `i` that it names. A
directory must be empty, and its ".." goes with it. -/
structure UnlinkEdit (g : Graph) (d k i : Nat) (name : Name) (g' : Graph) : Prop where
  dir : (g d).kind = .dir
  entry : (g d).ent k = { inum := i, name := name } ∧ i ≠ 0
  ne : i ≠ d
  node : (g i).kind ≠ .free ∧ 1 ≤ (g i).nlink
  empty : (g i).kind = .dir → ∀ j, 2 ≤ j → ((g i).ent j).inum = 0
  graph : g' = (if (g i).kind = .dir then (g.setEnt d k {}).setLinks d (short ((g d).nlink - 1))
    else g.setEnt d k {}).setLinks i (short ((g i).nlink - 1))

theorem Graph.setEnt_of_ne {g : Graph} {d m : Nat} (h : m ≠ d) (k : Nat) (de : Dirent) :
    g.setEnt d k de m = g m := Function.update_of_ne h _ _

theorem unlinkEntry_spec {d i k : Nat} {isDir : Bool} (h : FsOk sb s hold [ip, dp] [])
    (hne : ip ≠ dp) (hvd : (s.inode dp).valid = true) (hvi : (s.inode ip).valid = true)
    (hnumd : (s.inode dp).inum = d) (hnumi : (s.inode ip).inum = i)
    (hdir : (s.graph d).kind = .dir) (hisDir : isDir = true ↔ (s.graph i).kind = .dir) :
    wp (unlinkEntry sb dp ip isDir (16 * k)) (fun _ s' => ∃ g', Reaches sb hold [] s s' [] [] g' ∧
      ((if (s.graph i).kind = .dir
        then (s.graph.setEnt d k {}).setLinks d (short ((s.graph d).nlink - 1))
        else s.graph.setEnt d k {}).setLinks i (short ((s.graph i).nlink - 1))).Drops g')
      (Err T) s := by
  have hmemd : 0 < hold dp ∨ dp ∈ [ip, dp] := .inr (by simp)
  have hmemi : 0 < hold ip ∨ ip ∈ [ip, dp] := .inr (by simp)
  have hid : i ≠ d := by
    rintro rfl
    exact hne (h.cache.unique ip dp (h.ref_pos hmemi) (h.ref_pos hmemd) (by rw [hnumi, hnumd]))
  simp only [unlinkEntry, liftM_fs, wp_bind]
  refine wp_post (writeDirent_spec h hmemd hvd (by rwa [hnumd]) empty_fits) ?_
  intro r s1 hs1
  simp only [wp_ite, wp_throw, wp_bind, wp_pure]
  refine ⟨fun _ => by simp [Err], fun hr => ?_⟩
  rw [if_pos (not_not.mp hr), hnumd] at hs1
  obtain ⟨hnumd1, hvd1⟩ := hs1.kept.slot dp hmemd
  obtain ⟨hnumi1, hvi1⟩ := hs1.kept.slot ip hmemi
  refine ⟨fun hd => ?_, fun hnd => ?_⟩
  · refine wp_post (addNlink_spec (-1) hs1.ok hmemd (hvd1 hvd)) ?_
    intro _ s2 hs2
    obtain ⟨hnumd2, hvd2⟩ := hs2.kept.slot dp hmemd
    obtain ⟨hnumi2, hvi2⟩ := hs2.kept.slot ip hmemi
    rw [hnumd1, hnumd] at hs2
    refine wp_post (unlinkInode_spec hs2.ok hne (hvd2 (hvd1 hvd)) (hvi2 (hvi1 hvi))
      (by rw [hnumd2, hnumd1, hnumd]) (by rw [hnumi2, hnumi1, hnumi])) ?_
    rintro _ s3 ⟨g', hs3, hdrops⟩
    refine ⟨g', (hs1.trans hs2 (List.Subset.refl _)).trans hs3 (by simp), ?_⟩
    have hlink : (s.graph.setEnt d k {} d).nlink = (s.graph d).nlink := by simp [Graph.setEnt]
    rw [hs2.graph, hs1.graph, Graph.setLinks_of_ne hid, Graph.setEnt_of_ne hid, hlink] at hdrops
    rw [if_pos (hisDir.mp hd)]
    exact hdrops
  · have hok1 : FsOk sb s1 hold [ip, dp] [d] := hs1.ok.doom_mono (by simp)
    refine wp_post (unlinkInode_spec hok1 hne (hvd1 hvd) (hvi1 hvi) (by rw [hnumd1, hnumd])
      (by rw [hnumi1, hnumi])) ?_
    rintro _ s2 ⟨g', hs2, hdrops⟩
    refine ⟨g', hs1.trans hs2 (by simp), ?_⟩
    rw [hs1.graph, Graph.setEnt_of_ne hid] at hdrops
    rw [if_neg (hisDir.not.mp hnd)]
    exact hdrops

def unlinkEdit (s : Fs) (me : Fin NPROC) (path : Option (List UInt8)) (g : Graph) : Prop :=
  ∃ p d name k i, argstr path = some p ∧ resolveParent s me p = some (d, name) ∧
    name ≠ dotName ∧ name ≠ dotDotName ∧ (s.graph d).find name = some k ∧
    UnlinkEdit s.graph d k i name g

theorem unlinkBad_spec (h : FsOk sb s hold [dp] []) :
    wp (unlinkBad sb dp) (fun _ s' => Reaches sb hold [] s s' [] [] s.graph) (Err T) s := by
  simp only [unlinkBad, liftM_fs, wp_bind]
  refine wp_post (iunlockput_keep h (List.Perm.refl _) (by simp)) ?_
  intro _ s1 hs1
  simp only [endOp_fs, wp_modify, wp_pure]
  exact hs1.logged []

theorem sysUnlink_spec (path : Option (List UInt8)) (h : FsOk sb s hold [] [])
    (hT : ¬ NoDangling s.graph → T)
    (hcwd : ∀ c, (s.kernel.proc me).cwd = some c → 0 < hold c) :
    wp (sysUnlink sb me path) (fun _ s' => ∃ g', Reaches sb hold [] s s' [] [] g' ∧
      Effect s.graph (unlinkEdit s me path) g') (Err T) s := by
  have hsame : ∀ {s' : Fs}, Reaches sb hold [] s s' [] [] s.graph →
      ∃ g', Reaches sb hold [] s s' [] [] g' ∧ Effect s.graph (unlinkEdit s me path) g' :=
    fun hs => ⟨_, hs, .none .refl⟩
  cases hp : argstr path with
  | none =>
    simp only [sysUnlink, hp, wp_pure]
    exact hsame (.refl h)
  | some p =>
    simp only [sysUnlink, hp, liftM_fs, beginOp_fs, wp_bind, wp_pure]
    refine wp_post (nameiparent_spec h (by simp) hT hcwd) ?_
    rintro r s1 (⟨rfl, hs1⟩ | ⟨dp, name, rfl, hs1, hres⟩)
    · simp only [endOp_fs, wp_bind, wp_modify, wp_pure]
      exact hsame (hs1.logged [])
    have hmem : 0 < hold dp ∨ dp ∈ [dp] := .inr (by simp)
    have hkind : (s.graph (s1.inode dp).inum).kind = .dir := (Graph.walkParent_kind hres).1
    refine wp_seq (ilock_spec hs1.ok hmem fun hf => ?_) ?_
    · rw [hs1.graph, hkind] at hf
      exact absurd hf (by decide)
    rintro _ s2 ⟨hs2, hv2, -, hlock2⟩
    have hs02 := hs1.same (hs2.mono (List.nil_subset _)) (List.Subset.refl _)
    have hnum2 := (hs2.kept.slot dp hmem).1
    have hbad : wp (unlinkBad sb dp) (fun _ s' => ∃ g', Reaches sb hold [] s s' [] [] g' ∧
        Effect s.graph (unlinkEdit s me path) g') (Err T) s2 :=
      wp_post (unlinkBad_spec hs2.ok) fun _ _ hs => hsame (hs02.same hs (List.Subset.refl _))
    simp only [wp_ite]
    refine ⟨fun _ => hbad, fun hdots => ?_⟩
    refine wp_seq (dirlookup_spec hs2.ok hmem hv2 (by rw [hnum2, hs02.graph]; exact hkind)) ?_
    rintro r s3 (⟨-, rfl, rfl⟩ | ⟨k, ip, hfind, rfl, hs3, hnum3, hlock3⟩)
    · exact hbad
    have hmemi : 0 < hold ip ∨ ip ∈ [ip, dp] := .inr (by simp)
    have hs03 := hs02.same (hs3.mono (List.nil_subset _)) (List.Subset.refl _)
    rw [hs02.graph, hnum2] at hfind hnum3
    obtain ⟨hnz, hname⟩ := Node.find_some hfind
    refine wp_seq (ilock_spec hs3.ok hmemi fun hf => hT fun hno => ?_) ?_
    · rw [hs03.graph, hnum3] at hf
      exact hno.named _ hkind k hnz hf
    rintro _ s4 ⟨hs4, hv4, hfree4, -⟩
    have hne : ip ≠ dp := by
      rintro rfl
      rw [hlock3, hlock2] at hfree4
      exact absurd hfree4 (by decide)
    have hs04 := hs03.same (hs4.mono (List.nil_subset _)) (List.Subset.refl _)
    have hmemd : 0 < hold dp ∨ dp ∈ [ip, dp] := .inr (by simp)
    obtain ⟨hnumd, hvd⟩ := hs4.kept.slot dp hmemd
    obtain ⟨hnumd', hvd'⟩ := hs3.kept.slot dp hmem
    rw [hnumd', hnum2] at hnumd
    have hvd4 := hvd (hvd' hv2)
    have hnumi : (s4.inode ip).inum = _ := (hs4.kept.slot ip hmemi).1.trans hnum3
    obtain ⟨hki, hni, hti⟩ := hs4.ok.slot_node hmemi hv4
    rw [hs04.graph, hnumi] at hki hni
    -- The entry goes, whether it is that of an empty directory or of a file.
    have hgo : ∀ isDir : Bool, 1 ≤ (s4.inode ip).nlink →
        (isDir = true ↔ (s4.inode ip).type = .dir) →
        (isDir = true → ∀ j, 2 ≤ j → ((s4.graph (s4.inode ip).inum).ent j).inum = 0) →
        wp (unlinkEntry sb dp ip isDir (16 * k)) (fun _ s' => ∃ g',
          Reaches sb hold [] s s' [] [] g' ∧ Effect s.graph (unlinkEdit s me path) g')
          (Err T) s4 := by
      intro isDir hlinks hisDir hempty
      rw [hs04.graph, hnumi] at hempty
      refine wp_post (unlinkEntry_spec hs4.ok hne hvd4 hv4 hnumd hnumi
        (by rw [hs04.graph]; exact hkind) (by rw [hs04.graph, hki]; exact hisDir)) ?_
      rintro _ s5 ⟨g', hs5, hdrops⟩
      rw [hs04.graph] at hdrops
      refine ⟨g', hs04.trans hs5 (List.Subset.refl _), _, .inr ?_, hdrops⟩
      refine ⟨p, _, name, k, _, hp, hres, fun he => hdots (.inl he), fun he => hdots (.inr he),
        hfind, hkind, ⟨?_, hnz⟩, ?_, ⟨by rw [hki]; exact hti, by rw [hni]; exact hlinks⟩, ?_, rfl⟩
      · rw [← hname]
      · intro he
        refine hne (hs4.ok.cache.unique ip dp (hs4.ok.ref_pos hmemi) (hs4.ok.ref_pos hmemd) ?_)
        rw [hnumi, hnumd, he]
      · intro hd
        rw [hki] at hd
        exact hempty (hisDir.mpr hd)
    simp only [getInode, wp_bind, wp_get, wp_pure, wp_ite, wp_throw]
    refine ⟨fun _ => by simp [Err], fun hlinks => ⟨fun hdir => ?_, fun hnd => ?_⟩⟩
    · refine wp_post (isdirempty_spec hs4.ok hmemi hv4 (by rw [hs04.graph, hnumi, hki]; exact hdir))
        ?_
      rintro empty s5 ⟨rfl, hempty⟩
      refine ⟨fun he => hgo true (by omega) (by simp [hdir]) fun _ => hempty he, fun _ => ?_⟩
      refine wp_post (iunlockput_keep hs4.ok (List.Perm.refl _) (by simp)) ?_
      intro _ s6 hs6
      have hs06 := hs04.same (hs6.mono (List.nil_subset _)) (List.Subset.refl _)
      exact wp_post (unlinkBad_spec hs6.ok) fun _ _ hs => hsame (hs06.same hs (List.Subset.refl _))
    · exact hgo false (by omega) (by simp [hnd]) fun hf => absurd hf (by decide)

end OsProject
