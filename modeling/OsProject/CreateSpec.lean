import OsProject.LinkSpec

/-! What `create` does to the graph. -/

namespace OsProject

variable {sb : Superblock} {s s' : Fs} {hold : Slot → Nat} {held : List Slot}
  {doomed : List Nat} {ip dp : Slot} {T : Prop} {me : Fin NPROC}

def newNode (type : FileType) (n d : Nat) : Node :=
  if type = .dir then
    { kind := .dir
      nlink := 1
      cnt := 2
      ent := Function.update (Function.update (fun _ => {}) 0 { inum := n, name := dotName }) 1
        { inum := d, name := dotDotName } }
  else { kind := type, nlink := 1 }

def Graph.setNode (g : Graph) (n : Nat) (x : Node) : Graph := Function.update g n x

/-- A new inode `n` with entry `k` of directory `d` for it, and a link of `d` if its ".." is new. -/
structure CreateEdit (g : Graph) (type : FileType) (n d k : Nat) (name : Name) (g' : Graph) :
    Prop where
  type_ne : type ≠ .free
  node : (g n).kind = .free ∧ n ≠ 0
  dir : (g d).kind = .dir
  fresh : (g d).find name = none
  free : (g d).FirstFree k
  graph : g' = if type = .dir
    then ((g.setNode n (newNode type n d)).setEnt d k { inum := n, name := name }).setLinks d
      (short ((g d).nlink + 1))
    else (g.setNode n (newNode type n d)).setEnt d k { inum := n, name := name }

theorem Fs.graph_of_free {n : Nat} (h : (s.graph n).kind = .free) : s.graph n = {} := by
  rw [Fs.graph, graphOf_kind] at h
  rw [Fs.graph, graphOf_free h]

theorem Graph.setLinks_drop {g : Graph} {n : Nat} {v : Int} : (g.setLinks n v).drop n = g.drop n := by
  simp [Graph.setLinks, Graph.drop]

theorem Graph.setEnt_drop {g : Graph} {n k : Nat} {de : Dirent} :
    (g.setEnt n k de).drop n = g.drop n := by
  simp [Graph.setEnt, Graph.drop]

theorem createFail_spec {n : Nat} (h : FsOk sb s hold [ip, dp] [n]) (hne : ip ≠ dp)
    (hv : (s.inode ip).valid = true) (hnum : (s.inode ip).inum = n) (hhold : hold ip = 0) :
    wp (createFail sb dp ip) (fun r s' => r = none ∧
      Reaches sb hold [] s s' [] [] (s.graph.drop n)) (Err T) s := by
  have hmem : 0 < hold ip ∨ ip ∈ [ip, dp] := .inr (by simp)
  subst hnum
  rw [createFail]
  refine wp_setInfo h hmem hv (d := { (s.inode ip).toDinode with nlink := 0 }) rfl rfl rfl rfl rfl
    fun s1 hs1 => ?_
  simp only [wp_bind]
  obtain ⟨hnum1, hv1⟩ := hs1.kept.slot ip hmem
  have hok1 : FsOk sb s1 hold [ip, dp] [(s1.inode ip).inum] := hs1.ok.doom_mono (by simp [hnum1])
  refine wp_post (iunlockput_last hok1 (List.Perm.refl _) (by simpa using hne) (hv1 hv)) ?_
  intro _ s2 hs2
  rw [if_pos ⟨hhold, by rw [hs1.graph, hnum1, Graph.nlink_setLinks]⟩, hs1.graph, hnum1,
    Graph.setLinks_drop] at hs2
  refine wp_post (iunlockput_keep hs2.ok (List.Perm.refl _) (by simp)) ?_
  intro _ s3 hs3
  rw [hs2.graph] at hs3
  exact ⟨rfl, ((hs1.trans hs2 (by simp)).trans hs3 (by simp))⟩

theorem dot_fits {n : Nat} (hn : n < 2 ^ 16) : Dirent.Fits { inum := n, name := dotName } :=
  ⟨hn, Nat.le_of_ble_eq_true rfl, by simp [dotName]⟩

theorem dotDot_fits {n : Nat} (hn : n < 2 ^ 16) : Dirent.Fits { inum := n, name := dotDotName } :=
  ⟨hn, Nat.le_of_ble_eq_true rfl, by simp [dotDotName]⟩

theorem makeDots_spec {n d : Nat} (h : FsOk sb s hold [ip, dp] [n])
    (hv : (s.inode ip).valid = true) (hnum : (s.inode ip).inum = n)
    (hnode : s.graph n = { kind := .dir, nlink := 1 }) (hn : n < 2 ^ 16) (hn0 : n ≠ 0)
    (hd : d < 2 ^ 16) :
    wp (makeDots sb ip n d) (fun r s' =>
      (r = false ∧ ∃ g', Reaches sb hold [ip, dp] s s' [ip, dp] [n] g' ∧
        g'.drop n = s.graph.drop n) ∨
      (r = true ∧ Reaches sb hold [ip, dp] s s' [ip, dp] [n]
        (s.graph.setNode n (newNode .dir n d)))) (Err T) s := by
  have hmem : 0 < hold ip ∨ ip ∈ [ip, dp] := .inr (by simp)
  have hdoom : ∀ {s1 : Fs}, (s1.inode ip).inum = n → ∀ m ∈ [n], ∃ i ∈ [ip, dp],
      (s1.inode i).inum = m := fun hs m hm => ⟨ip, by simp, by simp_all⟩
  simp only [makeDots, wp_bind]
  refine wp_post (dirlink_spec h hmem hv (by rw [hnum, hnode]) (hdoom hnum) (dot_fits hn)) ?_
  rintro r s1 (⟨rfl, hs1⟩ | ⟨rfl, k, -, hfirst, hs1⟩)
  · rw [if_pos (by decide)]
    exact .inl ⟨rfl, _, hs1, rfl⟩
  have hk : k = 0 := by
    rw [hnum, hnode] at hfirst
    by_contra hk
    exact hfirst.2 0 (by omega) rfl
  subst hk
  rw [hnum] at hs1
  obtain ⟨hnum1, hv1⟩ := hs1.kept.slot ip hmem
  rw [hnum] at hnum1
  have hnode1 : s1.graph n =
      { kind := .dir
        nlink := 1
        cnt := 1
        ent := Function.update (fun _ => {}) 0 { inum := n, name := dotName } } := by
    rw [hs1.graph, Graph.setEnt, Function.update_self, hnode]
    rfl
  rw [if_neg (by decide)]
  refine wp_seq (dirlink_spec hs1.ok hmem (hv1 hv) (by rw [hnum1, hnode1]) (hdoom hnum1)
    (dotDot_fits hd)) ?_
  rintro r s2 (⟨rfl, hs2⟩ | ⟨rfl, k, -, hfirst', hs2⟩)
  · refine .inl ⟨by simp, _, hs1.trans hs2 (List.Subset.refl _), ?_⟩
    rw [hs1.graph, Graph.setEnt_drop]
  have hk : k = 1 := by
    rw [hnum1, hnode1] at hfirst'
    have h0 : k ≠ 0 := by
      rintro rfl
      exact hn0 hfirst'.1
    by_contra hk
    exact hfirst'.2 1 (by omega) rfl
  subst hk
  rw [hnum1] at hs2
  refine .inr ⟨by simp, ?_⟩
  have hgraph : s1.graph.setEnt n 1 { inum := d, name := dotDotName } =
      s.graph.setNode n (newNode .dir n d) := by
    rw [Graph.setEnt, hnode1, hs1.graph, Graph.setEnt, Function.update_idem, Graph.setNode]
    rfl
  rw [hgraph] at hs2
  exact hs1.trans hs2 (List.Subset.refl _)

theorem newNode_kind {type : FileType} (n d : Nat) : (newNode type n d).kind = type := by
  unfold newNode
  split_ifs with h
  · exact h.symm
  · rfl

theorem newNode_nlink {type : FileType} (n d : Nat) : (newNode type n d).nlink = 1 := by
  unfold newNode
  split_ifs <;> rfl

theorem CreateEdit.node_eq {g g' : Graph} {type : FileType} {n d k : Nat} {name : Name}
    (h : CreateEdit g type n d k name g') : n ≠ d ∧ g' n = newNode type n d := by
  have hne : n ≠ d := by
    rintro rfl
    have hf := h.node.1
    rw [h.dir] at hf
    exact absurd hf (by decide)
  have hset : (g.setNode n (newNode type n d)).setEnt d k { inum := n, name := name } n =
      newNode type n d := by
    rw [Graph.setEnt_of_ne hne, Graph.setNode, Function.update_self]
  refine ⟨hne, ?_⟩
  rw [h.graph]
  split_ifs
  · rw [Graph.setLinks_of_ne hne, hset]
  · exact hset

def Created (sb : Superblock) (hold : Slot → Nat) (type : FileType) (edit : Graph → Prop) (s : Fs)
    (r : Option Slot) (s' : Fs) : Prop :=
  (r = none ∧ Reaches sb hold [] s s' [] [] s.graph) ∨
  ∃ ip g', r = some ip ∧ Reaches sb hold [] s s' [ip] [] g' ∧ (s'.inode ip).valid = true ∧
    (type = .file → (s'.inode ip).type ≠ .dir) ∧ Effect s.graph edit g'

theorem createDone_spec {g g1 : Graph} {type : FileType} {n d k : Nat} {name : Name}
    (h : FsOk sb s hold [ip, dp] [d, n]) (hne : ip ≠ dp) (hvi : (s.inode ip).valid = true)
    (hvd : (s.inode dp).valid = true) (hnumi : (s.inode ip).inum = n)
    (hnumd : (s.inode dp).inum = d) (hedit : CreateEdit g type n d k name g1)
    (hg : s.graph = g1) :
    wp (iunlockput sb dp) (fun _ s' => ∃ g', Reaches sb hold [] s s' [ip] [] g' ∧
      (s'.inode ip).valid = true ∧ (s'.inode ip).type = type ∧ g1.Drops g') (Err T) s := by
  have hmem : 0 < hold ip ∨ ip ∈ [ip] := .inr (by simp)
  obtain ⟨hnd, hnode⟩ := hedit.node_eq
  have hkd : (s.graph d).kind ≠ .free := by
    obtain ⟨hk, -, hty⟩ := h.slot_node (.inr (by simp : dp ∈ [ip, dp])) hvd
    rw [← hnumd, hk]
    exact hty
  refine wp_post (iunlockput_last (hnumd ▸ h) (List.Perm.swap dp ip []) (by simpa using Ne.symm hne)
    hvd) ?_
  intro _ s1 hs1
  rw [hnumd] at hs1
  obtain ⟨hnum1, hv1⟩ := hs1.kept.slot ip hmem
  have hnode1 : s1.graph n = newNode type n d := by
    rw [hs1.graph, ← hnode, ← hg]
    split_ifs
    · exact Function.update_of_ne hnd _ _
    · rfl
  have hok : FsOk sb s1 hold [ip] [] := hs1.ok.undoom fun _ hz => by
    rw [hnode1, newNode_nlink] at hz
    exact absurd hz (by decide)
  refine ⟨_, ⟨hok, (hs1.mono (List.nil_subset _)).kept, rfl⟩, hv1 hvi, ?_, ?_⟩
  · rw [← (hok.slot_node hmem (hv1 hvi)).1, hnum1, hnumi, hnode1, newNode_kind]
  · rw [hs1.graph, ← hg]
    exact Graph.drops_ite _ hkd

theorem Graph.setNode_of_ne {g : Graph} {n m : Nat} (h : m ≠ n) (x : Node) :
    g.setNode n x m = g m := Function.update_of_ne h _ _

theorem Graph.setNode_drop {g : Graph} {n : Nat} {x : Node} (hn : g n = {}) :
    (g.setNode n x).drop n = g := by
  rw [Graph.setNode, Graph.drop, Function.update_idem, ← hn, Function.update_eq_self]

structure Ready (sb : Superblock) (hold : Slot → Nat) (dp ip : Slot) (n d : Nat) (g : Graph)
    (s : Fs) : Prop where
  ok : FsOk sb s hold [ip, dp] [n]
  ne : ip ≠ dp
  hold_zero : hold ip = 0
  valid : (s.inode ip).valid = true ∧ (s.inode dp).valid = true
  inum : (s.inode ip).inum = n ∧ (s.inode dp).inum = d
  node : g n = {} ∧ n ≠ 0 ∧ n < 2 ^ 16
  dir : (g d).kind = .dir

theorem Ready.ne_num {n d : Nat} {g : Graph} (h : Ready sb hold dp ip n d g s) : n ≠ d := by
  rintro rfl
  have hd := h.dir
  rw [h.node.1] at hd
  exact absurd hd (by decide)

theorem Ready.kept {n d : Nat} {g g' : Graph} (h : Ready sb hold dp ip n d g s)
    (hs : Reaches sb hold [ip, dp] s s' [ip, dp] [n] g') : Ready sb hold dp ip n d g s' := by
  obtain ⟨hi, hvi⟩ := hs.kept.slot ip (.inr (by simp))
  obtain ⟨hd, hvd⟩ := hs.kept.slot dp (.inr (by simp))
  exact ⟨hs.ok, h.ne, h.hold_zero, ⟨hvi h.valid.1, hvd h.valid.2⟩,
    ⟨hi.trans h.inum.1, hd.trans h.inum.2⟩, h.node, h.dir⟩

theorem Ready.fail {n d : Nat} {g : Graph} (h : Ready sb hold dp ip n d g s)
    (hg : s.graph.drop n = g) :
    wp (createFail sb dp ip) (fun r s' => r = none ∧ Reaches sb hold [] s s' [] [] g)
      (Err T) s := by
  have hfail := createFail_spec (T := T) h.ok h.ne h.valid.1 h.inum.1 h.hold_zero
  rwa [hg] at hfail

theorem createEntry_spec {type : FileType} {name : Name} {n d : Nat} {g : Graph}
    (h : Ready sb hold dp ip n d g s) (htype : type ≠ .free)
    (hfits : Dirent.Fits { inum := n, name := name })
    (hg : s.graph = g.setNode n (newNode type n d)) :
    wp (createEntry sb dp ip name n type) (fun r s' =>
      (r = none ∧ Reaches sb hold [] s s' [] [] g) ∨
      (r = some ip ∧ ∃ g1 g' k, Reaches sb hold [] s s' [ip] [] g' ∧
        (s'.inode ip).valid = true ∧ (s'.inode ip).type = type ∧
        CreateEdit g type n d k name g1 ∧ g1.Drops g')) (Err T) s := by
  have hmem : 0 < hold dp ∨ dp ∈ [ip, dp] := .inr (by simp)
  have hnd := h.ne_num
  have hd : s.graph d = g d := by rw [hg, Graph.setNode_of_ne (Ne.symm hnd)]
  simp only [createEntry, wp_bind]
  refine wp_post (dirlink_spec h.ok hmem h.valid.2 (by rw [h.inum.2, hd]; exact h.dir)
    (fun m hm => ⟨ip, by simp, by rw [h.inum.1, List.mem_singleton.mp hm]⟩) hfits) ?_
  rintro r s1 (⟨rfl, hs1⟩ | ⟨rfl, k, hfind, hfirst, hs1⟩)
  · rw [if_pos (by decide)]
    refine wp_post ((h.kept hs1).fail ?_) ?_
    · rw [hs1.graph, hg, Graph.setNode_drop h.node.1]
    · rintro r s2 ⟨rfl, hs2⟩
      exact .inl ⟨rfl, hs1.trans hs2 (by simp)⟩
  rw [h.inum.2, hd] at hfind hfirst
  rw [h.inum.2, hg] at hs1
  have h1 := h.kept hs1
  have hlink : (((g.setNode n (newNode type n d)).setEnt d k { inum := n, name := name }) d).nlink =
      (g d).nlink := by
    rw [Graph.setEnt, Function.update_self, Graph.setNode_of_ne (Ne.symm hnd)]
  rw [if_neg (by decide)]
  simp only [wp_bind, wp_ite, wp_pure]
  refine ⟨fun hdir => ?_, fun hfile => ?_⟩
  · refine wp_post (addNlink_spec 1 hs1.ok hmem h1.valid.2) ?_
    intro _ s2 hs2
    rw [h1.inum.2, hs1.graph, hlink] at hs2
    obtain ⟨hi2, hvi2⟩ := hs2.kept.slot ip (.inr (by simp))
    obtain ⟨hd2, hvd2⟩ := hs2.kept.slot dp hmem
    have hedit : CreateEdit g type n d k name s2.graph :=
      ⟨htype, ⟨by rw [h.node.1], h.node.2.1⟩, h.dir, hfind, hfirst, by
        rw [hs2.graph, if_pos hdir]⟩
    refine wp_post (createDone_spec hs2.ok h.ne (hvi2 h1.valid.1) (hvd2 h1.valid.2)
      (hi2.trans h1.inum.1) (hd2.trans h1.inum.2) hedit rfl) ?_
    rintro _ s3 ⟨g', hs3, hv3, ht3, hdrops⟩
    exact .inr ⟨trivial, _, g', k, (hs1.trans hs2 (List.Subset.refl _)).trans hs3 (by simp), hv3, ht3,
      hedit, hdrops⟩
  · have hedit : CreateEdit g type n d k name s1.graph :=
      ⟨htype, ⟨by rw [h.node.1], h.node.2.1⟩, h.dir, hfind, hfirst, by
        rw [hs1.graph, if_neg hfile]⟩
    refine wp_post (createDone_spec (hs1.ok.doom_mono (by simp)) h.ne h1.valid.1 h1.valid.2
      h1.inum.1 h1.inum.2 hedit rfl) ?_
    rintro _ s2 ⟨g', hs2, hv2, ht2, hdrops⟩
    exact .inr ⟨trivial, _, g', k, hs1.trans hs2 (by simp), hv2, ht2, hedit, hdrops⟩

theorem ready_of_new {type : FileType} {n d : Nat} {s1 s2 s3 : Fs} (h : FsOk sb s hold [dp] [])
    (hv : (s.inode dp).valid = true) (hnum : (s.inode dp).inum = d)
    (hdir : (s.graph d).kind = .dir) (hfree : (s.graph n).kind = .free) (hpos : 0 < n)
    (hlt : n < sb.ninodes) (hnumi : (s1.inode ip).inum = n)
    (hs1 : Reaches sb hold [dp] s s1 [ip, dp] [n] (Function.update s.graph n { kind := type }))
    (hs2 : Reaches sb hold [ip, dp] s1 s2 [ip, dp] [n] s1.graph)
    (hv2 : (s2.inode ip).valid = true)
    (hs3 : Reaches sb hold [ip, dp] s2 s3 [ip, dp] [(s2.inode ip).inum, n]
      (s2.graph.setLinks (s2.inode ip).inum 1)) :
    Ready sb hold dp ip n d s.graph s3 ∧
      s3.graph = s.graph.setNode n { kind := type, nlink := 1 } := by
  have hmem : 0 < hold dp ∨ dp ∈ [dp] := .inr (by simp)
  have hmemi : 0 < hold ip ∨ ip ∈ [ip, dp] := .inr (by simp)
  have hnode : s.graph n = {} := Fs.graph_of_free hfree
  have hn16 : n < 2 ^ 16 := by
    have hfits := h.vol.fits.2
    omega
  obtain ⟨hnumd1, hvd1⟩ := hs1.kept.slot dp hmem
  rw [hnum] at hnumd1
  have hnd : n ≠ d := by
    rintro rfl
    rw [hfree] at hdir
    exact absurd hdir (by decide)
  have hne : ip ≠ dp := by
    rintro rfl
    exact hnd (hnumi.symm.trans hnumd1)
  have hzero : hold ip = 0 := by
    by_contra hpos
    have hpos' : 0 < hold ip := by omega
    have hal := h.cache.alloc ip hpos'
    rw [← (hs1.kept.slot ip (.inl hpos')).1, hnumi] at hal
    rw [Fs.graph, graphOf_kind] at hfree
    exact hal hfree
  have hnumi2 : (s2.inode ip).inum = n := (hs2.kept.slot ip hmemi).1.trans hnumi
  have hs13 := hs2.trans hs3 (List.Subset.refl _)
  have hgraph3 : s3.graph = s.graph.setNode n { kind := type, nlink := 1 } := by
    rw [hs3.graph, hs2.graph, hs1.graph, hnumi2, Graph.setLinks, Function.update_self,
      Function.update_idem, Graph.setNode]
  obtain ⟨hi3, hvi3⟩ := hs3.kept.slot ip hmemi
  obtain ⟨hd3, hvd3⟩ := hs13.kept.slot dp (.inr (by simp))
  exact ⟨⟨hs3.ok.doom_mono (by simp [hnumi2]), hne, hzero, ⟨hvi3 hv2, hvd3 (hvd1 hv)⟩,
    ⟨hi3.trans hnumi2, hd3.trans hnumd1⟩, ⟨hnode, by omega, hn16⟩, hdir⟩, hgraph3⟩

theorem createNew_spec {type : FileType} {name : Name} {major minor : Int} {d : Nat}
    (h : FsOk sb s hold [dp] []) (hv : (s.inode dp).valid = true) (hnum : (s.inode dp).inum = d)
    (hdir : (s.graph d).kind = .dir) (htype : type ≠ .free)
    (hfits : ∀ n < 2 ^ 16, Dirent.Fits { inum := n, name := name }) :
    wp (createNew sb dp name type major minor) (fun r s' => Created sb hold type
      (fun g1 => ∃ n k, CreateEdit s.graph type n d k name g1) s r s') (Err T) s := by
  have hmem : 0 < hold dp ∨ dp ∈ [dp] := .inr (by simp)
  simp only [createNew, wp_bind]
  refine wp_post (ialloc_spec type htype h) ?_
  rintro r s1 (⟨rfl, rfl⟩ | ⟨ip, n, rfl, hfree, hpos, hlt, hnumi, hs1⟩)
  · simp only [wp_bind, wp_pure]
    refine wp_post (iunlockput_keep h (List.Perm.refl _) (by simp)) ?_
    exact fun _ s2 hs2 => .inl ⟨rfl, hs2⟩
  have hmemi : 0 < hold ip ∨ ip ∈ [ip, dp] := .inr (by simp)
  refine wp_seq (ilock_spec hs1.ok hmemi fun hf => ?_) ?_
  · rw [hs1.graph, hnumi, Function.update_self] at hf
    exact absurd hf htype
  rintro _ s2 ⟨hs2, hv2, -, -⟩
  refine wp_setInfo hs2.ok hmemi hv2 (d := { (s2.inode ip).toDinode with
    major := short major, minor := short minor, nlink := 1 }) rfl rfl rfl rfl rfl fun s3 hs3 => ?_
  have hs13 := hs2.trans hs3 (List.Subset.refl _)
  obtain ⟨hready, hgraph3⟩ := ready_of_new h hv hnum hdir hfree hpos hlt hnumi hs1 hs2 hv2 hs3
  have hnode : s.graph n = {} := hready.node.1
  have hn16 : n < 2 ^ 16 := hready.node.2.2
  have hs03 : Reaches sb hold [] s s3 [ip, dp] [n] s3.graph :=
    ⟨hready.ok, ((hs1.mono (List.nil_subset _)).trans (hs13.mono (List.nil_subset _))
      (List.Subset.refl _)).kept, rfl⟩
  -- The entry is made, from a state in which the new inode is complete.
  have hentry : ∀ s4, Reaches sb hold [ip, dp] s3 s4 [ip, dp] [n]
      (s.graph.setNode n (newNode type n d)) →
      wp (createEntry sb dp ip name n type) (fun r s' => Created sb hold type
        (fun g1 => ∃ n k, CreateEdit s.graph type n d k name g1) s r s') (Err T) s4 := by
    intro s4 hs4
    have hs04 := hs03.trans (hs4.mono (List.nil_subset _)) (List.Subset.refl _)
    refine wp_post (createEntry_spec (hready.kept hs4) htype (hfits n hn16) hs4.graph) ?_
    rintro r s5 (⟨rfl, hs5⟩ | ⟨rfl, g1, g', k, hs5, hv5, ht5, hedit, hdrops⟩)
    · exact .inl ⟨rfl, hs04.trans hs5 (List.Subset.refl _)⟩
    · refine .inr ⟨ip, g', rfl, hs04.trans hs5 (List.Subset.refl _), hv5, fun hf => ?_, g1,
        .inr ⟨n, k, hedit⟩, hdrops⟩
      rw [ht5, hf]
      decide
  have hself : (s3.inode ip).inum = n := hready.inum.1
  have hparent : (s3.inode dp).inum = d := hready.inum.2
  simp only [getInode, wp_bind, wp_get, wp_pure, hself, hparent]
  rw [wp_ite]
  refine ⟨fun hd => ?_, fun hf => ?_⟩
  · subst hd
    have hnode3 : s3.graph n = { kind := .dir, nlink := 1 } := by
      rw [hgraph3, Graph.setNode, Function.update_self]
    have hd16 : d < 2 ^ 16 := by
      rw [Fs.graph, graphOf_kind] at hdir
      have hlt' := (h.vol.inums d (by rw [hdir]; decide)).2
      have hfits := h.vol.fits.2
      omega
    refine wp_seq (makeDots_spec hready.ok hready.valid.1 hself hnode3 hn16 (by omega) hd16) ?_
    rintro r s4 (⟨rfl, g', hs4, hdrop⟩ | ⟨rfl, hs4⟩)
    · rw [if_neg (by decide)]
      refine wp_post ((hready.kept hs4).fail ?_) ?_
      · rw [hs4.graph, hdrop, hgraph3, Graph.setNode_drop hnode]
      · rintro r s5 ⟨rfl, hs5⟩
        exact .inl ⟨rfl, (hs03.trans (hs4.mono (List.nil_subset _)) (List.Subset.refl _)).trans hs5
          (List.Subset.refl _)⟩
    · rw [if_pos rfl]
      refine hentry s4 ?_
      have hset : s3.graph.setNode n (newNode .dir n d) =
          s.graph.setNode n (newNode .dir n d) := by
        rw [hgraph3, Graph.setNode, Graph.setNode, Function.update_idem, Graph.setNode]
      rwa [hset] at hs4
  · have hnew : newNode type n d = { kind := type, nlink := 1 } := if_neg hf
    rw [wp_bind, wp_pure, if_pos rfl]
    refine hentry s3 ?_
    rw [hnew, ← hgraph3]
    exact .refl hready.ok

def createEdit (s : Fs) (me : Fin NPROC) (path : List UInt8) (type : FileType) (g : Graph) : Prop :=
  ∃ d name n k, resolveParent s me path = some (d, name) ∧ CreateEdit s.graph type n d k name g

theorem create_spec {type : FileType} {major minor : Int} {p : Option (List UInt8)}
    {path : List UInt8} (hp : argstr p = some path) (htype : type ≠ .free)
    (h : FsOk sb s hold [] []) (hT : ¬ NoDangling s.graph → T)
    (hcwd : ∀ c, (s.kernel.proc me).cwd = some c → 0 < hold c) :
    wp (create sb me path type major minor)
      (fun r s' => Created sb hold type (createEdit s me path type) s r s') (Err T) s := by
  rw [create]
  refine wp_seq (nameiparent_spec h (by simp) hT hcwd) ?_
  rintro r s1 (⟨rfl, hs1⟩ | ⟨dp, name, rfl, hs1, hres⟩)
  · exact .inl ⟨rfl, hs1⟩
  have hmem : 0 < hold dp ∨ dp ∈ [dp] := .inr (by simp)
  have hkind : (s.graph (s1.inode dp).inum).kind = .dir := (Graph.walkParent_kind hres).1
  refine wp_seq (ilock_spec hs1.ok hmem fun hf => ?_) ?_
  · rw [hs1.graph, hkind] at hf
    exact absurd hf (by decide)
  rintro _ s2 ⟨hs2, hv2, -, -⟩
  have hs02 := hs1.same (hs2.mono (List.nil_subset _)) (List.Subset.refl _)
  have hnum2 := (hs2.kept.slot dp hmem).1
  refine wp_seq (dirlookup_spec hs2.ok hmem hv2 (by rw [hnum2, hs02.graph]; exact hkind)) ?_
  rintro r s3 (⟨-, rfl, rfl⟩ | ⟨k, ip, hfind, rfl, hs3, hnum3, -⟩)
  · refine wp_post (createNew_spec hs2.ok hv2 hnum2 (by rw [hs02.graph]; exact hkind) htype
      fun n hn => fits_of_resolveParent hp hres hn) ?_
    rw [hs02.graph]
    rintro r s4 (⟨rfl, hs4⟩ | ⟨ip, g', rfl, hs4, hv4, ht4, heffect⟩)
    · exact .inl ⟨rfl, hs02.same hs4 (List.Subset.refl _)⟩
    · rw [hs02.graph] at heffect
      obtain ⟨g1, hg1, hdrops⟩ := heffect
      refine .inr ⟨ip, g', rfl, hs02.trans hs4 (List.Subset.refl _), hv4, ht4, g1,
        hg1.imp_right ?_, hdrops⟩
      rintro ⟨n, k, hedit⟩
      exact ⟨_, name, n, k, hres, hedit⟩
  · have hmemi : 0 < hold ip ∨ ip ∈ [ip] := .inr (by simp)
    have hs03 := hs02.same (hs3.mono (List.nil_subset _)) (List.Subset.refl _)
    rw [hs02.graph, hnum2] at hfind hnum3
    refine wp_seq (iunlockput_keep hs3.ok (List.Perm.swap dp ip []) (by simp)) ?_
    intro _ s4 hs4
    have hs04 := hs03.same (hs4.mono (List.nil_subset _)) (List.Subset.refl _)
    have hnum4 := (hs4.kept.slot ip hmemi).1.trans hnum3
    refine wp_seq (ilock_spec hs4.ok hmemi fun hf => hT fun hno => ?_) ?_
    · rw [hs04.graph, hnum4] at hf
      exact hno.named _ hkind k (Node.find_some hfind).1 hf
    rintro _ s5 ⟨hs5, hv5, -, -⟩
    have hs05 := hs04.same (hs5.mono (List.nil_subset _)) (List.Subset.refl _)
    simp only [getInode, wp_bind, wp_get, wp_pure, wp_ite]
    refine ⟨fun hc => ?_, fun _ => ?_⟩
    · refine .inr ⟨ip, _, rfl, hs05, hv5, fun _ hd => ?_, .none .refl⟩
      rw [hd] at hc
      exact absurd hc.2 (by decide)
    · refine wp_post (iunlockput_keep hs5.ok (List.Perm.refl _) (by simp)) ?_
      exact fun _ s6 hs6 => .inl ⟨rfl, hs05.same hs6 (List.Subset.refl _)⟩

theorem sysCreate_spec {type : FileType} {major minor : Int} (path : Option (List UInt8))
    (htype : type ≠ .free) (h : FsOk sb s hold [] []) (hT : ¬ NoDangling s.graph → T)
    (hcwd : ∀ c, (s.kernel.proc me).cwd = some c → 0 < hold c) :
    wp (sysCreate sb me path type major minor) (fun _ s' => ∃ g', Reaches sb hold [] s s' [] [] g' ∧
      Effect s.graph (fun g => ∃ p, argstr path = some p ∧ createEdit s me p type g) g')
      (Err T) s := by
  cases hp : argstr path with
  | none =>
    simp only [sysCreate, beginOp_fs, endOp_fs, hp, wp_bind, wp_pure, wp_modify]
    exact ⟨_, (Reaches.refl h).logged [], .none .refl⟩
  | some p =>
    simp only [sysCreate, liftM_fs, beginOp_fs, endOp_fs, hp, wp_bind, wp_pure]
    refine wp_post (create_spec hp htype h hT hcwd) ?_
    rintro r s1 (⟨rfl, hs1⟩ | ⟨ip, g', rfl, hs1, -, -, g1, hg1, hdrops⟩)
    · simp only [wp_bind, wp_modify, wp_pure]
      exact ⟨_, hs1.logged [], .none .refl⟩
    · simp only [wp_bind, wp_modify, wp_pure]
      refine wp_post (iunlockput_keep hs1.ok (List.Perm.refl _) (by simp)) ?_
      intro _ s2 hs2
      rw [hs1.graph] at hs2
      exact ⟨g', (hs1.trans hs2 (List.Subset.refl _)).logged [], g1,
        hg1.imp_right fun hedit => ⟨p, rfl, hedit⟩, hdrops⟩

end OsProject
