import OsProject.CreateSpec
import OsProject.Hierarchy

/-! The directories as a hierarchy, and how the edits of the system calls change the entries that
are counted as links. -/

namespace OsProject

variable {g g' : Graph} {lost : Nat → ℕ∞} {d k i n : Nat} {name : Name}

def Graph.dirs (g : Graph) : Hierarchy Nat where
  dir d := (g d).kind = .dir
  ent d k i := ((g d).ent k).inum = i ∧ i ≠ 0

abbrev Graph.Linked (g : Graph) (d : Nat) : Prop := g.dirs.Linked ROOTINO d

abbrev Graph.counted (g : Graph) (i : Nat) : Set (Nat × Nat) := g.dirs.counted ROOTINO i

def unsigned (v : Int) : Nat := (v % 2 ^ 16).toNat

theorem unsigned_short (v : Int) : unsigned (short v) = unsigned v := by
  have hmod : v.bmod (2 ^ 16) % ((2 ^ 16 : Nat) : Int) = v % ((2 ^ 16 : Nat) : Int) :=
    Int.bmod_emod
  exact congrArg Int.toNat hmod

theorem unsigned_succ {v : Int} (h : unsigned v ≠ 2 ^ 16 - 1) :
    unsigned (short (v + 1)) = unsigned v + 1 := by
  rw [unsigned_short]
  unfold unsigned at *
  omega

theorem unsigned_pred {v : Int} (h : unsigned v ≠ 0) :
    unsigned (short (v - 1)) + 1 = unsigned v := by
  rw [unsigned_short]
  unfold unsigned at *
  omega

def DirOk (d : Nat) (x : Node) : Prop :=
  x.kind = .dir → d ≠ 0 ∧ 2 ≤ x.cnt ∧ x.ent 0 = { inum := d, name := dotName } ∧
    (x.ent 1).inum ≠ 0 ∧ (x.ent 1).name = dotDotName ∧
    ∀ k, 2 ≤ k → (x.ent k).inum ≠ 0 → (x.ent k).name ≠ dotName

def Links (g : Graph) (lost : Nat → ℕ∞) : Prop :=
  ∀ i, i ≠ 0 → (g.counted i).encard + lost i = unsigned (g i).nlink

structure NameTree (g : Graph) (lost : Nat → ℕ∞) : Prop where
  dots : ∀ d, DirOk d (g d)
  forest : g.dirs.Forest ROOTINO
  links : Links g lost
  free : ∀ n, (g n).kind = .free → (g n).nlink = 0

section Nodes

theorem Graph.setEnt_ent (g : Graph) (d k x j : Nat) (de : Dirent) :
    (g.setEnt d k de x).ent j = if x = d ∧ j = k then de else (g x).ent j := by
  by_cases hx : x = d
  · subst hx
    by_cases hj : j = k <;> simp [Graph.setEnt, hj]
  · simp [Graph.setEnt, hx]

@[simp] theorem Graph.setEnt_nlink (g : Graph) (d k x : Nat) (de : Dirent) :
    (g.setEnt d k de x).nlink = (g x).nlink := by
  by_cases hx : x = d <;> simp [Graph.setEnt, hx]

theorem Graph.setLinks_nlink (g : Graph) (n x : Nat) (v : Int) :
    (g.setLinks n v x).nlink = if x = n then v else (g x).nlink := by
  by_cases hx : x = n <;> simp [Graph.setLinks, hx]

theorem dots_setLinks (h : ∀ x, DirOk x (g x)) (n : Nat) (v : Int) (x : Nat) :
    DirOk x (g.setLinks n v x) := by
  by_cases hx : x = n
  · subst hx
    simpa [Graph.setLinks, DirOk] using h x
  · rw [Graph.setLinks_of_ne hx]
    exact h x

theorem dots_setEnt (h : ∀ x, DirOk x (g x)) (hk : 2 ≤ k) {de : Dirent}
    (hde : de.inum ≠ 0 → de.name ≠ dotName) (x : Nat) : DirOk x (g.setEnt d k de x) := by
  intro hkind
  rw [Graph.setEnt_kind] at hkind
  obtain ⟨hx, hcnt, h0, h1, h1', hrest⟩ := h x hkind
  have hlow : ∀ j, j < 2 → (g.setEnt d k de x).ent j = (g x).ent j := fun j hj => by
    rw [Graph.setEnt_ent, if_neg fun hc => by omega]
  refine ⟨hx, ?_, by rw [hlow 0 (by decide), h0], by rw [hlow 1 (by decide)]; exact h1,
    by rw [hlow 1 (by decide)]; exact h1', fun j hj => ?_⟩
  · by_cases hxd : x = d
    · subst hxd
      simp only [Graph.setEnt, Function.update_self]
      omega
    · rwa [Graph.setEnt_of_ne hxd]
  · rw [Graph.setEnt_ent]
    split_ifs
    · exact hde
    · exact hrest j hj

theorem dots_setNode (h : ∀ x, DirOk x (g x)) {type : FileType} (hn : n ≠ 0) (hd : d ≠ 0) (x : Nat) :
    DirOk x (g.setNode n (newNode type n d) x) := by
  by_cases hx : x = n
  · subst hx
    rw [Graph.setNode, Function.update_self]
    intro hkind
    rw [newNode_kind] at hkind
    subst hkind
    refine ⟨hn, by simp [newNode], by simp [newNode], by simpa [newNode] using hd, by simp [newNode],
      fun j hj hne => ?_⟩
    have hj0 : j ≠ 0 := by omega
    have hj1 : j ≠ 1 := by omega
    simp [newNode, hj0, hj1] at hne
  · rw [Graph.setNode_of_ne hx]
    exact h x

end Nodes

section Counts

theorem links_succ {c l : ℕ∞} {v : Int} (h : c + l = unsigned v) (hv : unsigned v ≠ 2 ^ 16 - 1) :
    c + 1 + l = unsigned (short (v + 1)) := by
  rw [unsigned_succ hv, Nat.cast_add, Nat.cast_one, ← h, add_right_comm]

theorem links_pred {c l : ℕ∞} {v : Int} (h : c + 1 + l = unsigned v) :
    c + l = unsigned (short (v - 1)) := by
  have hv : unsigned v ≠ 0 := by
    intro hz
    rw [hz, Nat.cast_zero] at h
    simp at h
  rw [← unsigned_pred hv, Nat.cast_add, Nat.cast_one, add_right_comm] at h
  exact ENat.add_left_injective_of_ne_top ENat.one_ne_top h

section Insert

variable {A B : Set (Nat × Nat)} {x : Nat × Nat} {l : ℕ∞} {v : Int}

theorem links_insert (hB : B = insert x A ∧ x ∉ A) (h : A.encard + l = unsigned v)
    (hv : unsigned v ≠ 2 ^ 16 - 1) : B.encard + l = unsigned (short (v + 1)) := by
  rw [hB.1, Set.encard_insert_of_notMem hB.2]
  exact links_succ h hv

theorem links_remove (hB : B = insert x A ∧ x ∉ A) (h : B.encard + l = unsigned v) :
    A.encard + l = unsigned (short (v - 1)) := by
  rw [hB.1, Set.encard_insert_of_notMem hB.2] at h
  exact links_pred h

end Insert

theorem Links.adds (h : Links g lost) (ha : Hierarchy.Adds g.dirs d k i g'.dirs)
    (hi : (g' i).nlink = short ((g i).nlink + 1)) (hothers : ∀ j, j ≠ i → (g' j).nlink = (g j).nlink)
    (hmax : unsigned (g i).nlink ≠ 2 ^ 16 - 1) : Links g' lost := by
  intro j hj
  by_cases hji : j = i
  · subst hji
    rw [hi]
    exact links_insert ha.counted (h j hj) hmax
  · rw [Graph.counted, ha.counted_of_ne hji, hothers j hji]
    exact h j hj

theorem Links.adds_before (h : Links g lost) (ha : Hierarchy.Adds g'.dirs d k i g.dirs)
    (hi : (g' i).nlink = short ((g i).nlink - 1))
    (hothers : ∀ j, j ≠ i → (g' j).nlink = (g j).nlink) : Links g' lost := by
  intro j hj
  by_cases hji : j = i
  · subst hji
    rw [hi]
    exact links_remove ha.counted (h j hj)
  · rw [Graph.counted, ← ha.counted_of_ne hji, hothers j hji]
    exact h j hj

theorem Links.grows (h : Links g lost) (hg : Hierarchy.Grows g.dirs ROOTINO d k n g'.dirs)
    (hd : g.Linked d) (hn : (g' n).nlink = short ((g n).nlink + 1))
    (hd' : (g' d).nlink = short ((g d).nlink + 1))
    (hothers : ∀ j, j ≠ n → j ≠ d → (g' j).nlink = (g j).nlink)
    (hmaxn : unsigned (g n).nlink ≠ 2 ^ 16 - 1) (hmaxd : unsigned (g d).nlink ≠ 2 ^ 16 - 1) :
    Links g' lost := by
  intro j hj
  by_cases hjn : j = n
  · subst hjn
    rw [hn]
    exact links_insert (hg.counted_new hd) (h j hj) hmaxn
  · by_cases hjd : j = d
    · subst hjd
      rw [hd']
      exact links_insert (hg.counted_above hd) (h j hj) hmaxd
    · rw [Graph.counted, hg.counted_of_ne hd hjn hjd, hothers j hjn hjd]
      exact h j hj

theorem Links.grows_before (h : Links g lost) (hg : Hierarchy.Grows g'.dirs ROOTINO d k n g.dirs)
    (hd : g'.Linked d) (hn : (g' n).nlink = short ((g n).nlink - 1))
    (hd' : (g' d).nlink = short ((g d).nlink - 1))
    (hothers : ∀ j, j ≠ n → j ≠ d → (g' j).nlink = (g j).nlink) : Links g' lost := by
  intro j hj
  by_cases hjn : j = n
  · subst hjn
    rw [hn]
    exact links_remove (hg.counted_new hd) (h j hj)
  · by_cases hjd : j = d
    · subst hjd
      rw [hd']
      exact links_remove (hg.counted_above hd) (h j hj)
    · rw [Graph.counted, ← hg.counted_of_ne hd hjn hjd, hothers j hjn hjd]
      exact h j hj

theorem Links.counted_empty (h : Links g lost) (hi : i ≠ 0) (hz : (g i).nlink = 0) :
    g.counted i = ∅ ∧ lost i = 0 := by
  have hlinks := h i hi
  rw [hz] at hlinks
  have hsum : (g.counted i).encard + lost i = 0 := hlinks
  rw [add_eq_zero, Set.encard_eq_zero] at hsum
  exact hsum

end Counts

section Edits

theorem NameTree.firstFree (h : NameTree g lost) (hd : (g d).kind = .dir)
    (hk : (g d).FirstFree k) : 2 ≤ k := by
  obtain ⟨hd0, -, h0, h1, -, -⟩ := h.dots d hd
  by_contra hlt
  have hcases : k = 0 ∨ k = 1 := by omega
  rcases hcases with rfl | rfl
  · have hz := hk.1
    rw [h0] at hz
    exact hd0 hz
  · exact h1 hk.1

theorem NameTree.fresh_ne_dot (h : NameTree g lost) (hd : (g d).kind = .dir)
    (hfresh : (g d).find name = none) : name ≠ dotName := by
  obtain ⟨hd0, hcnt, h0, -⟩ := h.dots d hd
  rintro rfl
  exact Node.find_none hfresh (k := 0) (by omega) (by rwa [h0]) (by rw [h0])

theorem NameTree.member (h : NameTree g lost) (hd : (g d).kind = .dir)
    (he : (g d).ent k = { inum := i, name := name }) (hdot : name ≠ dotName)
    (hdotdot : name ≠ dotDotName) : 2 ≤ k := by
  obtain ⟨-, -, h0, -, h1, -⟩ := h.dots d hd
  by_contra hlt
  have hcases : k = 0 ∨ k = 1 := by omega
  rcases hcases with rfl | rfl
  · rw [h0] at he
    exact hdot (congrArg Dirent.name he).symm
  · rw [he] at h1
    exact hdotdot h1

theorem ent_iff {x j v : Nat}
    (hent : ((g' x).ent j).inum = if x = d ∧ j = k then i else ((g x).ent j).inum)
    (hzero : ((g d).ent k).inum = 0) (hi0 : i ≠ 0) :
    g'.dirs.ent x j v ↔ g.dirs.ent x j v ∨ x = d ∧ j = k ∧ v = i := by
  simp only [Graph.dirs]
  rw [hent]
  by_cases hc : x = d ∧ j = k
  · obtain ⟨rfl, rfl⟩ := hc
    rw [if_pos ⟨rfl, rfl⟩, hzero]
    constructor
    · rintro ⟨rfl, -⟩
      exact .inr ⟨rfl, rfl, rfl⟩
    · rintro (⟨rfl, hne⟩ | ⟨-, -, rfl⟩)
      · exact absurd rfl hne
      · exact ⟨rfl, hi0⟩
  · rw [if_neg hc, or_iff_left fun he => hc ⟨he.1, he.2.1⟩]

theorem not_ent {x j v : Nat} (hzero : ((g x).ent j).inum = 0) : ¬ g.dirs.ent x j v := fun hv =>
  hv.2 (hv.1.symm.trans hzero)

theorem adds_of_ent (hkind : ∀ x, (g' x).kind = .dir ↔ (g x).kind = .dir)
    (hent : ∀ x j, (g x).kind = .dir →
      ((g' x).ent j).inum = if x = d ∧ j = k then i else ((g x).ent j).inum)
    (hzero : ((g d).ent k).inum = 0) (hk : 2 ≤ k) (hd : (g d).kind = .dir)
    (hi : (g i).kind ≠ .dir) (hi0 : i ≠ 0) : Hierarchy.Adds g.dirs d k i g'.dirs where
  dirs := hkind
  ents x j _ hx := ent_iff (hent x j hx) hzero hi0
  free _ := not_ent hzero
  member := hk
  above := hd
  below := hi

theorem grows_of_ent (hkind : ∀ x, x ≠ n → ((g' x).kind = .dir ↔ (g x).kind = .dir))
    (hent : ∀ x j, x ≠ n → (g x).kind = .dir →
      ((g' x).ent j).inum = if x = d ∧ j = k then n else ((g x).ent j).inum)
    (hzero : ((g d).ent k).inum = 0) (hk : 2 ≤ k) (hd : (g d).kind = .dir) (hd0 : d ≠ 0)
    (hne : n ≠ d ∧ n ≠ ROOTINO) (hn0 : n ≠ 0)
    (hnew : (g' n).kind = .dir ∧ ((g' n).ent 1).inum = d)
    (hempty' : ∀ j, 2 ≤ j → ((g' n).ent j).inum = 0)
    (hempty : (g n).kind = .dir → ∀ j, 2 ≤ j → ((g n).ent j).inum = 0)
    (hunnamed : ∀ x j, (g x).kind = .dir → 2 ≤ j → ((g x).ent j).inum ≠ n) :
    Hierarchy.Grows g.dirs ROOTINO d k n g'.dirs where
  dirs := hkind
  ents x j _ hxn hx := ent_iff (hent x j hxn hx) hzero hn0
  free _ := not_ent hzero
  member := hk
  above := hd
  ne := hne
  new := by
    refine ⟨hnew.1, fun p => ?_⟩
    simp only [Graph.dirs, hnew.2]
    exact ⟨fun h => h.1.symm, fun h => ⟨h.symm, h ▸ hd0⟩⟩
  empty' j _ hj := not_ent (hempty' j hj)
  empty hn j _ hj := not_ent (hempty hn j hj)
  unnamed x j hx hj he := hunnamed x j hx hj he.1

theorem LinkEdit.kind_eq (he : LinkEdit g i d name k g') (x : Nat) :
    (g' x).kind = (g x).kind := by
  rw [he.graph, Graph.setEnt_kind, Graph.setLinks_kind]

theorem LinkEdit.nlink_eq (he : LinkEdit g i d name k g') (x : Nat) :
    (g' x).nlink = if x = i then short ((g i).nlink + 1) else (g x).nlink := by
  rw [he.graph, Graph.setEnt_nlink, Graph.setLinks_nlink]

theorem NameTree.link_adds (h : NameTree g lost) (he : LinkEdit g i d name k g') (hi0 : i ≠ 0) :
    Hierarchy.Adds g.dirs d k i g'.dirs := by
  refine adds_of_ent (fun x => by rw [he.kind_eq]) (fun x j _ => ?_) he.free.1
    (h.firstFree he.dir he.free) he.dir he.node.2 hi0
  rw [he.graph, Graph.setEnt_ent, Graph.ent_setLinks]
  split_ifs <;> rfl

theorem NameTree.link (h : NameTree g lost) (he : LinkEdit g i d name k g')
    (hmax : unsigned (g i).nlink ≠ 2 ^ 16 - 1) (hi0 : i ≠ 0) : NameTree g' lost := by
  have hadds := h.link_adds he hi0
  refine ⟨?_, hadds.forest_iff.mpr h.forest, h.links.adds hadds (by rw [he.nlink_eq, if_pos rfl])
    (fun j hj => by rw [he.nlink_eq, if_neg hj]) hmax, fun n hn => ?_⟩
  · rw [he.graph]
    exact dots_setEnt (dots_setLinks h.dots i _) (h.firstFree he.dir he.free) fun _ =>
      h.fresh_ne_dot he.dir he.fresh
  · rw [he.kind_eq] at hn
    have hne : n ≠ i := by
      rintro rfl
      exact he.node.1 hn
    rw [he.nlink_eq, if_neg hne]
    exact h.free n hn

theorem CreateEdit.kind_eq {type : FileType} (he : CreateEdit g type n d k name g') (x : Nat) :
    (g' x).kind = if x = n then type else (g x).kind := by
  have hset : ((g.setNode n (newNode type n d)) x).kind = if x = n then type else (g x).kind := by
    by_cases hx : x = n
    · rw [hx, Graph.setNode, Function.update_self, newNode_kind, if_pos rfl]
    · rw [Graph.setNode_of_ne hx, if_neg hx]
  rw [← hset, he.graph]
  by_cases ht : type = .dir
  · rw [if_pos ht, Graph.setLinks_kind, Graph.setEnt_kind]
  · rw [if_neg ht, Graph.setEnt_kind]

theorem CreateEdit.ent_eq {type : FileType} (he : CreateEdit g type n d k name g') (x j : Nat)
    (hx : x ≠ n) :
    (g' x).ent j = if x = d ∧ j = k then { inum := n, name := name } else (g x).ent j := by
  have hset : (g.setNode n (newNode type n d)) x = g x := Graph.setNode_of_ne hx _
  rw [← hset, ← Graph.setEnt_ent, he.graph]
  by_cases ht : type = .dir
  · rw [if_pos ht, Graph.ent_setLinks]
  · rw [if_neg ht]

theorem CreateEdit.nlink_eq {type : FileType} (he : CreateEdit g type n d k name g') (x : Nat) :
    (g' x).nlink = if x = n then 1
      else if x = d ∧ type = .dir then short ((g d).nlink + 1) else (g x).nlink := by
  have hne := he.node_eq.1
  by_cases hx : x = n
  · rw [hx, he.node_eq.2, newNode_nlink, if_pos rfl]
  · have hset : (g.setNode n (newNode type n d)) x = g x := Graph.setNode_of_ne hx _
    rw [if_neg hx, he.graph]
    by_cases ht : type = .dir
    · simp only [ht, if_true, and_true, Graph.setLinks_nlink, Graph.setEnt_nlink]
      rw [ht] at hset
      rw [hset]
    · simp only [ht, if_false, and_false, Graph.setEnt_nlink, hset]

theorem NameTree.free_unsigned (h : NameTree g lost) (hn : (g n).kind = .free) :
    unsigned (g n).nlink ≠ 2 ^ 16 - 1 := by
  rw [h.free n hn]
  decide

theorem NameTree.dots_create {type : FileType} (h : NameTree g lost)
    (he : CreateEdit g type n d k name g') (x : Nat) : DirOk x (g' x) := by
  have hk := h.firstFree he.dir he.free
  have hset : ∀ y, DirOk y ((g.setNode n (newNode type n d)).setEnt d k
      { inum := n, name := name } y) :=
    dots_setEnt (dots_setNode h.dots he.node.2 (h.dots d he.dir).1) hk fun _ =>
      h.fresh_ne_dot he.dir he.fresh
  rw [he.graph]
  split_ifs
  · exact dots_setLinks hset d _ x
  · exact hset x

theorem NameTree.free_create {type : FileType} (h : NameTree g lost)
    (he : CreateEdit g type n d k name g') (x : Nat) (hx : (g' x).kind = .free) :
    (g' x).nlink = 0 := by
  have hxn : x ≠ n := by
    rintro rfl
    rw [he.kind_eq, if_pos rfl] at hx
    exact he.type_ne hx
  rw [he.kind_eq, if_neg hxn] at hx
  have hxd : x ≠ d := by
    rintro rfl
    rw [he.dir] at hx
    exact absurd hx (by decide)
  rw [he.nlink_eq, if_neg hxn, if_neg fun hc => hxd hc.1]
  exact h.free x hx

theorem NameTree.create_adds {type : FileType} (h : NameTree g lost)
    (he : CreateEdit g type n d k name g') (htype : type ≠ .dir) :
    Hierarchy.Adds g.dirs d k n g'.dirs := by
  have hn : (g n).kind ≠ .dir := by
    rw [he.node.1]
    decide
  refine adds_of_ent (fun x => ?_) (fun x j hx => ?_) he.free.1 (h.firstFree he.dir he.free) he.dir
    hn he.node.2
  · rw [he.kind_eq]
    by_cases hx : x = n
    · rw [if_pos hx, hx]
      exact iff_of_false htype hn
    · rw [if_neg hx]
  · have hxn : x ≠ n := by
      rintro rfl
      exact hn hx
    rw [he.ent_eq x j hxn]
    split_ifs <;> rfl

theorem NameTree.create {type : FileType} (h : NameTree g lost)
    (he : CreateEdit g type n d k name g') (htype : type ≠ .dir) : NameTree g' lost := by
  have hadds := h.create_adds he htype
  refine ⟨h.dots_create he, hadds.forest_iff.mpr h.forest, h.links.adds hadds ?_ (fun j hj => ?_)
    (h.free_unsigned he.node.1), h.free_create he⟩
  · rw [he.nlink_eq, if_pos rfl, h.free n he.node.1]
    decide
  · rw [he.nlink_eq, if_neg hj, if_neg fun hc => htype hc.2]

theorem NameTree.unnamed (h : NameTree g lost) (hn : (g n).kind = .free) (hn0 : n ≠ 0) {x j : Nat}
    (hx : (g x).kind = .dir) (hj : 2 ≤ j) : ((g x).ent j).inum ≠ n := by
  intro he
  have hmem : (x, j) ∈ g.counted n := ⟨hx, ⟨he, hn0⟩, .inl hj⟩
  rw [(h.links.counted_empty hn0 (h.free n hn)).1] at hmem
  exact hmem

theorem NameTree.mkdir_grows (h : NameTree g lost) (he : CreateEdit g .dir n d k name g') :
    Hierarchy.Grows g.dirs ROOTINO d k n g'.dirs := by
  have hn : (g n).kind ≠ .dir := by
    rw [he.node.1]
    decide
  have hroot : n ≠ ROOTINO := by
    rintro rfl
    exact hn h.forest.root.1
  refine grows_of_ent (fun x hx => by rw [he.kind_eq, if_neg hx]) (fun x j hx _ => ?_) he.free.1
    (h.firstFree he.dir he.free) he.dir (h.dots d he.dir).1 ⟨he.node_eq.1, hroot⟩ he.node.2 ?_
    (fun j hj => ?_) (fun hd => absurd hd hn) fun x j => h.unnamed he.node.1 he.node.2
  · rw [he.ent_eq x j hx]
    split_ifs <;> rfl
  · rw [he.node_eq.2]
    exact ⟨newNode_kind n d, by simp [newNode]⟩
  · have hj0 : j ≠ 0 := by omega
    have hj1 : j ≠ 1 := by omega
    rw [he.node_eq.2]
    simp [newNode, hj0, hj1]

theorem NameTree.mkdir (h : NameTree g lost) (he : CreateEdit g .dir n d k name g')
    (hd : g.Linked d) (hmax : unsigned (g d).nlink ≠ 2 ^ 16 - 1) : NameTree g' lost := by
  have hgrows := h.mkdir_grows he
  refine ⟨h.dots_create he, hgrows.forest h.forest hd, h.links.grows hgrows hd ?_ ?_
    (fun j hjn hjd => ?_) (h.free_unsigned he.node.1) hmax, h.free_create he⟩
  · rw [he.nlink_eq, if_pos rfl, h.free n he.node.1]
    decide
  · rw [he.nlink_eq, if_neg (Ne.symm he.node_eq.1), if_pos ⟨rfl, rfl⟩]
  · rw [he.nlink_eq, if_neg hjn, if_neg fun hc => hjd hc.1]

theorem UnlinkEdit.kind_eq (he : UnlinkEdit g d k i name g') (x : Nat) :
    (g' x).kind = (g x).kind := by
  rw [he.graph, Graph.setLinks_kind]
  split_ifs
  · rw [Graph.setLinks_kind, Graph.setEnt_kind]
  · rw [Graph.setEnt_kind]

theorem UnlinkEdit.ent_eq (he : UnlinkEdit g d k i name g') (x j : Nat) :
    (g' x).ent j = if x = d ∧ j = k then {} else (g x).ent j := by
  rw [← Graph.setEnt_ent, he.graph, Graph.ent_setLinks]
  by_cases ht : (g i).kind = .dir
  · rw [if_pos ht, Graph.ent_setLinks]
  · rw [if_neg ht]

theorem UnlinkEdit.nlink_eq (he : UnlinkEdit g d k i name g') (x : Nat) :
    (g' x).nlink = if x = i then short ((g i).nlink - 1)
      else if x = d ∧ (g i).kind = .dir then short ((g d).nlink - 1) else (g x).nlink := by
  rw [he.graph, Graph.setLinks_nlink]
  by_cases hx : x = i
  · rw [if_pos hx, if_pos hx]
  · rw [if_neg hx, if_neg hx]
    by_cases ht : (g i).kind = .dir
    · simp only [ht, if_true, and_true, Graph.setLinks_nlink, Graph.setEnt_nlink]
    · simp only [ht, if_false, and_false, Graph.setEnt_nlink]

theorem UnlinkEdit.ent_before (he : UnlinkEdit g d k i name g') (x j : Nat) :
    ((g x).ent j).inum = if x = d ∧ j = k then i else ((g' x).ent j).inum := by
  rw [he.ent_eq]
  by_cases hc : x = d ∧ j = k
  · rw [if_pos hc, hc.1, hc.2, he.entry.1]
  · rw [if_neg hc, if_neg hc]

theorem UnlinkEdit.ent_self (he : UnlinkEdit g d k i name g') : ((g' d).ent k).inum = 0 := by
  rw [he.ent_eq, if_pos ⟨rfl, rfl⟩]

theorem NameTree.dots_unlink (h : NameTree g lost) (he : UnlinkEdit g d k i name g') (hk : 2 ≤ k)
    (x : Nat) : DirOk x (g' x) := by
  have hset : ∀ y, DirOk y (g.setEnt d k {} y) := dots_setEnt h.dots hk fun hz => absurd rfl hz
  rw [he.graph]
  refine dots_setLinks (fun y => ?_) i _ x
  split_ifs
  · exact dots_setLinks hset d _ y
  · exact hset y

theorem NameTree.free_unlink (h : NameTree g lost) (he : UnlinkEdit g d k i name g') (x : Nat)
    (hx : (g' x).kind = .free) : (g' x).nlink = 0 := by
  rw [he.kind_eq] at hx
  have hxi : x ≠ i := by
    rintro rfl
    exact he.node.1 hx
  have hxd : x ≠ d := by
    rintro rfl
    rw [he.dir] at hx
    exact absurd hx (by decide)
  rw [he.nlink_eq, if_neg hxi, if_neg fun hc => hxd hc.1]
  exact h.free x hx

theorem NameTree.unlink_adds (he : UnlinkEdit g d k i name g') (hk : 2 ≤ k)
    (hi : (g i).kind ≠ .dir) : Hierarchy.Adds g'.dirs d k i g.dirs :=
  adds_of_ent (fun x => by rw [he.kind_eq]) (fun x j _ => he.ent_before x j) he.ent_self hk
    (by rw [he.kind_eq]; exact he.dir) (by rw [he.kind_eq]; exact hi) he.entry.2

theorem NameTree.unlink (h : NameTree g lost) (he : UnlinkEdit g d k i name g') (hk : 2 ≤ k)
    (hi : (g i).kind ≠ .dir) : NameTree g' lost := by
  have hadds := NameTree.unlink_adds he hk hi
  refine ⟨h.dots_unlink he hk, hadds.forest_iff.mp h.forest,
    h.links.adds_before hadds (by rw [he.nlink_eq, if_pos rfl]) fun j hj => ?_, h.free_unlink he⟩
  rw [he.nlink_eq, if_neg hj, if_neg fun hc => hi hc.2]

theorem UnlinkEdit.sub (he : UnlinkEdit g d k i name g') (hk : 2 ≤ k) (hi : (g i).kind = .dir) :
    g.dirs.Sub d k i :=
  ⟨he.dir, hk, ⟨by rw [he.entry.1], he.entry.2⟩, hi⟩

theorem NameTree.rmdir_grows (h : NameTree g lost) (he : UnlinkEdit g d k i name g') (hk : 2 ≤ k)
    (hi : (g i).kind = .dir) : Hierarchy.Grows g'.dirs ROOTINO d k i g.dirs := by
  have hsub := he.sub hk hi
  obtain ⟨-, hroot, hup⟩ := h.forest.child d k i hsub
  obtain ⟨-, -, -, hup0, -⟩ := h.dots i hi
  refine grows_of_ent (fun x _ => by rw [he.kind_eq]) (fun x j _ _ => he.ent_before x j) he.ent_self
    hk (by rw [he.kind_eq]; exact he.dir) (h.dots d he.dir).1 ⟨he.ne, hroot⟩ he.entry.2
    ⟨hi, hup _ ⟨rfl, hup0⟩⟩ (he.empty hi) (fun _ j hj => ?_) fun x j hx hj hname => ?_
  · rw [he.ent_eq, if_neg fun hc => he.ne hc.1]
    exact he.empty hi j hj
  · -- Another entry for the directory would be in its parent too.
    rw [he.kind_eq] at hx
    have hne : ¬ (x = d ∧ j = k) := by
      rintro ⟨rfl, rfl⟩
      rw [he.ent_self] at hname
      exact he.entry.2 hname.symm
    rw [he.ent_eq, if_neg hne] at hname
    have hsub' : g.dirs.Sub x j i := ⟨hx, hj, ⟨hname, he.entry.2⟩, hi⟩
    have hxd : x = d := by
      have hup' := (h.forest.child x j i hsub').2.2 _ ⟨rfl, hup0⟩
      rw [← hup', hup _ ⟨rfl, hup0⟩]
    subst hxd
    exact hne ⟨rfl, h.forest.once x j k i hsub' hsub⟩

theorem NameTree.rmdir_linked (h : NameTree g lost) (he : UnlinkEdit g d k i name g') (hk : 2 ≤ k)
    (hi : (g i).kind = .dir) : g'.Linked d := by
  exact ((h.rmdir_grows he hk hi).linked_iff (Ne.symm he.ne)).mp
    (h.forest.child d k i (he.sub hk hi)).1

theorem NameTree.rmdir (h : NameTree g lost) (he : UnlinkEdit g d k i name g') (hk : 2 ≤ k)
    (hi : (g i).kind = .dir) : NameTree g' lost := by
  have hgrows := h.rmdir_grows he hk hi
  refine ⟨h.dots_unlink he hk, hgrows.forest_before h.forest,
    h.links.grows_before hgrows (h.rmdir_linked he hk hi) (by rw [he.nlink_eq, if_pos rfl]) ?_
      fun j hji hjd => ?_, h.free_unlink he⟩
  · rw [he.nlink_eq, if_neg (Ne.symm he.ne), if_pos ⟨rfl, hi⟩]
  · rw [he.nlink_eq, if_neg hji, if_neg fun hc => hjd hc.1]

end Edits

section Drops

theorem Graph.drop_of_ne {x : Nat} (h : x ≠ n) : g.drop n x = g x := Function.update_of_ne h _ _

theorem Graph.drop_self : g.drop n n = {} := Function.update_self _ _ _

theorem NameTree.not_linked (h : NameTree g lost) (hz : (g n).nlink = 0) : ¬ g.Linked n := by
  intro hl
  have hn0 := (h.dots n (hl.dir h.forest.root.1)).1
  have hne : (g.counted n).Nonempty := hl.counted_nonempty h.forest
  rw [(h.links.counted_empty hn0 hz).1] at hne
  exact Set.not_nonempty_empty hne

theorem NameTree.removes (h : NameTree g lost) (hz : (g n).nlink = 0) :
    Hierarchy.Removes g.dirs ROOTINO n (g.drop n).dirs where
  dirs x := by
    by_cases hx : x = n
    · subst hx
      simp [Graph.dirs, Graph.drop_self]
    · simp [Graph.dirs, Graph.drop_of_ne hx, hx]
  ents x j v hx := by simp only [Graph.dirs, Graph.drop_of_ne hx]
  unlinked := h.not_linked hz

theorem NameTree.drop_of_links (h : NameTree g lost) {lost' : Nat → ℕ∞} (hz : (g n).nlink = 0)
    (hlinks : ∀ j, ((g.drop n).counted j).encard + lost' j = (g.counted j).encard + lost j) :
    NameTree (g.drop n) lost' := by
  refine ⟨fun x => ?_, (h.removes hz).forest h.forest, fun j hj => ?_, fun x hx => ?_⟩
  · by_cases hx : x = n
    · rw [hx, Graph.drop_self]
      exact fun hd => absurd hd (by decide)
    · rw [Graph.drop_of_ne hx]
      exact h.dots x
  · rw [hlinks, h.links j hj]
    by_cases hjn : j = n
    · rw [hjn, Graph.drop_self, hz]
    · rw [Graph.drop_of_ne hjn]
  · by_cases hxn : x = n
    · rw [hxn, Graph.drop_self]
    · rw [Graph.drop_of_ne hxn] at hx ⊢
      exact h.free x hx

theorem NameTree.drop (h : NameTree g lost) (hz : (g n).nlink = 0) :
    ∃ lost', NameTree (g.drop n) lost' := by
  refine ⟨fun j => (g.counted j \ (g.drop n).counted j).encard + lost j,
    h.drop_of_links hz fun j => ?_⟩
  rw [← add_assoc, add_comm (Set.encard _),
    Set.encard_sdiff_add_encard_of_subset (h.removes hz).counted_subset]

theorem NameTree.drop_empty (h : NameTree g lost) (hz : (g n).nlink = 0)
    (hempty : (g n).kind = .dir → ∀ j, 2 ≤ j → ((g n).ent j).inum = 0) :
    NameTree (g.drop n) lost := by
  refine h.drop_of_links hz fun j => ?_
  rw [Graph.counted, (h.removes hz).counted_eq fun hn k _ hk => not_ent (hempty hn k hk)]

end Drops

end OsProject
