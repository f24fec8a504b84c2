import OsProject.FrameMoves
import OsProject.Hoare

/-! `walk`: a lookup reads the tree of tables, and an allocating walk adds the missing tables of
its path and nothing else. -/

namespace OsProject.Vm

section Memory

variable {α : Type} {E : VmPanic → Prop} {m : Phys} {a v pa : Nat}

@[simp] theorem wp_loadPte {Q : Nat → Phys → Prop} :
    wp (loadPte a) Q E m ↔ Q (getLE m.mem a 8) m := Iff.rfl

@[simp] theorem wp_storePte {Q : PUnit → Phys → Prop} :
    wp (storePte a v) Q E m ↔ Q ⟨⟩ { m with mem := putLE m.mem a 8 v } := Iff.rfl

@[simp] theorem wp_zeroPage {Q : PUnit → Phys → Prop} :
    wp (zeroPage pa) Q E m ↔ Q ⟨⟩ { m with mem := memset m.mem pa 0 PGSIZE } := Iff.rfl

theorem wp_kalloc {Q : Option Nat → Phys → Prop} (hnone : m.freelist = [] → Q none m)
    (hsome : ∀ c rest, m.freelist = c :: rest → Q (some c) ⟨memset m.mem c 5 PGSIZE, rest⟩) :
    wp kalloc Q E m := by
  rw [kalloc, wp_bind, wp_get]
  cases hfree : m.freelist with
  | nil => exact hnone hfree
  | cons c rest => exact hsome c rest hfree

end Memory

section Lookup

variable {E : VmPanic → Prop} {m : Phys} {va r t level : Nat}

theorem wp_walkFrom_lookup {Q : Option Nat → Phys → Prop} :
    wp (walkFrom va false (level + 1) t) Q E m ↔
      match childOf m.mem t (PX (level + 1) va) with
      | some u => wp (walkFrom va false level u) Q E m
      | none => Q none m := by
  have hload : getLE m.mem (t + 8 * PX (level + 1) va) 8 = pte m.mem t (PX (level + 1) va) := rfl
  rw [walkFrom, wp_bind, wp_loadPte, hload, wp_ite, childOf, entryPage]
  by_cases hv : pte m.mem t (PX (level + 1) va) &&& PTE_V ≠ 0
  · rw [if_pos hv]
    exact ⟨fun h => h.1 hv, fun h => ⟨fun _ => h, fun hn => absurd hv hn⟩⟩
  · rw [if_neg hv]
    exact ⟨fun h => h.2 hv, fun h => ⟨fun hp => absurd hp hv, fun _ => h⟩⟩

theorem PX_slot (va : Nat) : PX 0 va = slot (va / PGSIZE) := by
  rw [PX_eq, pow_zero, Nat.div_one, slot]

theorem path_PX (va : Nat) : path (va / PGSIZE) = [PX 1 va, PX 2 va] := by
  rw [PX_eq, PX_eq, pow_one, path]

theorem wp_walkFrom_root {Q : Option Nat → Phys → Prop} :
    wp (walkFrom va false 2 r) Q E m ↔
      Q ((node (childOf m.mem) r (path (va / PGSIZE))).map (· + 8 * slot (va / PGSIZE))) m := by
  rw [path_PX, ← PX_slot, wp_walkFrom_lookup]
  cases h2 : childOf m.mem r (PX 2 va) with
  | none => simp [node, h2]
  | some u =>
    show wp (walkFrom va false 1 u) Q E m ↔ _
    rw [wp_walkFrom_lookup]
    cases h1 : childOf m.mem u (PX 1 va) with
    | none => simp [node, h2, h1]
    | some w => simp [node, h2, h1, walkFrom]

theorem wp_walk_lookup {Q : Option Nat → Phys → Prop} (hva : va < MAXVA) :
    wp (walk r va false) Q E m ↔
      Q ((node (childOf m.mem) r (path (va / PGSIZE))).map (· + 8 * slot (va / PGSIZE))) m := by
  rw [walk, if_neg (Nat.not_le.mpr hva)]
  exact wp_walkFrom_root

end Lookup

section Alloc

variable {ι τ : Type} [DecidableEq ι] [DecidableEq τ] {L : Layout} {B : Books ι τ} {m m' m'' : Phys}
  {own own' own'' : Nat → Option (Use ι τ)} {i : ι} {r t v va level : Nat} {p : List Index}
  {E : VmPanic → Prop}

structure Grown (L : Layout) (B : Books ι τ) (i : ι) (r : Nat) (m : Phys)
    (own : Nat → Option (Use ι τ)) (m' : Phys) (own' : Nat → Option (Use ι τ)) : Prop where
  frames : Frames L B m' own'
  near : Local L (tablesOf i) m own m' own'
  leaf : ∀ v, leaf m'.mem r v = leaf m.mem r v

omit [DecidableEq ι] [DecidableEq τ] in
theorem Grown.refl (F : Frames L B m own) : Grown L B i r m own m own :=
  ⟨F, Local.refl L _ m own, fun _ => rfl⟩

omit [DecidableEq ι] [DecidableEq τ] in
theorem Grown.trans (h : Grown L B i r m own m' own') (h' : Grown L B i r m' own' m'' own'') :
    Grown L B i r m own m'' own'' :=
  ⟨h'.frames, h.near.trans h'.near, fun v => (h'.leaf v).trans (h.leaf v)⟩

def NewTables (mem mem' : Buffer) (r : Nat) (new : Finset (List Index)) : Prop :=
  ∀ q, q.length ≤ 2 → ((node (childOf mem') r q).isSome ↔ (node (childOf mem) r q).isSome ∨ q ∈ new)

theorem NewTables.refl (mem : Buffer) (r : Nat) : NewTables mem mem r ∅ := fun q _ => by simp

theorem NewTables.trans {mem mem' mem'' : Buffer} {new new' : Finset (List Index)}
    (h : NewTables mem mem' r new) (h' : NewTables mem' mem'' r new') :
    NewTables mem mem'' r (new ∪ new') := by
  intro q hq
  rw [h' q hq, h q hq, Finset.mem_union, or_assoc]

theorem NewTables.add {mem mem' : Buffer} {new : Finset (List Index)} {u : List Index} {w : Nat}
    (h : NewTables mem mem' r new) (hu : node (childOf mem) r u = some w) :
    NewTables mem mem' r (insert u new) := by
  intro q hq
  rw [h q hq, Finset.mem_insert, or_left_comm]
  refine ⟨.inr, ?_⟩
  rintro (rfl | hsome)
  · left
    rw [hu]
    rfl
  · exact hsome

theorem wp_walkFrom_alloc {Q : Option Nat → Phys → Prop} (F : Frames L B m own)
    (hr : B.root i = some r) (hp : p.length < 2) (ht : node (childOf m.mem) r p = some t)
    (hfull : m.freelist = [] → node (childOf m.mem) r (PX (level + 1) va :: p) = none → Q none m)
    (hnext : ∀ u, node (childOf m.mem) r (PX (level + 1) va :: p) = some u →
      wp (walkFrom va true level u) Q E m)
    (hnew : ∀ u m' own', Grown L B i r m own m' own' → m.freelist = u :: m'.freelist →
      node (childOf m.mem) r (PX (level + 1) va :: p) = none →
      node (childOf m'.mem) r (PX (level + 1) va :: p) = some u →
      NewTables m.mem m'.mem r {PX (level + 1) va :: p} → wp (walkFrom va true level u) Q E m') :
    wp (walkFrom va true (level + 1) t) Q E m := by
  have hload : getLE m.mem (t + 8 * PX (level + 1) va) 8 = pte m.mem t (PX (level + 1) va) := rfl
  rw [node_cons ht, childOf, entryPage] at hfull hnext hnew
  rw [walkFrom, wp_bind, wp_loadPte, hload, wp_ite]
  refine ⟨fun hv => hnext _ (if_pos hv), fun hv => ?_⟩
  rw [if_neg hv] at hfull hnew
  simp only [Bool.not_true, Bool.false_eq_true, if_false]
  rw [wp_bind]
  refine wp_kalloc (fun hfree => hfull hfree rfl) fun c rest hfree => ?_
  rw [wp_bind, wp_zeroPage, wp_bind, wp_storePte]
  obtain ⟨mem, freelist⟩ := m
  subst hfree
  have hc := F.head
  have htp := F.table hr hp.le ht
  have hct : c ≠ t := by
    rintro rfl
    rw [htp.2] at hc
    cases hc.2.1
  have hmk : PA2PTE c ||| PTE_V = mkPte c 0 := by rw [mkPte, Nat.or_zero]
  have hsame : ∀ q, q ≠ t → q ≠ c →
      SamePage mem (putLE (memset (memset mem c 5 PGSIZE) c 0 PGSIZE) (t + 8 * PX (level + 1) va) 8
        (PA2PTE c ||| PTE_V)) q := fun q hqt hqc =>
    ((samePage_memset hc.1.1 hqc 5).trans (samePage_memset hc.1.1 hqc 0)).trans
      (samePage_putLE htp.1.1 hqt _ _)
  have hold : ∀ k, pte (memset (memset mem c 5 PGSIZE) c 0 PGSIZE) t k = pte mem t k :=
    pte_congr htp.1.1
      ((samePage_memset hc.1.1 hct.symm 5).trans (samePage_memset hc.1.1 hct.symm 0))
  have hlt : mkPte c 0 < 2 ^ 64 := by
    have hpage := hc.1.2.2
    unfold PHYSTOP KERNBASE at hpage
    exact (mkPte_lt (by omega) (by decide)).trans (by decide)
  obtain ⟨F', hnode, hleaf⟩ := F.graft hr hp ht (not_not.mp hv) hsame
    (by rw [hmk, pte_putLE hlt]) (fun k hk => by rw [pte_putLE_of_ne hk, hold k])
    (fun k => by
      rw [pte_congr hc.1.1 (samePage_putLE htp.1.1 hct _ _), pte_memset_zero])
  have hsome := hnode (PX (level + 1) va :: p) hp
  rw [if_pos rfl] at hsome
  refine hnew c _ _ ⟨F', ⟨?_, ?_, ?_⟩, hleaf⟩ rfl rfl hsome ?_
  · exact within_update (by rw [hc.2.1]; trivial) rfl
  · intro q hq hs
    refine hsame q ?_ ?_
    · rintro rfl
      rw [htp.2] at hs
      exact hs rfl
    · rintro rfl
      rw [hc.2.1] at hs
      exact hs trivial
  · intro b hb
    refine hsame _ ?_ ?_ b rfl
    · intro he
      exact hb (he ▸ htp.1)
    · intro he
      exact hb (he ▸ hc.1)
  · intro q hq
    rw [hnode q hq]
    split_ifs with he <;> simp [he]

/-- The tables below the root that lead to page `v`. -/
def onPath (v : Nat) : Finset (List Index) := {path v, (path v).tail}

/-- The tables that are missing for the pages `vs`. -/
def lacking (mem : Buffer) (r : Nat) (vs : Finset Nat) : Finset (List Index) :=
  (vs.biUnion onPath).filter fun q => node (childOf mem) r q = none

theorem card_lacking (mem : Buffer) (r v : Nat) :
    (lacking mem r {v}).card =
      (if node (childOf mem) r (path v) = none then 1 else 0) +
        if node (childOf mem) r (path v).tail = none then 1 else 0 := by
  have hne : path v ≠ (path v).tail := by simp [path]
  rw [lacking, Finset.singleton_biUnion, onPath, Finset.card_filter, Finset.sum_pair hne]

theorem length_onPath {q : List Index} (hq : q ∈ onPath v) : q.length ≤ 2 := by
  simp only [onPath, Finset.mem_insert, Finset.mem_singleton] at hq
  rcases hq with rfl | rfl
  · exact le_rfl
  · exact Nat.le_succ 1

theorem card_lacking_insert {mem mem' : Buffer} (h : NewTables mem mem' r (onPath v))
    (vs : Finset Nat) : (lacking mem r (insert v vs)).card =
      (lacking mem r {v}).card + (lacking mem' r vs).card := by
  have hmem : ∀ q, q ∈ lacking mem' r vs ↔
      q ∈ vs.biUnion onPath ∧ node (childOf mem) r q = none ∧ q ∉ onPath v := by
    intro q
    rw [lacking, Finset.mem_filter]
    refine and_congr_right fun hq => ?_
    obtain ⟨w, -, hw⟩ := Finset.mem_biUnion.mp hq
    have hnew := h q (length_onPath hw)
    rw [← Option.not_isSome_iff_eq_none, hnew, not_or, Option.not_isSome_iff_eq_none]
  have hunion : lacking mem r (insert v vs) = lacking mem r {v} ∪ lacking mem' r vs := by
    ext q
    rw [Finset.mem_union, hmem, lacking, lacking, Finset.mem_filter, Finset.mem_filter,
      Finset.biUnion_insert, Finset.singleton_biUnion, Finset.mem_union]
    tauto
  rw [hunion, Finset.card_union_of_disjoint]
  rw [Finset.disjoint_left]
  intro q hq hq'
  rw [lacking, Finset.mem_filter, Finset.singleton_biUnion] at hq
  exact ((hmem q).mp hq').2.2 hq.1

theorem wp_walk_alloc {Q : Option Nat → Phys → Prop} (F : Frames L B m own)
    (hr : B.root i = some r) (hva : va < MAXVA)
    (hfail : ∀ m' own', Grown L B i r m own m' own' → m'.freelist = [] →
      m.freelist.length < (lacking m.mem r {va / PGSIZE}).card → Q none m')
    (hok : ∀ t m' own', Grown L B i r m own m' own' →
      node (childOf m'.mem) r (path (va / PGSIZE)) = some t →
      NewTables m.mem m'.mem r (onPath (va / PGSIZE)) →
      m.freelist.length = (lacking m.mem r {va / PGSIZE}).card + m'.freelist.length →
      Q (some (t + 8 * slot (va / PGSIZE))) m') :
    wp (walk r va true) Q E m := by
  rw [onPath] at hok
  rw [card_lacking, path_PX, List.tail_cons] at hfail hok
  rw [← PX_slot] at hok
  have hfree : ∀ {m m' : Phys} {u : Nat}, m.freelist = u :: m'.freelist →
      m.freelist.length = m'.freelist.length + 1 := by
    intro m m' u h
    rw [h, List.length_cons]
  rw [walk, if_neg (Nat.not_le.mpr hva)]
  refine wp_walkFrom_alloc F hr (p := []) (by decide) rfl ?_ ?_ ?_
  · intro hempty h2
    refine hfail m own (Grown.refl F) hempty ?_
    rw [hempty, if_pos h2]
    exact Nat.succ_pos _
  · intro u h2
    rw [h2] at hfail hok
    refine wp_walkFrom_alloc F hr (p := [PX 2 va]) Nat.one_lt_two h2 ?_ ?_ ?_
    · intro hempty h1
      refine hfail m own (Grown.refl F) hempty ?_
      rw [hempty, if_pos h1]
      exact Nat.succ_pos _
    · intro w h1
      refine hok w m own (Grown.refl F) h1 ((NewTables.refl _ r |>.add h2).add h1) ?_
      rw [h1]
      simp
    · intro w m' own' hgrown hcons h1 h1' hnew
      refine hok w m' own' hgrown h1' ?_ ?_
      · rw [Finset.pair_comm]
        exact hnew.add h2
      · rw [if_pos h1, hfree hcons]
        simp [Nat.add_comm]
  · intro u m1 own1 hgrown hcons h2 h2' hnew
    -- the lower table is missing as well
    have h1 : node (childOf m.mem) r [PX 1 va, PX 2 va] = none := by
      rw [node, h2]; rfl
    have h1' : ¬ (node (childOf m1.mem) r [PX 1 va, PX 2 va]).isSome := by
      rw [hnew _ le_rfl, h1]
      simp
    rw [if_pos h1, if_pos h2] at hfail hok
    refine wp_walkFrom_alloc hgrown.frames hr (p := [PX 2 va]) Nat.one_lt_two h2' ?_ ?_ ?_
    · intro hempty _
      refine hfail m1 own1 hgrown hempty ?_
      rw [hfree hcons, hempty]
      exact Nat.one_lt_two
    · intro w hw
      rw [hw] at h1'
      exact absurd rfl h1'
    · intro w m' own' hgrown' hcons' _ hw hnew'
      refine hok w m' own' (hgrown.trans hgrown') hw ?_ ?_
      · rw [Finset.pair_comm, Finset.insert_eq]
        exact hnew.trans hnew'
      · rw [hfree hcons, hfree hcons']
        omega

end Alloc

end OsProject.Vm
