import OsProject.WalkSpec

/-! `mappages`. A page that a caller holds becomes a page of a user space, and a range above the
user pages is mapped without a change of ownership. -/

namespace OsProject.Vm

abbrev PageData := Fin PGSIZE → UInt8

def pageAt (mem : Buffer) (pa : Nat) : PageData := fun o => mem (pa + o)

/-- What a space shows at page `w`: the flags and the bytes. -/
def view (mem : Buffer) (r w : Nat) : Option (Nat × PageData) :=
  (entryPage (leaf mem r w)).map fun pa => (PTE_FLAGS (leaf mem r w), pageAt mem pa)

theorem pageAt_congr {mem mem' : Buffer} {pa : Nat} (hpa : pa % PGSIZE = 0)
    (h : SamePage mem mem' pa) : pageAt mem' pa = pageAt mem pa :=
  funext fun o => h _ (rounddown_page hpa o.isLt)

theorem entryPage_aligned {x pa : Nat} (h : entryPage x = some pa) : pa % PGSIZE = 0 := by
  unfold entryPage at h
  split_ifs at h
  cases h
  exact PTE2PA_aligned x

theorem view_congr {mem mem' : Buffer} {r w : Nat} (hleaf : leaf mem' r w = leaf mem r w)
    (h : ∀ pa, entryPage (leaf mem r w) = some pa → SamePage mem mem' pa) :
    view mem' r w = view mem r w := by
  unfold view
  rw [hleaf]
  cases hpa : entryPage (leaf mem r w) with
  | none => rfl
  | some pa => simp only [Option.map_some, pageAt_congr (entryPage_aligned hpa) (h pa hpa)]

variable {ι τ : Type}

section Edits

variable {L : Layout} {B B' B'' : Books ι τ} {m m' m'' : Phys}
  {own own' own'' : Nat → Option (Use ι τ)} {S : Option (Use ι τ) → Prop} {i : ι} {a : τ} {r w : Nat}
  {f g : Nat → Option (Nat × PageData)}

/-- Space `i` shows the pages `f` below its top, and nothing has changed but its own pages, free
pages and the page that `a` held. -/
structure Edited (L : Layout) (B B' : Books ι τ) (i : ι) (a : τ) (r : Nat) (m : Phys)
    (own : Nat → Option (Use ι τ)) (m' : Phys) (own' : Nat → Option (Use ι τ))
    (f : Nat → Option (Nat × PageData)) : Prop where
  frames : Frames L B' m' own'
  near : Local L (spaceOf i a) m own m' own'
  shows : ∀ w, w < B.top i → view m'.mem r w = f w
  high : ∀ w, B.top i ≤ w → leaf m'.mem r w = leaf m.mem r w

theorem Edited.refl (F : Frames L B m own) : Edited L B B i a r m own m own (view m.mem r) :=
  ⟨F, Local.refl L _ m own, fun _ _ => rfl, fun _ _ => rfl⟩

theorem Edited.trans (h : Edited L B B' i a r m own m' own' f)
    (h' : Edited L B' B'' i a r m' own' m'' own'' g) (htop : B'.top i = B.top i) :
    Edited L B B'' i a r m own m'' own'' g :=
  ⟨h'.frames, h.near.trans h'.near, fun w hw => h'.shows w (htop ▸ hw),
    fun w hw => (h'.high w (htop ▸ hw)).trans (h.high w hw)⟩

theorem Edited.congr (h : Edited L B B' i a r m own m' own' f)
    (hfg : ∀ w, w < B.top i → f w = g w) : Edited L B B' i a r m own m' own' g :=
  ⟨h.frames, h.near, fun w hw => (h.shows w hw).trans (hfg w hw), h.high⟩

theorem Frames.user (F : Frames L B m own) (hr : B.root i = some r) (hw : w < B.top i) {pa : Nat}
    (hpa : entryPage (leaf m.mem r w) = some pa) : L.Page pa ∧ own pa = some (.user i w) :=
  (F.exact _ _).mp ((loc_user B m.mem hr hw).trans hpa)

theorem Local.view_eq (h : Local L S m own m' own') (F : Frames L B m own) (hr : B.root i = some r)
    (hw : w < B.top i) (hleaf : leaf m'.mem r w = leaf m.mem r w) (hS : ¬ S (some (.user i w))) :
    view m'.mem r w = view m.mem r w := by
  refine view_congr hleaf fun pa hpa => ?_
  have hpage := F.user hr hw hpa
  exact h.bytes pa hpage.1 (by rwa [hpage.2])

end Edits

section Map

variable [DecidableEq ι] [DecidableEq τ] {L : Layout} {B : Books ι τ} {m : Phys}
  {own : Nat → Option (Use ι τ)} {i : ι} {b : τ} {r v n a c pa last perm : Nat} {E : VmPanic → Prop}
  {Q : Int → Phys → Prop}

theorem wp_mapLoop (F : Frames L B m own) (hr : B.root i = some r) (ha : a < MAXVA)
    (hremap : leaf m.mem r (a / PGSIZE) &&& PTE_V ≠ 0 → E .remap)
    (hfail : ∀ m' own', Grown L B i r m own m' own' → m'.freelist = [] →
      m.freelist.length < (lacking m.mem r {a / PGSIZE}).card → Q (-1) m')
    (hok : ∀ t m' own', leaf m.mem r (a / PGSIZE) &&& PTE_V = 0 → Grown L B i r m own m' own' →
      node (childOf m'.mem) r (path (a / PGSIZE)) = some t →
      NewTables m.mem m'.mem r (onPath (a / PGSIZE)) →
      m.freelist.length = (lacking m.mem r {a / PGSIZE}).card + m'.freelist.length →
      wp (if a = last then pure 0
        else mapLoop r last perm n ((a + PGSIZE) % 2 ^ 64) ((pa + PGSIZE) % 2 ^ 64)) Q E
        ⟨putLE m'.mem (t + 8 * slot (a / PGSIZE)) 8 (mkPte pa perm), m'.freelist⟩) :
    wp (mapLoop r last perm (n + 1) a pa) Q E m := by
  have hv : a / PGSIZE < 2 ^ 27 := by
    unfold MAXVA at ha
    unfold PGSIZE
    omega
  rw [mapLoop, wp_bind]
  refine wp_walk_alloc F hr ha hfail fun t m' own' hgrown ht hnew hlen => ?_
  have hload : getLE m'.mem (t + 8 * slot (a / PGSIZE)) 8 = leaf m.mem r (a / PGSIZE) := by
    rw [← hgrown.leaf, leaf_eq hv ht]
    rfl
  rw [wp_bind, wp_loadPte, hload]
  by_cases hvalid : leaf m.mem r (a / PGSIZE) &&& PTE_V ≠ 0
  · rw [if_pos hvalid, wp_bind]
    exact hremap hvalid
  · rw [if_neg hvalid, wp_bind, wp_storePte]
    exact hok t m' own' (not_not.mp hvalid) hgrown ht hnew hlen

theorem mappages_eq {va size : Nat} (hva : va % PGSIZE = 0) (hsize : size % PGSIZE = 0)
    (hpos : size ≠ 0) : mappages r va size pa perm =
      mapLoop r ((va + size - PGSIZE) % 2 ^ 64) perm (size / PGSIZE) va pa := by
  rw [mappages, if_neg (not_not.mpr hva), if_neg (not_not.mpr hsize), if_neg hpos]

structure Placed (mem mem' : Buffer) (r v c : Nat) : Prop where
  entry : entryPage (leaf mem' r v) = some c
  others : ∀ w, w ≠ v → leaf mem' r w = leaf mem r w

theorem mappages_user (F : Frames L B m own) (hr : B.root i = some r) (hv : v < B.top i)
    (htop : B.top i * PGSIZE ≤ MAXVA) (hleaf : leaf m.mem r v &&& PTE_V = 0)
    (hb : B.held b = some c) (hperm : perm < 1024)
    (hfail : ∀ m' own', Grown L B i r m own m' own' → m'.freelist = [] →
      m.freelist.length < (lacking m.mem r {v}).card → Q (-1) m')
    (hok : ∀ m' own', Edited L B (B.hold b none) i b r m own m' own'
        (Function.update (view m.mem r) v (some (perm ||| PTE_V, pageAt m.mem c))) →
      Placed m.mem m'.mem r v c → NewTables m.mem m'.mem r (onPath v) →
      m.freelist.length = (lacking m.mem r {v}).card + m'.freelist.length → Q 0 m') :
    wp (mappages r (v * PGSIZE) PGSIZE c perm) Q E m := by
  have hc : L.Page c ∧ own c = some (.held b) := (F.exact (.held b) c).mp hb
  have hva : v * PGSIZE < MAXVA := by
    unfold PGSIZE at *
    omega
  have hdiv : v * PGSIZE / PGSIZE = v := Nat.mul_div_cancel v (by decide)
  have hlast : (v * PGSIZE + PGSIZE - PGSIZE) % 2 ^ 64 = v * PGSIZE := by
    unfold MAXVA at hva
    unfold PGSIZE at *
    omega
  have hx : entryPage (mkPte c perm) = some c := entryPage_mkPte hc.1 hperm
  have hlt : mkPte c perm < 2 ^ 64 := by
    have hpage := hc.1.2.2
    unfold PHYSTOP KERNBASE at hpage
    exact (mkPte_lt (by omega) hperm).trans (by decide)
  have hv27 : v < 2 ^ 27 := by
    unfold MAXVA PGSIZE at *
    omega
  rw [mappages_eq (Nat.mul_mod_left v PGSIZE) (Nat.mod_self PGSIZE) (by decide), hlast]
  refine wp_mapLoop (n := 0) F hr hva ?_ ?_ ?_
  · rw [hdiv]
    exact fun hvalid => absurd hleaf hvalid
  · rw [hdiv]
    exact hfail
  · rw [hdiv]
    intro t m' own' _ hgrown ht hnew hlen
    rw [if_pos rfl, wp_pure]
    have hc' : own' c = some (.held b) := by
      rw [hgrown.near.roles.own_eq hc.1 (by rw [hc.2]; exact id), hc.2]
    have hstored := hgrown.frames.leafStored hr hv27 ht hlt
    have hlocal := hgrown.near.trans (hgrown.frames.local_store hr le_rfl ht (slot v) (mkPte c perm))
    have hdata : SamePage m.mem (putLE m'.mem (t + 8 * slot v) 8 (mkPte c perm)) c :=
      hlocal.bytes c hc.1 (by rw [hc.2]; exact id)
    refine hok _ _ ⟨hgrown.frames.map_user hr hv (by rwa [hgrown.leaf]) hb hx hstored, ?_, ?_, ?_⟩
      ⟨by rw [hstored.here, if_pos rfl, hx], ?_⟩ ?_ hlen
    · refine (hlocal.mono (tablesOf_le b)).trans (local_relabel rfl ?_ rfl)
      rw [hc']
      rfl
    · intro w hw
      by_cases hwv : w = v
      · subst hwv
        rw [Function.update_self, view, hstored.here, if_pos rfl, hx, Option.map_some,
          flags_mkPte hperm, pageAt_congr hc.1.1 hdata]
      · rw [Function.update_of_ne hwv]
        refine hlocal.view_eq F hr hw ?_ id
        rw [hstored.here, if_neg hwv, hgrown.leaf]
    · intro w hw
      rw [hstored.here, if_neg (by omega), hgrown.leaf]
    · intro w hw
      rw [hstored.here, if_neg hw, hgrown.leaf]
    · intro q hq
      rw [hstored.table i r hr q hq]
      exact hnew q hq

structure Ranged (L : Layout) (B : Books ι τ) (i : ι) (r v k pa perm : Nat) (m : Phys)
    (own : Nat → Option (Use ι τ)) (m' : Phys) (own' : Nat → Option (Use ι τ)) : Prop where
  frames : Frames L B m' own'
  near : Local L (tablesOf i) m own m' own'
  leaf : ∀ w, leaf m'.mem r w =
    if v ≤ w ∧ w < v + k then mkPte ((pa + (w - v) * PGSIZE) % 2 ^ 64) perm else leaf m.mem r w

omit [DecidableEq ι] [DecidableEq τ] in
theorem Grown.ranged {m' : Phys} {own' : Nat → Option (Use ι τ)} (h : Grown L B i r m own m' own')
    (v pa perm : Nat) : Ranged L B i r v 0 pa perm m own m' own' := by
  refine ⟨h.frames, h.near, fun w => ?_⟩
  rw [h.leaf, if_neg (by omega)]

omit [DecidableEq ι] [DecidableEq τ] in
theorem Ranged.cons {m' m'' : Phys} {own' own'' : Nat → Option (Use ι τ)} {k : Nat}
    (h : Ranged L B i r v 1 pa perm m own m' own')
    (h' : Ranged L B i r (v + 1) k ((pa + PGSIZE) % 2 ^ 64) perm m' own' m'' own'') :
    Ranged L B i r v (k + 1) pa perm m own m'' own'' := by
  refine ⟨h'.frames, h.near.trans h'.near, fun w => ?_⟩
  rw [h'.leaf w, h.leaf w]
  by_cases hw : w = v
  · subst hw
    rw [if_neg (by omega), if_pos (by omega), if_pos (by omega)]
  · by_cases hin : v ≤ w ∧ w < v + (k + 1)
    · have hadd : ((pa + PGSIZE) % 2 ^ 64 + (w - (v + 1)) * PGSIZE) % 2 ^ 64 =
          (pa + (w - v) * PGSIZE) % 2 ^ 64 := by
        unfold PGSIZE
        omega
      rw [if_pos (by omega), if_pos hin, hadd]
    · rw [if_neg (by omega), if_neg (by omega), if_neg hin]

theorem Grown.store {m' : Phys} {own' : Nat → Option (Use ι τ)} {t : Nat}
    (h : Grown L B i r m own m' own') (hr : B.root i = some r) (hv : v < 2 ^ 27)
    (htop : B.top i ≤ v) (hpa : pa < 2 ^ 64) (hperm : perm < 1024)
    (ht : node (childOf m'.mem) r (path v) = some t) (hnew : NewTables m.mem m'.mem r (onPath v)) :
    Ranged L B i r v 1 pa perm m own
      ⟨putLE m'.mem (t + 8 * slot v) 8 (mkPte pa perm), m'.freelist⟩ own' ∧
    NewTables m.mem (putLE m'.mem (t + 8 * slot v) 8 (mkPte pa perm)) r (onPath v) := by
  have hlt : mkPte pa perm < 2 ^ 64 := (mkPte_lt hpa hperm).trans (by decide)
  have hstored := h.frames.leafStored hr hv ht hlt
  refine ⟨⟨h.frames.keep_leaf hr (fun hlow => absurd hlow (by omega)) hstored,
    h.near.trans (h.frames.local_store hr le_rfl ht (slot v) _), fun w => ?_⟩, fun q hq => ?_⟩
  · rw [hstored.here, h.leaf]
    by_cases hw : w = v
    · subst hw
      rw [if_pos rfl, if_pos (by omega), Nat.sub_self, Nat.zero_mul, Nat.add_zero,
        Nat.mod_eq_of_lt hpa]
    · rw [if_neg hw, if_neg (by omega)]
  · rw [hstored.table i r hr q hq]
    exact hnew q hq

omit [DecidableEq ι] [DecidableEq τ] in
theorem Ico_cons (v n : Nat) :
    Finset.Ico v (v + (n + 1)) = insert v (Finset.Ico (v + 1) (v + 1 + n)) := by
  ext w
  simp only [Finset.mem_insert, Finset.mem_Ico]
  omega

theorem mapLoop_range (hr : B.root i = some r) (htop : B.top i ≤ v) (hperm : perm < 1024)
    (hv : v + (n + 1) ≤ 2 ^ 26) (F : Frames L B m own) (hpa : pa < 2 ^ 64)
    (hremap : ∀ w, v ≤ w → w < v + (n + 1) → leaf m.mem r w &&& PTE_V ≠ 0 → E .remap)
    (hfail : ∀ k m' own', k < n + 1 → Ranged L B i r v k pa perm m own m' own' → m'.freelist = [] →
      m.freelist.length < (lacking m.mem r (Finset.Ico v (v + (n + 1)))).card → Q (-1) m')
    (hok : ∀ m' own', (∀ w, v ≤ w → w < v + (n + 1) → leaf m.mem r w &&& PTE_V = 0) →
      Ranged L B i r v (n + 1) pa perm m own m' own' →
      NewTables m.mem m'.mem r ((Finset.Ico v (v + (n + 1))).biUnion onPath) →
      m.freelist.length =
        (lacking m.mem r (Finset.Ico v (v + (n + 1)))).card + m'.freelist.length → Q 0 m') :
    wp (mapLoop r ((v + n) * PGSIZE) perm (n + 1) (v * PGSIZE) pa) Q E m := by
  induction n generalizing v pa m own with
  | zero =>
    have hdiv : v * PGSIZE / PGSIZE = v := Nat.mul_div_cancel v (by decide)
    have hva : v * PGSIZE < MAXVA := by
      unfold MAXVA PGSIZE
      omega
    have hone : Finset.Ico v (v + (0 + 1)) = {v} := by
      rw [Ico_cons, Nat.add_zero, Finset.Ico_self]
      rfl
    rw [hone] at hfail hok
    refine wp_mapLoop F hr hva ?_ ?_ ?_ <;> rw [hdiv]
    · exact hremap v le_rfl (Nat.lt_succ_self v)
    · intro m' own' hgrown hempty hlen
      exact hfail 0 m' own' Nat.one_pos (hgrown.ranged v pa perm) hempty hlen
    · intro t m' own' hfresh hgrown ht hnew hlen
      obtain ⟨hranged, hnew'⟩ := hgrown.store hr (by omega) htop hpa hperm ht hnew
      rw [if_pos (by rw [Nat.add_zero]), wp_pure]
      refine hok _ own' (fun w hw hw' => ?_) hranged ?_ hlen
      · obtain rfl : w = v := by omega
        exact hfresh
      · rwa [Finset.singleton_biUnion]
  | succ n ih =>
    have hdiv : v * PGSIZE / PGSIZE = v := Nat.mul_div_cancel v (by decide)
    have hva : v * PGSIZE < MAXVA := by
      unfold MAXVA PGSIZE
      omega
    have hsub : lacking m.mem r {v} ⊆ lacking m.mem r (Finset.Ico v (v + (n + 1 + 1))) := by
      refine Finset.filter_subset_filter _ (Finset.biUnion_subset_biUnion_of_subset_left _ ?_)
      rw [Finset.singleton_subset_iff, Finset.mem_Ico]
      omega
    refine wp_mapLoop F hr hva ?_ ?_ ?_ <;> rw [hdiv]
    · exact hremap v le_rfl (by omega)
    · intro m' own' hgrown hempty hlen
      exact hfail 0 m' own' (Nat.succ_pos _) (hgrown.ranged v pa perm) hempty
        (hlen.trans_le (Finset.card_le_card hsub))
    · intro t m' own' hfresh hgrown ht hnew hlen
      obtain ⟨hranged, hnew'⟩ := hgrown.store hr (by omega) htop hpa hperm ht hnew
      have hcard := card_lacking_insert hnew' (Finset.Ico (v + 1) (v + 1 + (n + 1)))
      rw [← Ico_cons] at hcard
      rw [hcard] at hfail hok
      have hnext : (v * PGSIZE + PGSIZE) % 2 ^ 64 = (v + 1) * PGSIZE := by
        unfold PGSIZE
        omega
      have hlast : (v + (n + 1)) * PGSIZE = (v + 1 + n) * PGSIZE := by ring
      rw [if_neg (by unfold PGSIZE; omega), hnext, hlast]
      refine ih (by omega) (by omega) hranged.frames (Nat.mod_lt _ (by decide)) ?_ ?_ ?_
      · intro w hw hw' hvalid
        rw [hranged.leaf, if_neg (by omega)] at hvalid
        exact hremap w (by omega) (by omega) hvalid
      · intro k m'' own'' hk hranged' hempty hlen'
        refine hfail (k + 1) m'' own'' (by omega) (hranged.cons hranged') hempty ?_
        dsimp only at hlen'
        omega
      · intro m'' own'' hfresh' hranged' hnew'' hlen'
        refine hok m'' own'' (fun w hw hw' => ?_) (hranged.cons hranged') ?_ ?_
        · by_cases hwv : w = v
          · rw [hwv]
            exact hfresh
          · have hkeep := hranged.leaf w
            rw [if_neg (by omega)] at hkeep
            rw [← hkeep]
            exact hfresh' w (by omega) (by omega)
        · rw [Ico_cons, Finset.biUnion_insert]
          exact hnew'.trans hnew''
        · dsimp only at hlen'
          omega

theorem mappages_range (F : Frames L B m own) (hr : B.root i = some r) (htop : B.top i ≤ v)
    (hn : 0 < n) (hv : v + n ≤ 2 ^ 26) (hpa : pa < 2 ^ 64) (hperm : perm < 1024)
    (hremap : ∀ w, v ≤ w → w < v + n → leaf m.mem r w &&& PTE_V ≠ 0 → E .remap)
    (hfail : ∀ k m' own', k < n → Ranged L B i r v k pa perm m own m' own' → m'.freelist = [] →
      m.freelist.length < (lacking m.mem r (Finset.Ico v (v + n))).card → Q (-1) m')
    (hok : ∀ m' own', (∀ w, v ≤ w → w < v + n → leaf m.mem r w &&& PTE_V = 0) →
      Ranged L B i r v n pa perm m own m' own' →
      NewTables m.mem m'.mem r ((Finset.Ico v (v + n)).biUnion onPath) →
      m.freelist.length =
        (lacking m.mem r (Finset.Ico v (v + n))).card + m'.freelist.length → Q 0 m') :
    wp (mappages r (v * PGSIZE) (n * PGSIZE) pa perm) Q E m := by
  obtain ⟨n, rfl⟩ := Nat.exists_eq_add_of_le' hn
  have hlast : (v * PGSIZE + (n + 1) * PGSIZE - PGSIZE) % 2 ^ 64 = (v + n) * PGSIZE := by
    unfold PGSIZE
    omega
  rw [mappages_eq (Nat.mul_mod_left v PGSIZE) (Nat.mul_mod_left (n + 1) PGSIZE)
    (Nat.mul_ne_zero (Nat.succ_ne_zero n) (by decide)), hlast,
    Nat.mul_div_cancel (n + 1) (by decide)]
  exact mapLoop_range hr htop hperm hv F hpa hremap hfail hok

end Map

end OsProject.Vm
