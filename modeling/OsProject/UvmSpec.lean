import OsProject.UnmapSpec

/-! `uvmcreate`, `uvmalloc`, `uvmcopy` and `uvmclear`: what a user space shows after each, and
that a call which runs out of memory takes back what it had mapped. -/

namespace OsProject.Vm

variable {ι τ : Type} [DecidableEq ι] [DecidableEq τ] {L : Layout} {B : Books ι τ} {m m' : Phys}
  {own own' : Nat → Option (Use ι τ)} {i : ι} {b : τ} {r c : Nat} {E : VmPanic → Prop}

omit [DecidableEq ι] [DecidableEq τ] in
theorem Frames.fill (F : Frames L B m own) (hc : L.Page c) (hown : ∀ k q, own c ≠ some (.table k q))
    {mem' : Buffer} (hsame : ∀ q, q ≠ c → SamePage m.mem mem' q) :
    Frames L B ⟨mem', m.freelist⟩ own := by
  refine F.write fun t k q _ ho => hsame t ?_
  rintro rfl
  exact hown k q ho

theorem Frames.alloc {rest : List Nat} (F : Frames L B m own) (hfree : m.freelist = c :: rest)
    (hb : B.held b = none) {mem' : Buffer} (hsame : ∀ q, q ≠ c → SamePage m.mem mem' q) :
    Frames L (B.hold b (some c)) ⟨mem', rest⟩ (Function.update own c (some (.held b))) ∧
      ∀ S : Option (Use ι τ) → Prop, S none → S (some (.held b)) →
        Local L S m own ⟨mem', rest⟩ (Function.update own c (some (.held b))) := by
  obtain ⟨mem, freelist⟩ := m
  subst hfree
  have hc := F.head
  have hnot : ∀ k q, own c ≠ some (.table k q) := fun k q he => by
    rw [hc.2.1] at he
    cases he
  refine ⟨(F.fill hc.1 hnot hsame).take hb, fun S h0 hS => ?_⟩
  exact (local_write hc.1 (by rwa [hc.2.1]) hsame).trans (local_relabel rfl (by rwa [hc.2.1]) hS)

theorem Frames.release (F : Frames L B m own) (hb : B.held b = some c) {x : Buffer}
    (hsame : ∀ q, q ≠ c → SamePage m.mem x q) :
    Frames L (B.hold b none) ⟨x, c :: m.freelist⟩ (Function.update own c none) ∧
      ∀ S : Option (Use ι τ) → Prop, S none → S (some (.held b)) →
        Local L S m own ⟨x, c :: m.freelist⟩ (Function.update own c none) := by
  have hc : L.Page c ∧ own c = some (.held b) := (F.exact (.held b) c).mp hb
  have hnot : ∀ k q, own c ≠ some (.table k q) := fun k q he => by
    rw [hc.2] at he
    cases he
  refine ⟨(F.fill hc.1 hnot hsame).give hb, fun S h0 hS => ?_⟩
  exact (local_write hc.1 (by rwa [hc.2]) hsame).trans (local_relabel rfl (by rwa [hc.2]) h0)

theorem uvmcreate_spec {Q : Option Nat → Phys → Prop} (F : Frames L B m own)
    (hi : B.root i = none) (hnone : m.freelist = [] → Q none m)
    (hsome : ∀ c m' own', m.freelist = c :: m'.freelist → Frames L (B.setRoot i (some c)) m' own' →
      Local L (tablesOf i) m own m' own' → (∀ j, pte m'.mem c j = 0) → Q (some c) m') :
    wp uvmcreate Q E m := by
  rw [uvmcreate, wp_bind]
  refine wp_kalloc hnone fun c rest hfree => ?_
  rw [wp_bind, wp_zeroPage, wp_pure]
  obtain ⟨mem, freelist⟩ := m
  subst hfree
  have hc := F.head
  have hsame : ∀ q, q ≠ c → SamePage mem (memset (memset mem c 5 PGSIZE) c 0 PGSIZE) q := fun q hq =>
    (samePage_memset hc.1.1 hq 5).trans (samePage_memset hc.1.1 hq 0)
  have hnot : ∀ k q, own c ≠ some (.table k q) := fun k q he => by
    rw [hc.2.1] at he
    cases he
  have hzero := pte_memset_zero (memset mem c 5 PGSIZE) c
  refine hsome c _ _ rfl ((F.fill hc.1 hnot hsame).new_root hi hzero) ?_ hzero
  exact (local_write hc.1 (by rw [hc.2.1]; trivial) hsame).trans
    (local_relabel rfl (by rw [hc.2.1]; trivial) rfl)

section Clear

def clearUser (x : Nat) : Nat := x &&& (2 ^ 64 - 1 - PTE_U)

theorem entryPage_clearUser {x : Nat} (hx : x < 2 ^ 64) : entryPage (clearUser x) = entryPage x := by
  obtain ⟨-, hpa, hflags⟩ := clearU hx
  have hvalid : clearUser x &&& PTE_V = x &&& PTE_V := by
    rw [and_flags (by decide), and_flags (by decide) x, clearUser, hflags, Nat.and_assoc]
    rfl
  rw [entryPage, entryPage, hvalid, clearUser, hpa]

theorem uvmclear_spec {Q : PUnit → Phys → Prop} {va : Nat} (F : Frames L B m own)
    (hr : B.root i = some r) (hva : va < MAXVA)
    (hmissing : node (childOf m.mem) r (path (va / PGSIZE)) = none → E .uvmclear)
    (hok : ∀ m', Frames L B m' own → Local L (tablesOf i) m own m' own →
      (∀ w, leaf m'.mem r w =
        if w = va / PGSIZE then clearUser (leaf m.mem r w) else leaf m.mem r w) → Q ⟨⟩ m') :
    wp (uvmclear r va) Q E m := by
  have hv : va / PGSIZE < 2 ^ 27 := by
    unfold MAXVA at hva
    unfold PGSIZE
    omega
  rw [uvmclear, wp_bind, wp_walk_lookup hva]
  cases ht : node (childOf m.mem) r (path (va / PGSIZE)) with
  | none => exact hmissing ht
  | some t =>
    have hload : getLE m.mem (t + 8 * slot (va / PGSIZE)) 8 = leaf m.mem r (va / PGSIZE) :=
      (leaf_eq hv ht).symm
    rw [Option.map_some, wp_bind, wp_loadPte, hload, wp_storePte]
    have hlt := leaf_lt m.mem r (va / PGSIZE)
    have hstored := F.leafStored hr hv ht (clearU hlt).1
    refine hok _ (F.keep_leaf hr (fun _ => entryPage_clearUser hlt) hstored)
      (F.local_store hr le_rfl ht _ _) fun w => ?_
    rw [hstored.here]
    split_ifs with hw
    · rw [hw]
      rfl
    · rfl

end Clear

section Alloc

def zeroData : PageData := fun _ => 0

theorem pageAt_memset_zero (mem : Buffer) (c : Nat) : pageAt (memset mem c 0 PGSIZE) c = zeroData := by
  funext o
  exact if_pos ⟨Nat.le_add_right _ _, Nat.add_lt_add_left o.isLt c⟩

theorem mapNew_spec {Q : Option Nat → Phys → Prop} {v perm : Nat} {fill : Nat → Buffer → Buffer}
    {d : PageData} (F : Frames L B m own) (hr : B.root i = some r) (hv : v < B.top i)
    (htop : B.top i ≤ 2 ^ 26) (hleaf : leaf m.mem r v &&& PTE_V = 0) (hb : B.held b = none)
    (hperm : perm < 1024)
    (hfill : ∀ c, L.Page c → own c = none →
      (∀ q, q ≠ c → SamePage m.mem (fill c (memset m.mem c 5 PGSIZE)) q) ∧
        pageAt (fill c (memset m.mem c 5 PGSIZE)) c = d)
    (hfail : ∀ m' own', Edited L B B i b r m own m' own' (view m.mem r) →
      (∀ w, leaf m'.mem r w = leaf m.mem r w) →
      m.freelist.length < 1 + (lacking m.mem r {v}).card → Q none m')
    (hok : ∀ c m' own', Edited L B B i b r m own m' own'
        (Function.update (view m.mem r) v (some (perm ||| PTE_V, d))) →
      Placed m.mem m'.mem r v c → NewTables m.mem m'.mem r (onPath v) →
      m.freelist.length = 1 + (lacking m.mem r {v}).card + m'.freelist.length → Q (some c) m') :
    wp (mapNew L r (v * PGSIZE) perm fill) Q E m := by
  rw [mapNew, wp_bind]
  refine wp_kalloc ?_ fun c rest hfree => ?_
  · intro hempty
    refine hfail m own (Edited.refl F) (fun _ => rfl) ?_
    rw [hempty]
    exact Nat.lt_add_right _ Nat.one_pos
  · have hc := (F.free c).mp (by rw [hfree]; exact List.mem_cons_self)
    obtain ⟨hsame, hdata⟩ := hfill c hc.1 hc.2
    obtain ⟨hF, hlocal⟩ := F.alloc hfree hb hsame
    have hlocal' := hlocal (fun o => o = none ∨ o = some (.held b)) (.inl rfl) (.inr rfl)
    have hle : ∀ o : Option (Use ι τ), o = none ∨ o = some (.held b) → spaceOf i b o := by
      rintro o (rfl | rfl)
      · trivial
      · rfl
    have hspace := hlocal'.space F hr (fun q hq => by simp at hq)
    have hview : ∀ w, w < B.top i → view (fill c (memset m.mem c 5 PGSIZE)) r w = view m.mem r w :=
      fun w hw => hlocal'.view_eq F hr hw (hspace.2 w) (by simp)
    have hroot : (B.hold b (some c)).root i = some r := hr
    have hheld : (B.hold b (some c)).held b = some c := Function.update_self _ _ _
    have hback : (B.hold b (some c)).hold b none = B := by
      rw [Books.hold, Books.hold]
      simp only [Function.update_idem, ← hb, Function.update_eq_self]
    have hlack : lacking (fill c (memset m.mem c 5 PGSIZE)) r {v} = lacking m.mem r {v} := by
      refine Finset.filter_congr fun q hq => ?_
      rw [Finset.singleton_biUnion] at hq
      rw [hspace.1 q (length_onPath hq)]
    have hmax : B.top i * PGSIZE ≤ MAXVA := by
      unfold MAXVA PGSIZE
      omega
    rw [wp_bind, wp_modify, wp_bind]
    refine mappages_user hF hroot hv hmax (by rw [hspace.2]; exact hleaf)
      hheld hperm ?_ ?_
    · intro m' own' hgrown hempty hlen
      have hc' := (hgrown.frames.exact (.held b) c).mp hheld
      rw [if_pos (by decide), wp_bind, wp_kfree hc'.1]
      obtain ⟨hF', hlocal''⟩ := hgrown.frames.release hheld (x := memset m'.mem c 1 PGSIZE)
        fun q hq => samePage_memset hc'.1.1 hq 1
      have hrel := hlocal'' (fun o => o = none ∨ o = some (.held b)) (.inl rfl) (.inr rfl)
      have hspace' := hrel.space hgrown.frames hroot (fun q hq => by simp at hq)
      rw [hback] at hF'
      have hleaf' : ∀ w, leaf (memset m'.mem c 1 PGSIZE) r w = leaf m.mem r w := fun w => by
        rw [hspace'.2, hgrown.leaf, hspace.2]
      refine hfail _ _ ⟨hF', ?_, ?_, fun w _ => hleaf' w⟩ hleaf' ?_
      · exact ((hlocal'.mono hle).trans (hgrown.near.mono (tablesOf_le b))).trans (hrel.mono hle)
      · intro w hw
        rw [hrel.view_eq hgrown.frames hroot hw (hspace'.2 w) (by simp)]
        exact (hgrown.near.view_eq hF hroot hw (hgrown.leaf w) id).trans (hview w hw)
      · dsimp only at hlen
        rw [hlack] at hlen
        rw [hfree, List.length_cons]
        omega
    · intro m' own' hedited hpage hnew hlen
      rw [if_neg (by decide), wp_pure]
      rw [hback] at hedited
      refine hok c m' own' ⟨hedited.frames, ?_, ?_, ?_⟩
        ⟨hpage.entry, fun w hw => (hpage.others w hw).trans (hspace.2 w)⟩ ?_ ?_
      · exact (hlocal'.mono hle).trans hedited.near
      · intro w hw
        rw [hedited.shows w hw, hdata]
        by_cases hwv : w = v
        · rw [hwv, Function.update_self, Function.update_self]
        · rw [Function.update_of_ne hwv, Function.update_of_ne hwv]
          exact hview w hw
      · intro w hw
        exact (hedited.high w hw).trans (hspace.2 w)
      · intro q hq
        rw [hnew q hq]
        dsimp only
        rw [hspace.1 q hq]
      · dsimp only at hlen
        rw [hlack] at hlen
        rw [hfree, List.length_cons]
        omega

omit [DecidableEq ι] [DecidableEq τ] in
theorem fillZero_page (m : Phys) (c : Nat) (hc : L.Page c) :
    (∀ q, q ≠ c → SamePage m.mem (fillZero c (memset m.mem c 5 PGSIZE)) q) ∧
      pageAt (fillZero c (memset m.mem c 5 PGSIZE)) c = zeroData :=
  ⟨fun _ hq => (samePage_memset hc.1 hq 5).trans (samePage_memset hc.1 hq 0),
    pageAt_memset_zero _ c⟩

end Alloc

end OsProject.Vm
