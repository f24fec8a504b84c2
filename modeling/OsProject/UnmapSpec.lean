import OsProject.MapSpec

/-! `uvmunmap` and `freewalk`: pages of a user space go back to the free list, and when none is
left so do its tables. -/

namespace OsProject.Vm

theorem entryPage_none {x : Nat} : entryPage x = none ↔ x &&& PTE_V = 0 := by
  simp [entryPage]

theorem view_none {mem : Buffer} {r w : Nat} : view mem r w = none ↔ entryPage (leaf mem r w) = none := by
  simp [view]

variable {ι τ : Type}

section Unmap

variable {L : Layout} {B : Books ι τ} {m : Phys} {own : Nat → Option (Use ι τ)} {i : ι} {b : τ}
  {r v n a pa : Nat} {E : VmPanic → Prop} {Q : PUnit → Phys → Prop} {doFree : Bool}

theorem wp_kfree (hpa : L.Page pa) :
    wp (kfree L pa) Q E m ↔ Q ⟨⟩ ⟨memset m.mem pa 1 PGSIZE, pa :: m.freelist⟩ := by
  obtain ⟨haligned, hend, hstop⟩ := hpa
  rw [kfree, if_neg (by omega)]
  rfl

theorem wp_uvmunmap {I : Nat → Phys → Prop} (hv : v + n ≤ 2 ^ 26)
    (hstep : ∀ k m, k < n → I k m →
      wp (unmapPage L r ((v + k) * PGSIZE) doFree) (fun _ m' => I (k + 1) m') E m)
    (h : I 0 m) : wp (uvmunmap L r (v * PGSIZE) n doFree) (fun _ m' => I n m') E m := by
  have hstop : (v * PGSIZE + n * PGSIZE) % 2 ^ 64 = (v + n) * PGSIZE := by
    unfold PGSIZE
    omega
  have hloop : ∀ d k m, k + d = n → I k m →
      wp (unmapLoop L r ((v + n) * PGSIZE) doFree d ((v + k) * PGSIZE)) (fun _ m' => I n m') E m := by
    intro d
    induction d with
    | zero =>
      intro k m hk hI
      obtain rfl : k = n := by omega
      rw [unmapLoop, if_neg (Nat.lt_irrefl _)]
      exact hI
    | succ d ih =>
      intro k m hk hI
      have hlt : (v + k) * PGSIZE < (v + n) * PGSIZE :=
        Nat.mul_lt_mul_of_pos_right (by omega) (by decide)
      have hnext : ((v + k) * PGSIZE + PGSIZE) % 2 ^ 64 = (v + (k + 1)) * PGSIZE := by
        unfold PGSIZE
        omega
      rw [unmapLoop, if_pos hlt, wp_bind, hnext]
      exact wp_post (hstep k m (by omega) hI) fun _ m' hm' => ih (k + 1) m' (by omega) hm'
  rw [uvmunmap, if_neg (not_not.mpr (Nat.mul_mod_left v PGSIZE)), hstop]
  exact hloop n 0 m (Nat.zero_add n) h

theorem wp_unmapPage (hv : v < 2 ^ 26) (hnone : entryPage (leaf m.mem r v) = none → Q ⟨⟩ m)
    (hsome : ∀ c t, entryPage (leaf m.mem r v) = some c → node (childOf m.mem) r (path v) = some t →
      wp (if doFree then kfree L c else pure ⟨⟩) (fun _ m' =>
        Q ⟨⟩ { m' with mem := putLE m'.mem (t + 8 * slot v) 8 0 }) E m) :
    wp (unmapPage L r (v * PGSIZE) doFree) Q E m := by
  have hdiv : v * PGSIZE / PGSIZE = v := Nat.mul_div_cancel v (by decide)
  have hva : v * PGSIZE < MAXVA := by
    unfold MAXVA PGSIZE
    omega
  rw [unmapPage, wp_bind, wp_walk_lookup hva, hdiv]
  cases ht : node (childOf m.mem) r (path v) with
  | none => exact hnone (entryPage_none.mpr (by rw [leaf_missing ht]; rfl))
  | some t =>
    have hload : getLE m.mem (t + 8 * slot v) 8 = leaf m.mem r v := (leaf_eq (by omega) ht).symm
    rw [Option.map_some, wp_bind, wp_loadPte, hload]
    by_cases hvalid : leaf m.mem r v &&& PTE_V = 0
    · rw [if_pos hvalid]
      exact hnone (entryPage_none.mpr hvalid)
    · rw [if_neg hvalid]
      have hpage : entryPage (leaf m.mem r v) = some (PTE2PA (leaf m.mem r v)) := by
        rw [entryPage, if_pos hvalid]
      have hrest := hsome _ t hpage ht
      cases doFree with
      | false =>
        rw [if_neg (by decide), wp_pure] at hrest
        simp only [Bool.false_eq_true, if_false, wp_storePte]
        exact hrest
      | true =>
        rw [if_pos rfl] at hrest
        simp only [if_true, wp_bind, wp_storePte]
        exact hrest

end Unmap

section User

variable [DecidableEq ι] [DecidableEq τ] {L : Layout} {B : Books ι τ} {m : Phys}
  {own : Nat → Option (Use ι τ)} {i : ι} {b : τ} {r v n : Nat} {E : VmPanic → Prop}

structure Cleared (L : Layout) (B : Books ι τ) (i : ι) (r v n : Nat) (m : Phys)
    (own : Nat → Option (Use ι τ)) (m' : Phys) : Prop where
  frames : Frames L B m' own
  near : Local L (tablesOf i) m own m' own
  off : ∀ w, v ≤ w → w < v + n → entryPage (leaf m'.mem r w) = none
  keep : ∀ w, ¬ (v ≤ w ∧ w < v + n) → leaf m'.mem r w = leaf m.mem r w

theorem uvmunmap_high (F : Frames L B m own) (hr : B.root i = some r) (htop : B.top i ≤ v)
    (hv : v + n ≤ 2 ^ 26) :
    wp (uvmunmap L r (v * PGSIZE) n false) (fun _ m' => Cleared L B i r v n m own m') E m := by
  refine wp_uvmunmap (I := fun k m' => Cleared L B i r v k m own m') hv ?_ ?_
  · intro k m' hk h
    refine wp_unmapPage (by omega) ?_ ?_
    · intro hnone
      refine ⟨h.frames, h.near, ?_, fun w hw => h.keep w (by omega)⟩
      intro w hw hw'
      by_cases hwk : w = v + k
      · rwa [hwk]
      · exact h.off w hw (by omega)
    · intro c t _ ht
      rw [if_neg (by decide), wp_pure]
      have hstored := h.frames.leafStored hr (by omega) ht (x := 0) (by decide)
      refine ⟨h.frames.keep_leaf hr (fun hlow => absurd hlow (by omega)) hstored,
        h.near.trans (h.frames.local_store hr le_rfl ht (slot (v + k)) 0), ?_, ?_⟩
      · intro w hw hw'
        rw [hstored.here]
        split_ifs with hwk
        · rfl
        · exact h.off w hw (by omega)
      · intro w hw
        rw [hstored.here, if_neg (by omega), h.keep w (by omega)]
  · exact ⟨F, Local.refl L _ m own, fun w hw hw' => absurd hw' (by omega), fun w _ => rfl⟩

end User

end OsProject.Vm
