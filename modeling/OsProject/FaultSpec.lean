import OsProject.UvmSpec

/-! `walkaddr` and `vmfault`: the page behind a user address, which is allocated when the address
is below the size of the process and not mapped yet. -/

namespace OsProject.Vm

variable {ι τ : Type} [DecidableEq ι] [DecidableEq τ] {L : Layout} {B : Books ι τ} {m : Phys}
  {own : Nat → Option (Use ι τ)} {i : ι} {b : τ} {r sz va v : Nat} {E : VmPanic → Prop}

omit [DecidableEq ι] [DecidableEq τ] in
theorem Layout.Page.pos {p : Nat} (h : L.Page p) : 0 < p := by
  have h1 := L.base
  have h2 := L.text
  have h3 := L.data
  have h4 := h.2.1
  unfold KERNBASE at h1
  omega

def userAddr (mem : Buffer) (r v : Nat) : Option Nat :=
  if leaf mem r v &&& PTE_U ≠ 0 then entryPage (leaf mem r v) else none

omit [DecidableEq ι] [DecidableEq τ] in
theorem wp_walkaddr {Q : Nat → Phys → Prop} :
    wp (walkaddr r va) Q E m ↔
      Q (if va < MAXVA then (userAddr m.mem r (va / PGSIZE)).getD 0 else 0) m := by
  rw [walkaddr]
  by_cases hva : va < MAXVA
  · have hv : va / PGSIZE < 2 ^ 27 := by
      unfold MAXVA at hva
      unfold PGSIZE
      omega
    rw [if_neg (Nat.not_le.mpr hva), if_pos hva, wp_bind, wp_walk_lookup hva]
    cases ht : node (childOf m.mem) r (path (va / PGSIZE)) with
    | none =>
      rw [userAddr, leaf_missing ht]
      rfl
    | some t =>
      have hload : getLE m.mem (t + 8 * slot (va / PGSIZE)) 8 = leaf m.mem r (va / PGSIZE) :=
        (leaf_eq hv ht).symm
      rw [Option.map_some, wp_bind, wp_loadPte, hload, userAddr, entryPage]
      by_cases hvalid : leaf m.mem r (va / PGSIZE) &&& PTE_V = 0
      · rw [if_pos hvalid, if_neg (not_not.mpr hvalid), ite_self]
        rfl
      · by_cases huser : leaf m.mem r (va / PGSIZE) &&& PTE_U = 0
        · rw [if_neg hvalid, if_pos huser, if_neg (not_not.mpr huser)]
          rfl
        · rw [if_neg hvalid, if_neg huser, if_pos huser, if_pos hvalid]
          rfl
  · rw [if_pos (Nat.not_lt.mp hva), if_neg hva]
    rfl

omit [DecidableEq ι] [DecidableEq τ] in
theorem wp_ismapped {Q : Bool → Phys → Prop} (hva : va < MAXVA) :
    wp (ismapped r va) Q E m ↔ Q (decide (leaf m.mem r (va / PGSIZE) &&& PTE_V ≠ 0)) m := by
  have hv : va / PGSIZE < 2 ^ 27 := by
    unfold MAXVA at hva
    unfold PGSIZE
    omega
  rw [ismapped, wp_bind, wp_walk_lookup hva]
  cases ht : node (childOf m.mem) r (path (va / PGSIZE)) with
  | none =>
    rw [leaf_missing ht]
    rfl
  | some t =>
    have hload : getLE m.mem (t + 8 * slot (va / PGSIZE)) 8 = leaf m.mem r (va / PGSIZE) :=
      (leaf_eq hv ht).symm
    rw [Option.map_some, wp_bind, wp_loadPte, hload]
    rfl

/-- What a page that `vmfault` has mapped shows. -/
def faulted : Nat × PageData := (PTE_W ||| PTE_U ||| PTE_R ||| PTE_V, zeroData)

theorem vmfault_spec {Q : Nat → Phys → Prop} (F : Frames L B m own) (hr : B.root i = some r)
    (htop : B.top i ≤ 2 ^ 26) (hsz : sz ≤ B.top i * PGSIZE) (hb : B.held b = none)
    (hbad : sz ≤ va ∨ view m.mem r (va / PGSIZE) ≠ none → Q 0 m)
    (hfail : ∀ m' own', va < sz → view m.mem r (va / PGSIZE) = none →
      Edited L B B i b r m own m' own' (view m.mem r) → (∀ w, leaf m'.mem r w = leaf m.mem r w) →
      m.freelist.length < 1 + (lacking m.mem r {va / PGSIZE}).card → Q 0 m')
    (hok : ∀ c m' own', va < sz → view m.mem r (va / PGSIZE) = none →
      Edited L B B i b r m own m' own'
        (Function.update (view m.mem r) (va / PGSIZE) (some faulted)) →
      Placed m.mem m'.mem r (va / PGSIZE) c →
      NewTables m.mem m'.mem r (onPath (va / PGSIZE)) →
      m.freelist.length = 1 + (lacking m.mem r {va / PGSIZE}).card + m'.freelist.length →
      Q c m') :
    wp (vmfault L ⟨r, sz⟩ r va) Q E m := by
  rw [vmfault]
  by_cases hlt : va < sz
  · have hv : va / PGSIZE < B.top i := by
      unfold PGSIZE at *
      omega
    have hround : PGROUNDDOWN va = va / PGSIZE * PGSIZE := rfl
    have hdiv : va / PGSIZE * PGSIZE / PGSIZE = va / PGSIZE := Nat.mul_div_cancel _ (by decide)
    have hmax : va / PGSIZE * PGSIZE < MAXVA := by
      unfold MAXVA PGSIZE at *
      omega
    rw [if_neg (by simpa using hlt)]
    simp only [hround]
    rw [wp_bind, wp_ismapped hmax, hdiv]
    by_cases hvalid : leaf m.mem r (va / PGSIZE) &&& PTE_V = 0
    · have hnone : view m.mem r (va / PGSIZE) = none :=
        view_none.mpr (entryPage_none.mpr hvalid)
      rw [if_neg (by simpa using hvalid), wp_bind]
      refine mapNew_spec F hr hv htop hvalid hb (by decide) (fun c hc _ => fillZero_page m c hc) ?_ ?_
      · exact fun m' own' hedited hleaf hlen => hfail m' own' hlt hnone hedited hleaf hlen
      · exact fun c m' own' hedited hpage hnew hlen =>
          hok c m' own' hlt hnone hedited hpage hnew hlen
    · rw [if_pos (by simpa using hvalid)]
      refine hbad (.inr fun hnone => hvalid ?_)
      exact entryPage_none.mp (view_none.mp hnone)
  · rw [if_pos (by simpa using hlt)]
    exact hbad (.inl (by omega))

end OsProject.Vm
