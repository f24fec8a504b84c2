import OsProject.FaultSpec

/-! The pages that a copy between kernel and user space touches, which of them it may use, and how
much memory it takes to fault in the missing ones. -/

namespace OsProject.Vm

/-- The pages of the `len` bytes from `va`. -/
def touched (va len : Nat) : Finset Nat := (Finset.range len).image fun k => (va + k) / PGSIZE

def chunk (va len : Nat) : Nat := min (PGSIZE - (va - PGROUNDDOWN va)) len

def flagsOf (mem : Buffer) (r w : Nat) : Option Nat := (view mem r w).map Prod.fst

/-- A page that is mapped with flags in `ok`, or missing and below the size of the process. -/
def Usable (ok : Nat → Prop) (f : Nat → Option Nat) (sz w : Nat) : Prop :=
  (∃ fl, f w = some fl ∧ ok fl) ∨ f w = none ∧ w * PGSIZE < sz

/-- The pages of `vs` that are missing. -/
def missing (mem : Buffer) (r : Nat) (vs : Finset Nat) : Finset Nat :=
  vs.filter fun w => flagsOf mem r w = none

/-- The memory that it takes to fault in the missing pages: a page for each, and the tables. -/
def need (mem : Buffer) (r : Nat) (vs : Finset Nat) : Nat :=
  (missing mem r vs).card + (lacking mem r (missing mem r vs)).card

/-- All the pages can be used, and there is memory for those that are missing. -/
def Admits (ok : Nat → Prop) (r sz : Nat) (m : Phys) (vs : Finset Nat) : Prop :=
  (∀ w ∈ vs, Usable ok (flagsOf m.mem r) sz w) ∧ need m.mem r vs ≤ m.freelist.length

section Touched

variable {va len : Nat}

theorem chunk_pos (va : Nat) (h : 0 < len) : 0 < chunk va len := by
  unfold chunk PGROUNDDOWN PGSIZE
  omega

theorem chunk_le : chunk va len ≤ len := Nat.min_le_right _ _

theorem mem_touched {w : Nat} : w ∈ touched va len ↔ ∃ k < len, (va + k) / PGSIZE = w := by
  simp [touched]

theorem touched_zero (va : Nat) : touched va 0 = ∅ := rfl

theorem touched_chunk (h : 0 < len) : touched va (chunk va len) = {va / PGSIZE} := by
  ext w
  rw [mem_touched, Finset.mem_singleton]
  constructor
  · rintro ⟨k, hk, rfl⟩
    unfold chunk PGROUNDDOWN PGSIZE at *
    omega
  · rintro rfl
    exact ⟨0, chunk_pos va h, by rw [Nat.add_zero]⟩

theorem touched_split {n : Nat} (h : n ≤ len) :
    touched va len = touched va n ∪ touched (va + n) (len - n) := by
  ext w
  rw [Finset.mem_union, mem_touched, mem_touched, mem_touched]
  constructor
  · rintro ⟨k, hk, hw⟩
    by_cases hkn : k < n
    · exact .inl ⟨k, hkn, hw⟩
    · refine .inr ⟨k - n, by omega, ?_⟩
      rwa [Nat.add_assoc, Nat.add_sub_cancel' (by omega)]
  · rintro (⟨k, hk, hw⟩ | ⟨k, hk, hw⟩)
    · exact ⟨k, by omega, hw⟩
    · exact ⟨n + k, by omega, by rwa [← Nat.add_assoc]⟩

theorem touched_next (h : chunk va len < len) : va + chunk va len = (va / PGSIZE + 1) * PGSIZE := by
  unfold chunk PGROUNDDOWN PGSIZE at *
  omega

theorem touched_add {k : Nat} (h : 0 < len) (hk : k ≤ len - chunk va len) :
    touched va (chunk va len + k) =
      insert (va / PGSIZE) (touched ((va / PGSIZE + 1) * PGSIZE) k) := by
  rw [touched_split (Nat.le_add_right _ _), touched_chunk h, Finset.insert_eq, Nat.add_sub_cancel_left]
  by_cases hk0 : k = 0
  · rw [hk0, touched_zero, touched_zero]
  · rw [touched_next (by omega)]

theorem touched_insert (h : 0 < len) : touched va len =
    insert (va / PGSIZE) (touched ((va / PGSIZE + 1) * PGSIZE) (len - chunk va len)) := by
  rw [← touched_add h le_rfl, Nat.add_sub_cancel' chunk_le]

theorem not_touched_next (v len : Nat) : v ∉ touched ((v + 1) * PGSIZE) len := by
  rw [mem_touched]
  rintro ⟨k, -, hk⟩
  unfold PGSIZE at hk
  omega

end Touched

section Need

variable {mem mem' : Buffer} {r v sz : Nat} {vs : Finset Nat} {ok : Nat → Prop}

theorem need_mapped (hv : flagsOf mem r v ≠ none) : need mem r (insert v vs) = need mem r vs := by
  rw [need, need, missing, Finset.filter_insert, if_neg hv]
  rfl

theorem need_missing (hv : flagsOf mem r v = none) (hnot : v ∉ vs)
    (hnew : NewTables mem mem' r (onPath v)) (hsame : ∀ w ∈ vs, flagsOf mem' r w = flagsOf mem r w) :
    need mem r (insert v vs) = 1 + (lacking mem r {v}).card + need mem' r vs := by
  have hmissing : missing mem' r vs = missing mem r vs :=
    Finset.filter_congr fun w hw => by rw [hsame w hw]
  have hinsert : missing mem r (insert v vs) = insert v (missing mem r vs) := by
    rw [missing, Finset.filter_insert, if_pos hv]
    rfl
  have hnot' : v ∉ missing mem r vs := fun h => hnot (Finset.mem_of_mem_filter v h)
  rw [need, need, hinsert, Finset.card_insert_of_notMem hnot', card_lacking_insert hnew, hmissing]
  omega

theorem need_congr (hnode : ∀ q, q.length ≤ 2 → node (childOf mem') r q = node (childOf mem) r q)
    (hsame : ∀ w ∈ vs, flagsOf mem' r w = flagsOf mem r w) : need mem' r vs = need mem r vs := by
  have hmissing : missing mem' r vs = missing mem r vs :=
    Finset.filter_congr fun w hw => by rw [hsame w hw]
  have hlacking : lacking mem' r (missing mem r vs) = lacking mem r (missing mem r vs) := by
    refine Finset.filter_congr fun q hq => ?_
    obtain ⟨w, -, hw⟩ := Finset.mem_biUnion.mp hq
    rw [hnode q (length_onPath hw)]
  rw [need, need, hmissing, hlacking]

theorem Usable.congr {f g : Nat → Option Nat} {w : Nat} (h : g w = f w) :
    Usable ok g sz w ↔ Usable ok f sz w := by
  rw [Usable, Usable, h]

end Need

section Admits

variable {ok : Nat → Prop} {r v sz fl : Nat} {m m' : Phys} {vs : Finset Nat}

theorem admits_mapped (hv : flagsOf m.mem r v = some fl) (hok : ok fl)
    (hfree : m'.freelist.length = m.freelist.length)
    (hnode : ∀ q, q.length ≤ 2 → node (childOf m'.mem) r q = node (childOf m.mem) r q)
    (hsame : ∀ w ∈ vs, flagsOf m'.mem r w = flagsOf m.mem r w) :
    Admits ok r sz m (insert v vs) ↔ Admits ok r sz m' vs := by
  rw [Admits, Admits, need_mapped (by rw [hv]; simp), need_congr hnode hsame, hfree,
    Finset.forall_mem_insert]
  have husable : Usable ok (flagsOf m.mem r) sz v := .inl ⟨fl, hv, hok⟩
  rw [and_iff_right husable]
  refine and_congr_left fun _ => forall₂_congr fun w hw => ?_
  exact (Usable.congr (hsame w hw)).symm

theorem admits_missing (hv : flagsOf m.mem r v = none) (hsz : v * PGSIZE < sz) (hnot : v ∉ vs)
    (hfree : m.freelist.length = 1 + (lacking m.mem r {v}).card + m'.freelist.length)
    (hnew : NewTables m.mem m'.mem r (onPath v))
    (hsame : ∀ w ∈ vs, flagsOf m'.mem r w = flagsOf m.mem r w) :
    Admits ok r sz m (insert v vs) ↔ Admits ok r sz m' vs := by
  rw [Admits, Admits, need_missing hv hnot hnew hsame, hfree, Finset.forall_mem_insert]
  have husable : Usable ok (flagsOf m.mem r) sz v := .inr ⟨hv, hsz⟩
  rw [and_iff_right husable, Nat.add_le_add_iff_left]
  refine and_congr_left fun _ => forall₂_congr fun w hw => ?_
  exact (Usable.congr (hsame w hw)).symm

theorem not_admits_full (hv : flagsOf m.mem r v = none)
    (hlen : m.freelist.length < 1 + (lacking m.mem r {v}).card) :
    ¬ Admits ok r sz m (insert v vs) := by
  rintro ⟨-, hneed⟩
  have hmem : v ∈ missing m.mem r (insert v vs) :=
    Finset.mem_filter.mpr ⟨Finset.mem_insert_self v vs, hv⟩
  have hcard : 1 ≤ (missing m.mem r (insert v vs)).card := Finset.card_pos.mpr ⟨v, hmem⟩
  have hsub : (lacking m.mem r {v}).card ≤ (lacking m.mem r (missing m.mem r (insert v vs))).card := by
    refine Finset.card_le_card (Finset.filter_subset_filter _ ?_)
    exact Finset.biUnion_subset_biUnion_of_subset_left _ (Finset.singleton_subset_iff.mpr hmem)
  rw [need] at hneed
  omega

theorem not_admits_bad (hv : ¬ Usable ok (flagsOf m.mem r) sz v) :
    ¬ Admits ok r sz m (insert v vs) := fun h => hv (h.1 v (Finset.mem_insert_self v vs))

theorem admits_empty (ok : Nat → Prop) (r sz : Nat) (m : Phys) : Admits ok r sz m ∅ :=
  ⟨fun _ hw => absurd hw (Finset.notMem_empty _), by simp [need, missing, lacking]⟩

end Admits

end OsProject.Vm
