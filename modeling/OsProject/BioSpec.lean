import Mathlib.Data.Fintype.EquivFin
import OsProject.Bio

/-! What the functions of the buffer cache do to the references and locks on blocks. -/

namespace OsProject

/-- `held` lists the references to blocks of `ROOTDEV`, each as often as it is held, and `locks`
the blocks whose buffers are locked. -/
structure Refs (s : Bio) (held locks : List Nat) : Prop where
  ring : s.ring.Perm (List.finRange NBUF)
  unique : ∀ i j, (s.buf i).dev = ROOTDEV → (s.buf j).IsBlock ROOTDEV (s.buf i).blockno → i = j
  refs : ∀ i, (s.buf i).refcnt =
    if (s.buf i).dev = ROOTDEV then UInt32.ofNat (held.count (s.buf i).blockno) else 0
  cached : ∀ b ∈ held, ∃ i, (s.buf i).IsBlock ROOTDEV b
  locked : ∀ i, (s.buf i).locked = true ↔ (s.buf i).dev = ROOTDEV ∧ (s.buf i).blockno ∈ locks
  sub : locks ⊆ held
  bound : held.length < 2 ^ 32

def Keeps (held : List Nat) (s s' : Bio) : Prop :=
  ∀ i, ∀ b ∈ held, (s.buf i).IsBlock ROOTDEV b → (s'.buf i).IsBlock ROOTDEV b

theorem Keeps.trans {held : List Nat} {s s' s'' : Bio} (h : Keeps held s s')
    (h' : Keeps held s' s'') : Keeps held s s'' := fun i b hb hi => h' i b hb (h i b hb hi)

variable {s : Bio} {held locks : List Nat} {b : Nat} {i : Fin NBUF}

theorem Refs.mem_ring (h : Refs s held locks) (i : Fin NBUF) : i ∈ s.ring :=
  h.ring.mem_iff.mpr (List.mem_finRange i)

theorem ofNat_count_eq_zero {held : List Nat} (hb : held.length < 2 ^ 32) (b : Nat) :
    UInt32.ofNat (held.count b) = 0 ↔ b ∉ held := by
  have hle : held.count b ≤ held.length := List.count_le_length
  rw [← List.count_eq_zero]
  constructor
  · intro h
    have hn := congrArg UInt32.toNat h
    have hsize : UInt32.size = 2 ^ 32 := rfl
    rwa [UInt32.toNat_ofNat_of_lt' (by omega)] at hn
  · intro h
    rw [h]
    rfl

theorem Refs.free_iff (h : Refs s held locks) (i : Fin NBUF) :
    (s.buf i).refcnt = 0 ↔ ¬ ((s.buf i).dev = ROOTDEV ∧ (s.buf i).blockno ∈ held) := by
  rw [h.refs]
  split_ifs with hd
  · rw [ofNat_count_eq_zero h.bound]
    simp [hd]
  · simp [hd]

theorem Refs.full_iff (h : Refs s held locks) :
    (∀ i, (s.buf i).refcnt ≠ 0) ↔ NBUF ≤ held.toFinset.card := by
  constructor
  · intro hall
    have huse : ∀ i, (s.buf i).dev = ROOTDEV ∧ (s.buf i).blockno ∈ held := fun i => by
      by_contra hn
      exact hall i ((h.free_iff i).mpr hn)
    have hinj : Function.Injective fun i => (s.buf i).blockno := fun i j he =>
      h.unique i j (huse i).1 ⟨(huse j).1, he.symm⟩
    have hsub : Finset.univ.image (fun i => (s.buf i).blockno) ⊆ held.toFinset := by
      intro b hb
      obtain ⟨i, -, rfl⟩ := Finset.mem_image.mp hb
      exact List.mem_toFinset.mpr (huse i).2
    have hcard := Finset.card_le_card hsub
    rwa [Finset.card_image_of_injective _ hinj, Finset.card_univ, Fintype.card_fin] at hcard
  · intro hcard i hfree
    rw [h.free_iff] at hfree
    have hsub : held.toFinset ⊆ (Finset.univ.erase i).image fun j => (s.buf j).blockno := by
      intro b hb
      rw [List.mem_toFinset] at hb
      obtain ⟨j, hd, rfl⟩ := h.cached b hb
      have hne : j ≠ i := by
        rintro rfl
        exact hfree ⟨hd, hb⟩
      exact Finset.mem_image.mpr ⟨j, Finset.mem_erase.mpr ⟨hne, Finset.mem_univ j⟩, rfl⟩
    have hle := (Finset.card_le_card hsub).trans Finset.card_image_le
    rw [Finset.card_erase_of_mem (Finset.mem_univ i), Finset.card_univ, Fintype.card_fin] at hle
    have hpos : 0 < NBUF := by decide
    omega

theorem Refs.setBuf (h : Refs s held locks) {x : Buf} {held' locks' : List Nat}
    (hx : x.IsBlock ROOTDEV b)
    (hown : (s.buf i).IsBlock ROOTDEV b ∨
      (s.buf i).refcnt = 0 ∧ ∀ j, ¬ (s.buf j).IsBlock ROOTDEV b)
    (hrefs : x.refcnt = UInt32.ofNat (held'.count b)) (hlocked : x.locked = true ↔ b ∈ locks')
    (hheld : ∀ b', b' ≠ b → held'.count b' = held.count b')
    (hlocks : ∀ b', b' ≠ b → (b' ∈ locks' ↔ b' ∈ locks)) (hsub : locks' ⊆ held')
    (hbound : held'.length < 2 ^ 32) : Refs (s.setBuf i x) held' locks' := by
  have hother : ∀ j, j ≠ i → ¬ (s.buf j).IsBlock ROOTDEV b := by
    rintro j hj hb
    rcases hown with hi | ⟨-, hno⟩
    · exact hj (h.unique i j hi.1 (hi.2 ▸ hb)).symm
    · exact hno j hb
  have hself : (s.setBuf i x).buf i = x := s.setBuf_same i x
  have hrest : ∀ j, j ≠ i → (s.setBuf i x).buf j = s.buf j := fun j hj => s.setBuf_of_ne hj x
  refine ⟨h.ring, fun j k hj hk => ?_, fun j => ?_, fun b' hb' => ?_, fun j => ?_, hsub, hbound⟩
  · by_cases hji : j = i <;> by_cases hki : k = i
    · rw [hji, hki]
    · rw [hji, hself, hrest k hki, hx.2] at hk
      exact absurd hk (hother k hki)
    · rw [hrest j hji] at hj hk
      rw [hki, hself] at hk
      exact absurd ⟨hj, hk.2.symm.trans hx.2⟩ (hother j hji)
    · rw [hrest j hji] at hj hk
      rw [hrest k hki] at hk
      exact h.unique j k hj hk
  · by_cases hji : j = i
    · rw [hji, hself, if_pos hx.1, hx.2, hrefs]
    · rw [hrest j hji, h.refs]
      split_ifs with hd
      · rw [hheld _ fun he => hother j hji ⟨hd, he⟩]
      · rfl
  · by_cases hb : b' = b
    · exact ⟨i, by rw [hself, hb]; exact hx⟩
    · have hmem : b' ∈ held := List.count_pos_iff.mp (hheld b' hb ▸ List.count_pos_iff.mpr hb')
      obtain ⟨j, hj⟩ := h.cached b' hmem
      have hji : j ≠ i := by
        rintro rfl
        rcases hown with hi | ⟨hz, -⟩
        · exact hb (hj.2.symm.trans hi.2)
        · exact (h.free_iff j).mp hz ⟨hj.1, hj.2 ▸ hmem⟩
      exact ⟨j, by rwa [hrest j hji]⟩
  · by_cases hji : j = i
    · rw [hji, hself, hx.1, hx.2, hlocked]
      simp
    · rw [hrest j hji, h.locked]
      refine and_congr_right fun hd => (hlocks _ fun he => hother j hji ⟨hd, he⟩).symm

theorem Refs.congr (h : Refs s held locks) {s' : Bio} (hring : s'.ring.Perm s.ring)
    (hbuf : ∀ j, (s'.buf j).dev = (s.buf j).dev ∧ (s'.buf j).blockno = (s.buf j).blockno ∧
      (s'.buf j).refcnt = (s.buf j).refcnt ∧ (s'.buf j).locked = (s.buf j).locked) :
    Refs s' held locks := by
  refine ⟨hring.trans h.ring, fun i j hi hj => ?_, fun i => ?_, fun b hb => ?_, fun i => ?_, h.sub,
    h.bound⟩
  · refine h.unique i j ((hbuf i).1 ▸ hi) ⟨(hbuf j).1 ▸ hj.1, ?_⟩
    rw [← (hbuf j).2.1, ← (hbuf i).2.1]
    exact hj.2
  · rw [(hbuf i).1, (hbuf i).2.1, (hbuf i).2.2.1]
    exact h.refs i
  · obtain ⟨i, hd, hn⟩ := h.cached b hb
    exact ⟨i, (hbuf i).1.trans hd, (hbuf i).2.1.trans hn⟩
  · rw [(hbuf i).1, (hbuf i).2.1, (hbuf i).2.2.2]
    exact h.locked i

theorem Refs.perm (h : Refs s held locks) {held' locks' : List Nat} (hheld : held.Perm held')
    (hlocks : locks.Perm locks') : Refs s held' locks' := by
  refine ⟨h.ring, h.unique, fun i => ?_, fun b hb => h.cached b (hheld.mem_iff.mpr hb), fun i => ?_,
    fun b hb => hheld.mem_iff.mp (h.sub (hlocks.mem_iff.mpr hb)), hheld.length_eq ▸ h.bound⟩
  · rw [h.refs, hheld.count_eq]
  · rw [h.locked, hlocks.mem_iff]

theorem Refs.setData (h : Refs s held locks) (i : Fin NBUF) (data : Block) (valid : Bool) :
    Refs (s.setBuf i { s.buf i with data := data, valid := valid }) held locks := by
  refine h.congr (List.Perm.refl _) fun j => ?_
  by_cases hj : j = i
  · rw [hj, Bio.setBuf_same]
    exact ⟨rfl, rfl, rfl, rfl⟩
  · rw [s.setBuf_of_ne hj]
    exact ⟨rfl, rfl, rfl, rfl⟩

theorem Refs.not_locked (h : Refs s held locks) (hb : b ∉ locks)
    (hi : (s.buf i).IsBlock ROOTDEV b) : (s.buf i).locked = false := by
  by_contra hl
  exact hb (hi.2 ▸ ((h.locked i).mp (by simpa using hl)).2)

theorem Refs.lock (h : Refs s held locks) {x : Buf} (hlen : held.length + 1 < 2 ^ 32)
    (hx : x.IsBlock ROOTDEV b)
    (hown : (s.buf i).IsBlock ROOTDEV b ∨
      (s.buf i).refcnt = 0 ∧ ∀ j, ¬ (s.buf j).IsBlock ROOTDEV b)
    (hrefs : x.refcnt = UInt32.ofNat (held.count b) + 1) (hlocked : x.locked = true) :
    Refs (s.setBuf i x) (b :: held) (b :: locks) := by
  refine h.setBuf hx hown ?_ (by simp [hlocked]) (fun b' hne => ?_) (fun b' hne => ?_)
    (List.cons_subset_cons b h.sub) hlen
  · rw [hrefs, List.count_cons_self, UInt32.ofNat_add]
    rfl
  · exact List.count_cons_of_ne (Ne.symm hne)
  · simp [hne]

theorem keeps_setBuf {x : Buf} (hx : x.dev = (s.buf i).dev ∧ x.blockno = (s.buf i).blockno) :
    Keeps held s (s.setBuf i x) := by
  intro j b _ hj
  by_cases hji : j = i
  · subst hji
    rw [s.setBuf_same]
    exact ⟨hx.1.trans hj.1, hx.2.trans hj.2⟩
  · rwa [s.setBuf_of_ne hji]

theorem bget_spec (h : Refs s held locks) (hb : b ∉ locks) (hlen : held.length + 1 < 2 ^ 32)
    (hroom : b ∈ held ∨ held.toFinset.card < NBUF) :
    wp (Bio.bget ROOTDEV b) (fun i s' => Refs s' (b :: held) (b :: locks) ∧
      (s'.buf i).IsBlock ROOTDEV b ∧ Keeps held s s') (fun _ => False) s := by
  simp only [Bio.bget, Bio.acquiresleep, wp_bind, wp_get]
  cases hhit : s.ring.find? fun i => decide ((s.buf i).IsBlock ROOTDEV b) with
  | some i =>
    have hi : (s.buf i).IsBlock ROOTDEV b := by simpa using List.find?_some hhit
    simp only [wp_bind, wp_set, wp_get, wp_ite, wp_pure, wp_throw, Bio.setBuf_same,
      Bio.setBuf_setBuf, h.not_locked hb hi, Bool.false_eq_true, false_imp_iff, true_and,
      not_false_eq_true, true_imp_iff]
    refine ⟨h.lock hlen hi (.inl hi) ?_ rfl, hi, keeps_setBuf ⟨rfl, rfl⟩⟩
    rw [h.refs, if_pos hi.1, hi.2]
  | none =>
    have hno : ∀ j, ¬ (s.buf j).IsBlock ROOTDEV b := fun j hj => by
      have hn := List.find?_eq_none.mp hhit j (h.mem_ring j)
      simp [hj] at hn
    have hnot : b ∉ held := fun hmem => by
      obtain ⟨j, hj⟩ := h.cached b hmem
      exact hno j hj
    simp only
    cases hfree : s.ring.reverse.find? fun i => decide ((s.buf i).refcnt = 0) with
    | none =>
      have hall : ∀ i, (s.buf i).refcnt ≠ 0 := fun i => by
        have hn := List.find?_eq_none.mp hfree i (List.mem_reverse.mpr (h.mem_ring i))
        simpa using hn
      have hcard := h.full_iff.mp hall
      have hlt := hroom.resolve_left hnot
      omega
    | some i =>
      have hz : (s.buf i).refcnt = 0 := by simpa using List.find?_some hfree
      have hl : (s.buf i).locked = false := by
        by_contra hl
        have hlk := (h.locked i).mp (by simpa using hl)
        exact (h.free_iff i).mp hz ⟨hlk.1, h.sub hlk.2⟩
      simp only [wp_bind, wp_set, wp_get, wp_ite, wp_pure, wp_throw, Bio.setBuf_same,
        Bio.setBuf_setBuf, hl, Bool.false_eq_true, false_imp_iff, true_and, not_false_eq_true,
        true_imp_iff]
      refine ⟨h.lock hlen ⟨rfl, rfl⟩ (.inr ⟨hz, hno⟩) ?_ rfl, ⟨rfl, rfl⟩, fun j b' hb' hj => ?_⟩
      · rw [List.count_eq_zero.mpr hnot]
        rfl
      · have hji : j ≠ i := by
          rintro rfl
          exact (h.free_iff j).mp hz ⟨hj.1, hj.2 ▸ hb'⟩
        rwa [s.setBuf_of_ne hji]

theorem bread_full (h : Refs s held locks) (hb : b ∉ held) (hfull : NBUF ≤ held.toFinset.card) :
    Bio.bread ROOTDEV b s = .error .noBuffers := by
  have hall := h.full_iff.mpr hfull
  have hhit : s.ring.find? (fun i => decide ((s.buf i).IsBlock ROOTDEV b)) = none := by
    refine List.find?_eq_none.mpr fun i _ => ?_
    have huse : (s.buf i).dev = ROOTDEV ∧ (s.buf i).blockno ∈ held := by
      by_contra hn
      exact hall i ((h.free_iff i).mpr hn)
    intro hd
    exact hb ((of_decide_eq_true hd).2 ▸ huse.2)
  have hfree : s.ring.reverse.find? (fun i => decide ((s.buf i).refcnt = 0)) = none :=
    List.find?_eq_none.mpr fun i _ => by simpa using hall i
  have hget : Bio.bget ROOTDEV b s = .error .noBuffers := by
    simp only [Bio.bget, bind, StateT.bind, Except.bind, get, getThe, MonadStateOf.get, StateT.get,
      pure, Except.pure, hhit, hfree]
    rfl
  exact bind_of_error hget

theorem bread_spec (h : Refs s held locks) (hb : b ∉ locks) (hlen : held.length + 1 < 2 ^ 32)
    (hroom : b ∈ held ∨ held.toFinset.card < NBUF) :
    wp (Bio.bread ROOTDEV b) (fun i s' => Refs s' (b :: held) (b :: locks) ∧
      (s'.buf i).IsBlock ROOTDEV b ∧ Keeps held s s') (fun _ => False) s := by
  simp only [Bio.bread, wp_bind]
  refine wp_post (bget_spec h hb hlen hroom) ?_
  rintro i s1 ⟨h1, hi, hk⟩
  simp only [wp_bind, wp_get, wp_ite, wp_pure, wp_set]
  refine ⟨fun _ => ⟨h1, hi, hk⟩, fun _ => ⟨h1.setData i _ true, ?_,
    hk.trans (keeps_setBuf ⟨rfl, rfl⟩)⟩⟩
  rw [Bio.setBuf_same]
  exact hi

theorem store_spec (h : Refs s held locks) (i : Fin NBUF) (data : Bio → Block) :
    wp (Bio.store i data) (fun _ s' => Refs s' held locks ∧ Keeps held s s')
      (fun _ => False) s := by
  simp only [Bio.store, wp_modify]
  exact ⟨h.setData i (data s) (s.buf i).valid, keeps_setBuf ⟨rfl, rfl⟩⟩

theorem bwrite_spec (h : Refs s held locks) (hi : (s.buf i).IsBlock ROOTDEV b) (hb : b ∈ locks) :
    wp (Bio.bwrite i) (fun _ s' => Refs s' held locks ∧ Keeps held s s') (fun _ => False) s := by
  have hl : (s.buf i).locked = true := (h.locked i).mpr ⟨hi.1, hi.2 ▸ hb⟩
  simp only [Bio.bwrite, wp_bind, wp_get, wp_ite, hl, true_imp_iff, wp_set, not_true_eq_false,
    false_imp_iff, and_true]
  exact ⟨h.congr (List.Perm.refl _) fun _ => ⟨rfl, rfl, rfl, rfl⟩, fun _ _ _ hj => hj⟩

theorem Refs.drop (h : Refs s (b :: held) locks) {x : Buf} {locks' : List Nat}
    (hi : (s.buf i).IsBlock ROOTDEV b) (hx : x.IsBlock ROOTDEV b)
    (hrefs : x.refcnt = (s.buf i).refcnt - 1) (hlocked : x.locked = true ↔ b ∈ locks')
    (hlocks : ∀ b', b' ≠ b → (b' ∈ locks' ↔ b' ∈ locks)) (hsub : locks' ⊆ held) :
    Refs (s.setBuf i x) held locks' := by
  have hbound := h.bound
  rw [List.length_cons] at hbound
  refine h.setBuf hx (.inl hi) ?_ hlocked (fun b' hne => ?_) hlocks hsub (by omega)
  · rw [hrefs, h.refs, if_pos hi.1, hi.2, List.count_cons_self, UInt32.ofNat_add]
    exact add_sub_cancel_right _ _
  · exact (List.count_cons_of_ne (Ne.symm hne)).symm

theorem brelse_spec (h : Refs s (b :: held) (b :: locks)) (hb : b ∉ locks)
    (hsub : locks ⊆ held) (hi : (s.buf i).IsBlock ROOTDEV b) :
    wp (Bio.brelse i) (fun _ s' => Refs s' held locks ∧ Keeps held s s') (fun _ => False) s := by
  have hl : (s.buf i).locked = true := (h.locked i).mpr ⟨hi.1, by simp [hi.2]⟩
  simp only [Bio.brelse, wp_bind, wp_get, wp_ite, hl, true_imp_iff, wp_set, not_true_eq_false,
    false_imp_iff, and_true]
  have hdrop : Refs (s.setBuf i { s.buf i with
      locked := false, refcnt := (s.buf i).refcnt - 1 }) held locks :=
    h.drop hi hi rfl (by simp [hb]) (fun b' hne => by simp [hne]) hsub
  split_ifs with hz
  · refine ⟨hdrop.congr ?_ fun _ => ⟨rfl, rfl, rfl, rfl⟩, keeps_setBuf (x := _) ⟨rfl, rfl⟩⟩
    exact (List.perm_cons_erase (h.mem_ring i)).symm
  · exact ⟨hdrop, keeps_setBuf ⟨rfl, rfl⟩⟩

theorem bunpin_spec (h : Refs s (b :: held) locks) (hsub : locks ⊆ held)
    (hi : (s.buf i).IsBlock ROOTDEV b) :
    wp (Bio.bunpin i) (fun _ s' => Refs s' held locks ∧ Keeps held s s') (fun _ => False) s := by
  simp only [Bio.bunpin, wp_modify]
  refine ⟨h.drop hi hi rfl ?_ (fun _ _ => Iff.rfl) hsub, keeps_setBuf ⟨rfl, rfl⟩⟩
  rw [h.locked, hi.2]
  exact and_iff_right hi.1

theorem bpin_spec (h : Refs s held locks) (hlen : held.length + 1 < 2 ^ 32)
    (hi : (s.buf i).IsBlock ROOTDEV b) :
    wp (Bio.bpin i) (fun _ s' => Refs s' (b :: held) locks ∧ Keeps held s s') (fun _ => False) s := by
  simp only [Bio.bpin, wp_modify]
  refine ⟨h.setBuf hi (.inl hi) ?_ ?_ (fun b' hne => ?_) (fun _ _ => Iff.rfl) ?_ hlen,
    keeps_setBuf ⟨rfl, rfl⟩⟩
  · rw [h.refs, if_pos hi.1, hi.2, List.count_cons_self, UInt32.ofNat_add]
    rfl
  · rw [h.locked, hi.2]
    exact and_iff_right hi.1
  · exact List.count_cons_of_ne (Ne.symm hne)
  · exact List.Subset.trans h.sub (List.subset_cons_self b held)

end OsProject
