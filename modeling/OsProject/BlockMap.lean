import Mathlib.Data.Finset.Card
import Mathlib.Data.Finset.Range
import Mathlib.Data.Set.Insert
import Mathlib.Logic.Function.Basic

/-! Exclusive ownership of numbered blocks. Each place of type `P` holds a block number or 0,
`used` is an allocation bitmap, and the blocks below `lo` belong to nobody. The blocks in `loose`
are allocated and in no place: they are on their way into a place or back to the bitmap. -/

namespace OsProject

variable {P : Type*} {f : P → Nat} {used : Nat → Bool} {lo hi : Nat} {loose : Set Nat}

structure Owned (f : P → Nat) (used : Nat → Bool) (lo hi : Nat) (loose : Set Nat) : Prop where
  pos : 0 < lo
  range : ∀ x, f x ≠ 0 → lo ≤ f x ∧ f x < hi
  inj : ∀ x y, f x ≠ 0 → f x = f y → x = y
  used_iff : ∀ b < hi, used b = true ↔ b < lo ∨ (∃ x, f x = b) ∨ b ∈ loose
  loose_free : ∀ b ∈ loose, lo ≤ b ∧ b < hi ∧ ∀ x, f x ≠ b

theorem Owned.not_placed (h : Owned f used lo hi loose) {b : Nat} (hb : b < hi)
    (hu : used b = false) : lo ≤ b ∧ (∀ x, f x ≠ b) ∧ b ∉ loose := by
  have hn := (h.used_iff b hb).not.mp (by simp [hu])
  simp only [not_or, not_lt, not_exists] at hn
  exact hn

theorem Owned.take (h : Owned f used lo hi loose) {b : Nat} (hb : b < hi)
    (hu : used b = false) : Owned f (Function.update used b true) lo hi (insert b loose) where
  pos := h.pos
  range := h.range
  inj := h.inj
  used_iff c hc := by
    by_cases hcb : c = b
    · simp [hcb]
    · simp [hcb, h.used_iff c hc]
  loose_free c hc := by
    rcases Set.mem_insert_iff.mp hc with rfl | hc
    · obtain ⟨hlo, hf, -⟩ := h.not_placed hb hu
      exact ⟨hlo, hb, hf⟩
    · exact h.loose_free c hc

theorem Owned.put [DecidableEq P] {b : Nat} (h : Owned f used lo hi {b}) {x : P}
    (hx : f x = 0) : Owned (Function.update f x b) used lo hi ∅ := by
  obtain ⟨hlo, hhi, hfree⟩ := h.loose_free b rfl
  have hpos := h.pos
  refine ⟨h.pos, fun y hy => ?_, fun y z hy hyz => ?_, fun c hc => ?_, by simp⟩
  · by_cases hyx : y = x
    · subst hyx
      simpa using ⟨hlo, hhi⟩
    · rw [Function.update_of_ne hyx] at hy ⊢
      exact h.range y hy
  · by_cases hyx : y = x
    · subst hyx
      by_cases hzy : z = y
      · exact hzy.symm
      · rw [Function.update_self, Function.update_of_ne hzy] at hyz
        exact absurd hyz.symm (hfree z)
    · rw [Function.update_of_ne hyx] at hy hyz
      by_cases hzx : z = x
      · subst hzx
        rw [Function.update_self] at hyz
        exact absurd hyz (hfree y)
      · rw [Function.update_of_ne hzx] at hyz
        exact h.inj y z hy hyz
  · rw [h.used_iff c hc]
    constructor
    · rintro (hl | ⟨y, hy⟩ | hcb)
      · exact .inl hl
      · by_cases hyx : y = x
        · subst hyx
          exact .inl (by omega)
        · exact .inr (.inl ⟨y, by rw [Function.update_of_ne hyx, hy]⟩)
      · exact .inr (.inl ⟨x, by rw [Function.update_self, Set.mem_singleton_iff.mp hcb]⟩)
    · rintro (hl | ⟨y, hy⟩ | hn)
      · exact .inl hl
      · by_cases hyx : y = x
        · subst hyx
          rw [Function.update_self] at hy
          exact .inr (.inr hy.symm)
        · rw [Function.update_of_ne hyx] at hy
          exact .inr (.inl ⟨y, hy⟩)
      · exact absurd hn (Set.notMem_empty c)

theorem Owned.free [DecidableEq P] (h : Owned f used lo hi ∅) {x : P} (hx : f x ≠ 0) :
    used (f x) = true ∧
      Owned (Function.update f x 0) (Function.update used (f x) false) lo hi ∅ := by
  obtain ⟨hlo, hhi⟩ := h.range x hx
  have hpos := h.pos
  have hne : ∀ y, y ≠ x → f y ≠ f x := fun y hy he => hy (h.inj x y hx he.symm).symm
  refine ⟨(h.used_iff _ hhi).mpr (.inr (.inl ⟨x, rfl⟩)), h.pos, fun y hy => ?_,
    fun y z hy hyz => ?_, fun b hb => ?_, by simp⟩
  · by_cases hyx : y = x
    · simp [hyx] at hy
    · rw [Function.update_of_ne hyx] at hy ⊢
      exact h.range y hy
  · by_cases hyx : y = x
    · simp [hyx] at hy
    · rw [Function.update_of_ne hyx] at hy hyz
      by_cases hzx : z = x
      · simp only [hzx, Function.update_self] at hyz
        exact absurd hyz hy
      · rw [Function.update_of_ne hzx] at hyz
        exact h.inj y z hy hyz
  · by_cases hbx : b = f x
    · subst hbx
      simp only [Function.update_self, Bool.false_eq_true, Set.mem_empty_iff_false, or_false,
        false_iff, not_or, not_lt, not_exists]
      refine ⟨hlo, fun y hy => ?_⟩
      by_cases hyx : y = x
      · rw [hyx, Function.update_self] at hy
        exact hx hy.symm
      · rw [Function.update_of_ne hyx] at hy
        exact hne y hyx hy
    · rw [Function.update_of_ne hbx, h.used_iff b hb]
      refine or_congr_right' fun hblo => or_congr_left ⟨?_, ?_⟩
      · rintro ⟨y, rfl⟩
        exact ⟨y, Function.update_of_ne (fun hyx => hbx (by rw [hyx])) _ _⟩
      · rintro ⟨y, hy⟩
        by_cases hyx : y = x
        · rw [hyx, Function.update_self] at hy
          exact absurd (hy ▸ h.pos) hblo
        · rw [Function.update_of_ne hyx] at hy
          exact ⟨y, hy⟩

def freeBlocks (used : Nat → Bool) (hi : Nat) : Finset Nat :=
  (Finset.range hi).filter fun b => used b = false

theorem mem_freeBlocks {b : Nat} : b ∈ freeBlocks used hi ↔ b < hi ∧ used b = false := by
  rw [freeBlocks, Finset.mem_filter, Finset.mem_range]

section Filling

variable {f' : P → Nat} {used' : Nat → Bool} {W : Finset P}

theorem Owned.freeBlocks_sdiff [DecidableEq P] (h : Owned f used lo hi ∅) (h' : Owned f' used' lo hi ∅)
    (hoff : ∀ x ∉ W, f' x = f x) (hkeep : ∀ x, f x ≠ 0 → f' x = f x) :
    freeBlocks used hi \ freeBlocks used' hi =
      (W.filter fun x => f x = 0 ∧ f' x ≠ 0).image f' := by
  ext b
  simp only [Finset.mem_sdiff, mem_freeBlocks, Finset.mem_image, Finset.mem_filter]
  constructor
  · rintro ⟨⟨hb, hfree⟩, hused⟩
    obtain ⟨hlo, hnot, -⟩ := h.not_placed hb hfree
    have hpos := h.pos
    have hused' : used' b = true := by
      by_contra hne
      exact hused ⟨hb, by simpa using hne⟩
    rcases (h'.used_iff b hb).mp hused' with hlt | ⟨x, hx⟩ | hloose
    · omega
    · have hzero : f x = 0 := by
        by_contra hne
        exact hnot x ((hkeep x hne).symm.trans hx)
      refine ⟨x, ⟨?_, hzero, by omega⟩, hx⟩
      by_contra hxW
      exact hnot x ((hoff x hxW).symm.trans hx)
    · exact absurd hloose (Set.notMem_empty b)
  · rintro ⟨x, ⟨-, hzero, hne⟩, rfl⟩
    obtain ⟨hlo, hhi⟩ := h'.range x hne
    have hused' := (h'.used_iff _ hhi).mpr (.inr (.inl ⟨x, rfl⟩))
    refine ⟨⟨hhi, ?_⟩, fun hfree => by simp [hused'] at hfree⟩
    by_contra hused
    rcases (h.used_iff _ hhi).mp (by simpa using hused) with hlt | ⟨y, hy⟩ | hloose
    · omega
    · have hy0 : f y ≠ 0 := by omega
      have hxy := h'.inj y x (by rw [hkeep y hy0]; exact hy0) ((hkeep y hy0).trans hy)
      exact hy0 (hxy ▸ hzero)
    · exact absurd hloose (Set.notMem_empty _)

theorem Owned.freeBlocks_subset (h : Owned f used lo hi ∅) (h' : Owned f' used' lo hi ∅)
    (hkeep : ∀ x, f x ≠ 0 → f' x = f x) : freeBlocks used' hi ⊆ freeBlocks used hi := by
  intro b hb
  rw [mem_freeBlocks] at hb ⊢
  obtain ⟨hlo, hnot, -⟩ := h'.not_placed hb.1 hb.2
  refine ⟨hb.1, ?_⟩
  by_contra hused
  have hpos := h.pos
  rcases (h.used_iff b hb.1).mp (by simpa using hused) with hlt | ⟨x, hx⟩ | hloose
  · omega
  · exact hnot x ((hkeep x (by omega)).trans hx)
  · exact absurd hloose (Set.notMem_empty b)

theorem Owned.card_freeBlocks [DecidableEq P] (h : Owned f used lo hi ∅) (h' : Owned f' used' lo hi ∅)
    (hoff : ∀ x ∉ W, f' x = f x) (hkeep : ∀ x, f x ≠ 0 → f' x = f x) :
    (freeBlocks used hi).card + (W.filter fun x => f' x = 0).card =
      (freeBlocks used' hi).card + (W.filter fun x => f x = 0).card := by
  have hdiff := Finset.card_sdiff_add_card_eq_card (h.freeBlocks_subset h' hkeep)
  have hinj : Set.InjOn f' (W.filter fun x => f x = 0 ∧ f' x ≠ 0) := by
    intro x hx y _ hxy
    exact h'.inj x y (Finset.mem_filter.mp hx).2.2 hxy
  rw [h.freeBlocks_sdiff h' hoff hkeep, Finset.card_image_of_injOn hinj] at hdiff
  have hsame : (W.filter fun x => f x = 0 ∧ f' x = 0) = W.filter fun x => f' x = 0 := by
    refine Finset.filter_congr fun x _ => ⟨fun hx => hx.2, fun hx => ⟨?_, hx⟩⟩
    by_contra hne
    rw [hkeep x hne] at hx
    exact hne hx
  have hsplit : (W.filter fun x => f x = 0 ∧ f' x = 0).card +
      (W.filter fun x => f x = 0 ∧ f' x ≠ 0).card = (W.filter fun x => f x = 0).card := by
    rw [← Finset.filter_filter, ← Finset.filter_filter]
    exact Finset.card_filter_add_card_filter_not _
  rw [hsame] at hsplit
  omega

end Filling

end OsProject
