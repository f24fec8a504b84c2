import Mathlib.Data.Finset.Card
import Mathlib.Data.Finset.Max
import Mathlib.Dynamics.PeriodicPts.Defs

/-! A circular list that visits the members of a finite set in ascending order and goes from the
greatest to the least one. -/

namespace OsProject

variable {α : Type*} [LinearOrder α]

/-- `y` follows `x` on the ring of `F`. -/
def Follows (F : Finset α) (x y : α) : Prop :=
  y ∈ F ∧ (x < y ∧ (∀ z ∈ F, x < z → y ≤ z) ∨ (∀ z ∈ F, z ≤ x) ∧ ∀ z ∈ F, y ≤ z)

def OrderedRing (F : Finset α) (next : α → α) : Prop :=
  ∀ x ∈ F, Follows F x (next x)

variable {F : Finset α} {next : α → α} {p b x y z : α}

theorem orderedRing_singleton (h : next x = x) : OrderedRing {x} next := by
  intro y hy
  rw [Finset.mem_singleton] at hy
  subst hy
  simp [Follows, h]

namespace OrderedRing

theorem mem (h : OrderedRing F next) (hx : x ∈ F) : next x ∈ F := (h x hx).1

theorem congr {next' : α → α} (h : OrderedRing F next) (heq : ∀ x ∈ F, next' x = next x) :
    OrderedRing F next' := by
  intro x hx
  rw [heq x hx]
  exact h x hx

theorem next_ne (h : OrderedRing F next) (hx : x ∈ F) (hy : y ∈ F) (hne : y ≠ x) : next x ≠ x := by
  intro he
  obtain ⟨-, ⟨hlt, -⟩ | ⟨hmax, hmin⟩⟩ := h x hx
  · exact hlt.ne he.symm
  · exact hne (le_antisymm (hmax y hy) (he ▸ hmin y hy))

theorem iterate_mem (h : OrderedRing F next) (hx : x ∈ F) (k : Nat) : next^[k] x ∈ F := by
  induction k generalizing x with
  | zero => exact hx
  | succ k ih => exact ih (h.mem hx)

theorem reach_up (h : OrderedRing F next) (hx : x ∈ F) (hy : y ∈ F) (hxy : x ≤ y) :
    ∃ k, k ≤ (F.filter fun z => x < z ∧ z ≤ y).card ∧ next^[k] x = y := by
  generalize hn : (F.filter fun z => x < z ∧ z ≤ y).card = n
  induction n generalizing x with
  | zero =>
    rcases hxy.eq_or_lt with rfl | hlt
    · exact ⟨0, le_rfl, rfl⟩
    · rw [Finset.card_eq_zero, Finset.filter_eq_empty_iff] at hn
      exact absurd ⟨hlt, le_rfl⟩ (hn hy)
  | succ n ih =>
    rcases hxy.eq_or_lt with rfl | hlt
    · exact ⟨0, Nat.zero_le _, rfl⟩
    · obtain ⟨hmem, ⟨hup, hleast⟩ | ⟨htop, -⟩⟩ := h x hx
      · have hle : next x ≤ y := hleast y hy hlt
        have hcard : (F.filter fun z => next x < z ∧ z ≤ y).card = n := by
          have hins : (F.filter fun z => x < z ∧ z ≤ y) =
              insert (next x) (F.filter fun z => next x < z ∧ z ≤ y) := by
            ext z
            simp only [Finset.mem_filter, Finset.mem_insert]
            grind
          rw [hins, Finset.card_insert_of_notMem (by simp)] at hn
          exact Nat.succ_injective hn
        obtain ⟨k, hk, hreach⟩ := ih hmem hle hcard
        exact ⟨k + 1, by omega, hreach⟩
      · exact absurd (htop y hy) (not_le.mpr hlt)

theorem reach (h : OrderedRing F next) (hx : x ∈ F) (hy : y ∈ F) :
    ∃ k, k < F.card ∧ next^[k] x = y := by
  rcases le_or_gt x y with hxy | hyx
  · obtain ⟨k, hk, hreach⟩ := h.reach_up hx hy hxy
    refine ⟨k, hk.trans_lt (Finset.card_lt_card ?_), hreach⟩
    exact Finset.filter_ssubset.mpr ⟨x, hx, by simp⟩
  · have hne : F.Nonempty := ⟨x, hx⟩
    obtain ⟨i, hi, htop⟩ := h.reach_up hx (F.max'_mem hne) (F.le_max' x hx)
    have hwrap : next (F.max' hne) = F.min' hne := by
      obtain ⟨hmem, ⟨hup, -⟩ | ⟨-, hleast⟩⟩ := h _ (F.max'_mem hne)
      · exact absurd (F.le_max' _ hmem) (not_le.mpr hup)
      · exact le_antisymm (hleast _ (F.min'_mem hne)) (F.min'_le _ hmem)
    obtain ⟨j, hj, hup⟩ := h.reach_up (F.min'_mem hne) hy (F.min'_le y hy)
    refine ⟨j + (1 + i), ?_, ?_⟩
    · have hsub : insert (F.min' hne) ((F.filter fun z => x < z ∧ z ≤ F.max' hne) ∪
          F.filter fun z => F.min' hne < z ∧ z ≤ y) ⊂ F := by
        refine Finset.ssubset_iff_subset_ne.mpr ⟨?_, fun heq => ?_⟩
        · have := F.min'_mem hne
          grind
        · have hmin := F.min'_le y hy
          rw [Finset.ext_iff] at heq
          have := (heq x).mpr hx
          grind
      have hlt := Finset.card_lt_card hsub
      rw [Finset.card_insert_of_notMem (by have := F.min'_le x hx; grind),
        Finset.card_union_of_disjoint] at hlt
      · omega
      · rw [Finset.disjoint_filter]
        grind
    · rw [Function.iterate_add_apply, Function.iterate_add_apply, htop, Function.iterate_one, hwrap]
      exact hup

theorem turn (h : OrderedRing F next) (hx : x ∈ F) (P : α → Prop) :
    ∃ k, k < F.card ∧ (P (next^[k] (next x)) ∨ next^[k] (next x) = x ∧ ∀ z ∈ F, ¬ P z) ∧
      ∀ i < k, ¬ P (next^[i] (next x)) ∧ next^[i] (next x) ≠ x := by
  classical
  obtain ⟨n, hn, hback⟩ := h.reach (h.mem hx) hx
  have hstop : ∃ k, P (next^[k] (next x)) ∨ next^[k] (next x) = x := ⟨n, .inr hback⟩
  have hmin : ∀ i < Nat.find hstop, ¬ P (next^[i] (next x)) ∧ next^[i] (next x) ≠ x :=
    fun i hi => not_or.mp (Nat.find_min hstop hi)
  refine ⟨Nat.find hstop, (Nat.find_min' hstop (.inr hback)).trans_lt hn, ?_, hmin⟩
  rcases Nat.find_spec hstop with hP | hend
  · exact .inl hP
  by_cases hP : P (next^[Nat.find hstop] (next x))
  · exact .inl hP
  refine .inr ⟨hend, fun z hz hPz => ?_⟩
  -- The turn closes at its end, so that `z` is on it.
  obtain ⟨j, -, hj⟩ := h.reach (h.mem hx) hz
  have hloop : Function.IsPeriodicPt next (Nat.find hstop + 1) (next x) := by
    show next^[Nat.find hstop + 1] (next x) = next x
    rw [Function.iterate_succ_apply', hend]
  have hmod := hloop.iterate_mod_apply j
  rw [hj] at hmod
  rcases (Nat.lt_succ_iff.mp (Nat.mod_lt j (Nat.succ_pos _))).eq_or_lt with heq | hlt
  · rw [heq] at hmod
    exact hP (hmod.symm ▸ hPz)
  · exact (hmin _ hlt).1 (hmod.symm ▸ hPz)

theorem unique {G : Finset α} (h : OrderedRing F next) (h' : OrderedRing G next) (hx : x ∈ F)
    (hx' : x ∈ G) : F = G := by
  ext y
  constructor
  · intro hy
    obtain ⟨k, -, rfl⟩ := h.reach hx hy
    exact h'.iterate_mem hx' k
  · intro hy
    obtain ⟨k, -, rfl⟩ := h'.reach hx' hy
    exact h.iterate_mem hx k

theorem le_of_lt (h : OrderedRing F next) (hp : p ∈ F) (hb : b < next p ∨ next p ≤ p) (hz : z ∈ F)
    (hzb : z < b) : z ≤ p := by
  have hfollows := h p hp
  unfold Follows at hfollows
  grind

theorem next_le (h : OrderedRing F next) (hp : p ∈ F) (hz : z ∈ F) (hpz : p < z) : next p ≤ z := by
  have hfollows := h p hp
  unfold Follows at hfollows
  grind

theorem insert (h : OrderedRing F next) (hp : p ∈ F) (hpb : p < b)
    (hb : b < next p ∨ next p ≤ p) :
    OrderedRing (insert b F) (Function.update (Function.update next b (next p)) p b) := by
  have hfollows := h p hp
  intro x hx
  have hother := h x
  unfold Follows at hfollows hother ⊢
  simp only [Function.update_apply, Finset.mem_insert] at hx ⊢
  grind

theorem erase (h : OrderedRing F next) (hp : p ∈ F) (hb : next p ≠ p) :
    OrderedRing (F.erase (next p)) (Function.update next p (next (next p))) := by
  have hfollows := h p hp
  have hnext := h (next p) (h.mem hp)
  intro x hx
  have hother := h x
  unfold Follows at hfollows hother hnext ⊢
  simp only [Function.update_apply, Finset.mem_erase] at hx ⊢
  grind

end OrderedRing

end OsProject
