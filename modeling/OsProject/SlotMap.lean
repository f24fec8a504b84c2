import Mathlib.Logic.Function.Basic

/-! A map kept in numbered slots, each of which is free or holds a key with its value. -/

namespace OsProject

variable {K V : Type*} {slots : Nat → Option (K × V)} {m : K → Option V} {i : Nat}
  {k : K} {v : V}

/-- `slots` holds the bindings of `m`, each in one slot. -/
structure Represents (slots : Nat → Option (K × V)) (m : K → Option V) : Prop where
  bound : ∀ k v, m k = some v ↔ ∃ i, slots i = some (k, v)
  once : ∀ i j k v w, slots i = some (k, v) → slots j = some (k, w) → i = j

theorem Represents.eq_none (h : Represents slots m) (hk : ∀ i v, slots i ≠ some (k, v)) :
    m k = none := by
  refine Option.eq_none_iff_forall_ne_some.mpr fun v hv => ?_
  obtain ⟨i, hi⟩ := (h.bound k v).mp hv
  exact hk i v hi

variable [DecidableEq K]

theorem Represents.put (h : Represents slots m) (hi : slots i = none) (hk : m k = none) :
    Represents (Function.update slots i (some (k, v))) (Function.update m k (some v)) := by
  have hnot : ∀ j w, slots j ≠ some (k, w) := by
    intro j w hj
    have hw := (h.bound k w).mpr ⟨j, hj⟩
    rw [hk] at hw
    cases hw
  refine ⟨fun l w => ?_, fun a b l w w' ha hb => ?_⟩
  · by_cases hl : l = k
    · subst hl
      rw [Function.update_self]
      constructor
      · rintro ⟨⟩
        exact ⟨i, Function.update_self _ _ _⟩
      · rintro ⟨j, hj⟩
        by_cases hji : j = i
        · rw [hji, Function.update_self] at hj
          cases hj
          rfl
        · rw [Function.update_of_ne hji] at hj
          exact absurd hj (hnot j w)
    · rw [Function.update_of_ne hl, h.bound]
      refine exists_congr fun j => ?_
      by_cases hji : j = i
      · rw [hji, Function.update_self, hi]
        simp [Ne.symm hl]
      · rw [Function.update_of_ne hji]
  · by_cases hai : a = i
    · by_cases hbi : b = i
      · rw [hai, hbi]
      · rw [hai, Function.update_self] at ha
        cases ha
        rw [Function.update_of_ne hbi] at hb
        exact absurd hb (hnot b w')
    · rw [Function.update_of_ne hai] at ha
      by_cases hbi : b = i
      · rw [hbi, Function.update_self] at hb
        cases hb
        exact absurd ha (hnot a w)
      · rw [Function.update_of_ne hbi] at hb
        exact h.once a b l w w' ha hb

theorem Represents.clear (h : Represents slots m) (hi : slots i = some (k, v)) :
    Represents (Function.update slots i none) (Function.update m k none) := by
  have hkeep : ∀ j l w, Function.update slots i none j = some (l, w) →
      j ≠ i ∧ slots j = some (l, w) := by
    intro j l w hj
    by_cases hji : j = i
    · rw [hji, Function.update_self] at hj
      cases hj
    · rw [Function.update_of_ne hji] at hj
      exact ⟨hji, hj⟩
  refine ⟨fun l w => ?_, fun a b l w w' ha hb => ?_⟩
  · by_cases hl : l = k
    · subst hl
      rw [Function.update_self]
      refine ⟨nofun, ?_⟩
      rintro ⟨j, hj⟩
      obtain ⟨hji, hj⟩ := hkeep j l w hj
      exact absurd (h.once j i l w v hj hi) hji
    · rw [Function.update_of_ne hl, h.bound]
      refine exists_congr fun j => ?_
      by_cases hji : j = i
      · rw [hji, Function.update_self, hi]
        simp [Ne.symm hl]
      · rw [Function.update_of_ne hji]
  · exact h.once a b l w w' (hkeep a l w ha).2 (hkeep b l w' hb).2

end OsProject
