import Mathlib

/-! Ownership books. Resources of a pool are given out for uses, `loc` says which resource serves
a use, and `own` is its exact inverse on the pool: a resource serves one use or is free. -/

namespace OsProject

variable {P K : Type*} {pool : P → Prop} {loc loc' loc'' : K → Option P}
  {own own' own'' : P → Option K} {p : P} {k : K}

def Exact (pool : P → Prop) (loc : K → Option P) (own : P → Option K) : Prop :=
  ∀ k p, loc k = some p ↔ pool p ∧ own p = some k

theorem Exact.mem (h : Exact pool loc own) (hk : loc k = some p) : pool p := ((h k p).mp hk).1

theorem Exact.owner (h : Exact pool loc own) (hk : loc k = some p) : own p = some k :=
  ((h k p).mp hk).2

theorem Exact.assign [DecidableEq P] [DecidableEq K] (h : Exact pool loc own) (hp : pool p)
    (hfree : own p = none) (hk : loc k = none) :
    Exact pool (Function.update loc k (some p)) (Function.update own p (some k)) := by
  intro k' q
  by_cases hq : q = p
  · subst hq
    rw [Function.update_self]
    by_cases hk' : k' = k
    · subst hk'
      simp [hp]
    · rw [Function.update_of_ne hk', h k' q, hfree]
      simp [Ne.symm hk']
  · rw [Function.update_of_ne hq]
    by_cases hk' : k' = k
    · subst hk'
      rw [Function.update_self, ← h k' q, hk]
      simp [Ne.symm hq]
    · rw [Function.update_of_ne hk', h k' q]

theorem Exact.retract [DecidableEq P] [DecidableEq K] (h : Exact pool loc own)
    (hk : loc k = some p) : Exact pool (Function.update loc k none) (Function.update own p none) := by
  intro k' q
  by_cases hk' : k' = k
  · subst hk'
    rw [Function.update_self]
    by_cases hq : q = p
    · simp [hq]
    · have hne : ¬ (pool q ∧ own q = some k') := by
        rintro hown
        have hloc := (h k' q).mpr hown
        rw [hk] at hloc
        exact hq (Option.some.inj hloc).symm
      rw [Function.update_of_ne hq]
      simp [hne]
  · rw [Function.update_of_ne hk', h k' q]
    by_cases hq : q = p
    · subst hq
      rw [Function.update_self, h.owner hk]
      simp [Ne.symm hk']
    · rw [Function.update_of_ne hq]

def Within (pool : P → Prop) (S : Option K → Prop) (own own' : P → Option K) : Prop :=
  ∀ p, pool p → own' p = own p ∨ S (own p) ∧ S (own' p)

section Within

variable {S S' : Option K → Prop}

theorem Within.refl (own : P → Option K) : Within pool S own own := fun _ _ => .inl rfl

theorem Within.trans (h : Within pool S own own') (h' : Within pool S own' own'') :
    Within pool S own own'' := by
  intro p hp
  rcases h p hp with he | hs
  · rw [← he]
    exact h' p hp
  · rcases h' p hp with he' | hs'
    · rw [he']
      exact .inr hs
    · exact .inr ⟨hs.1, hs'.2⟩

theorem Within.mono (h : Within pool S own own') (hS : ∀ o, S o → S' o) :
    Within pool S' own own' := fun p hp => (h p hp).imp_right fun hs => ⟨hS _ hs.1, hS _ hs.2⟩

theorem within_update [DecidableEq P] {o : Option K} (hp : S (own p)) (ho : S o) :
    Within pool S own (Function.update own p o) := by
  intro q _
  by_cases hq : q = p
  · subst hq
    rw [Function.update_self]
    exact .inr ⟨hp, ho⟩
  · exact .inl (Function.update_of_ne hq _ _)

theorem Within.own_eq (h : Within pool S own own') (hp : pool p) (hs : ¬ S (own p)) :
    own' p = own p := (h p hp).resolve_right fun hs' => hs hs'.1

end Within

end OsProject
