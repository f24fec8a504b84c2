import Mathlib

/-! Radix trees over a store of nodes. `child t i` is the node that entry `i` of `t` points to,
and a node is named by the indices that lead to it from the root, the last one first. -/

namespace OsProject

variable {N I : Type*} {child child' : N → I → Option N} {root t : N} {n : Nat}

def node (child : N → I → Option N) (root : N) : List I → Option N
  | [] => some root
  | i :: p => (node child root p).bind (child · i)

def Apart (child : N → I → Option N) (root : N) (n : Nat) : Prop :=
  ∀ p q t, p.length ≤ n → q.length ≤ n → node child root p = some t → node child root q = some t →
    p = q

theorem node_cons {p : List I} (h : node child root p = some t) (i : I) :
    node child root (i :: p) = child t i := by
  simp [node, h]

theorem node_append (p q : List I) :
    node child root (p ++ q) = (node child root q).bind (node child · p) := by
  induction p with
  | nil => cases h : node child root q <;> simp [node, h]
  | cons i p ih =>
    rw [List.cons_append, node, ih, Option.bind_assoc]
    rfl

theorem node_congr
    (h : ∀ p t, p.length < n → node child root p = some t → ∀ i, child' t i = child t i)
    {p : List I} (hp : p.length ≤ n) : node child' root p = node child root p := by
  induction p with
  | nil => rfl
  | cons i p ih =>
    rw [List.length_cons] at hp
    rw [node, node, ih (by omega)]
    cases ht : node child root p with
    | none => rfl
    | some t => exact h p t (by omega) ht i

theorem node_graft {c : N} {i : I} {p : List I} [DecidableEq I]
    (ht : node child root p = some t) (hnone : child t i = none)
    (hset : child' t i = some c) (hleaf : ∀ j, child' c j = none)
    (hother : ∀ q s j, q.length < n → node child root q = some s → ¬ (q = p ∧ j = i) →
      child' s j = child s j) {q : List I} (hq : q.length ≤ n) :
    node child' root q = if q = i :: p then some c else node child root q := by
  induction q with
  | nil => rfl
  | cons j q ih =>
    rw [List.length_cons] at hq
    rw [node, ih (by omega)]
    by_cases hc : q = i :: p
    · -- below the new node there is nothing, and there was nothing before
      have hne : ¬ j :: q = i :: p := by
        intro he
        have hlen := congrArg List.length he
        simp [hc] at hlen
      rw [if_pos hc, if_neg hne, Option.bind_some, hleaf, node, hc, node_cons ht, hnone]
      rfl
    · rw [if_neg hc]
      cases hs : node child root q with
      | none =>
        have hne : ¬ j :: q = i :: p := by
          rintro ⟨⟩
          rw [ht] at hs
          cases hs
        rw [if_neg hne, node, hs]
        rfl
      | some s =>
        rw [Option.bind_some, node_cons hs]
        by_cases hj : q = p ∧ j = i
        · obtain ⟨rfl, rfl⟩ := hj
          rw [hs] at ht
          cases ht
          rw [if_pos rfl, hset]
        · have hne : ¬ j :: q = i :: p := by
            rintro ⟨⟩
            exact hj ⟨rfl, rfl⟩
          rw [if_neg hne, hother q s j (by omega) hs hj]

section Below

variable {idx : List I}

/-- The nodes at most `n` steps below `t`, each after its children. -/
def below (child : N → I → Option N) (idx : List I) : Nat → N → List N
  | 0, t => [t]
  | n + 1, t => (idx.flatMap fun i => (child t i).elim [] (below child idx n)) ++ [t]

theorem mem_below (hidx : ∀ i, i ∈ idx) {s : N} :
    s ∈ below child idx n t ↔ ∃ p, p.length ≤ n ∧ node child t p = some s := by
  induction n generalizing t with
  | zero =>
    simp only [below, List.mem_singleton]
    constructor
    · rintro rfl
      exact ⟨[], le_rfl, rfl⟩
    · rintro ⟨p, hp, h⟩
      obtain rfl : p = [] := List.length_eq_zero_iff.mp (by omega)
      exact (Option.some.inj h).symm
  | succ n ih =>
    simp only [below, List.mem_append, List.mem_flatMap, List.mem_singleton]
    constructor
    · rintro (⟨i, _, hs⟩ | rfl)
      · cases hu : child t i with
        | none => simp [hu] at hs
        | some u =>
          rw [hu] at hs
          obtain ⟨p, hp, h⟩ := ih.mp hs
          have hroot : node child t [i] = some u := hu
          refine ⟨p ++ [i], by simpa using hp, ?_⟩
          rw [node_append, hroot, Option.bind_some, h]
      · exact ⟨[], Nat.zero_le _, rfl⟩
    · rintro ⟨p, hp, h⟩
      rcases List.eq_nil_or_concat p with rfl | ⟨q, i, rfl⟩
      · exact .inr (Option.some.inj h).symm
      · rw [List.concat_eq_append, node_append] at h
        obtain ⟨u, hu, hq⟩ := Option.bind_eq_some_iff.mp h
        have hchild : child t i = some u := hu
        refine .inl ⟨i, hidx i, ?_⟩
        rw [hchild]
        exact ih.mpr ⟨q, by simpa using hp, hq⟩

end Below

end OsProject
