import Mathlib

/-! Replaying a trace of single-cell writes. A crash leaves the store after a prefix of the
trace, so the lemmas say which prefixes a later full replay absorbs. -/

namespace OsProject

variable {κ β : Type*} [DecidableEq κ]

def applyWrites (ws : List (κ × β)) (d : κ → β) : κ → β :=
  ws.foldl (fun d w => Function.update d w.1 w.2) d

@[simp] theorem applyWrites_nil (d : κ → β) : applyWrites [] d = d := rfl

@[simp] theorem applyWrites_cons (w : κ × β) (ws : List (κ × β)) (d : κ → β) :
    applyWrites (w :: ws) d = applyWrites ws (Function.update d w.1 w.2) := rfl

theorem applyWrites_append (ws vs : List (κ × β)) (d : κ → β) :
    applyWrites (ws ++ vs) d = applyWrites vs (applyWrites ws d) := by
  simp [applyWrites, List.foldl_append]

theorem applyWrites_of_not_mem {ws : List (κ × β)} {d : κ → β} {b : κ}
    (h : ∀ w ∈ ws, w.1 ≠ b) : applyWrites ws d b = d b := by
  induction ws generalizing d with
  | nil => rfl
  | cons w ws ih =>
    rw [applyWrites_cons, ih (fun v hv => h v (by simp [hv])),
      Function.update_of_ne (h w (by simp)).symm]

theorem applyWrites_congr {ws : List (κ × β)} {d e : κ → β} {b : κ}
    (h : (∀ w ∈ ws, w.1 ≠ b) → d b = e b) : applyWrites ws d b = applyWrites ws e b := by
  induction ws generalizing d e with
  | nil => exact h (by simp)
  | cons w ws ih =>
    rw [applyWrites_cons, applyWrites_cons]
    apply ih
    intro hws
    by_cases hb : b = w.1
    · subst hb
      simp
    · rw [Function.update_of_ne hb, Function.update_of_ne hb]
      apply h
      intro v hv
      rcases List.mem_cons.mp hv with rfl | hv
      · exact Ne.symm hb
      · exact hws v hv

theorem applyWrites_eq_of_forall {ws : List (κ × β)} {d f : κ → β} {b : κ}
    (hf : ∀ w ∈ ws, w.2 = f w.1) (h : (∀ w ∈ ws, w.1 ≠ b) → d b = f b) :
    applyWrites ws d b = f b := by
  induction ws generalizing d with
  | nil => exact h (by simp)
  | cons w ws ih =>
    rw [applyWrites_cons]
    apply ih (fun v hv => hf v (by simp [hv]))
    intro hws
    by_cases hb : b = w.1
    · subst hb
      rw [Function.update_self, hf w (by simp)]
    · rw [Function.update_of_ne hb]
      apply h
      intro v hv
      rcases List.mem_cons.mp hv with rfl | hv
      · exact Ne.symm hb
      · exact hws v hv

theorem applyWrites_take (ws : List (κ × β)) (k : Nat) (d : κ → β) :
    applyWrites ws (applyWrites (ws.take k) d) = applyWrites ws d := by
  funext b
  apply applyWrites_congr
  intro h
  exact applyWrites_of_not_mem (fun w hw => h w (List.mem_of_mem_take hw))

theorem take_append_cons_cases {α : Type*} (l r : List α) (a : α) (k : Nat) :
    (∃ j, (l ++ a :: r).take k = l.take j) ∨ ∃ j, (l ++ a :: r).take k = l ++ a :: r.take j := by
  rcases Nat.lt_or_ge l.length k with hk | hk
  · right
    refine ⟨k - l.length - 1, ?_⟩
    obtain ⟨j, rfl⟩ : ∃ j, k = l.length + (j + 1) := ⟨k - l.length - 1, by omega⟩
    rw [List.take_length_add_append, List.take_succ_cons]
    congr 3
    omega
  · exact .inl ⟨k, List.take_append_of_le_length hk⟩

end OsProject
