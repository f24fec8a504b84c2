import Mathlib.Data.List.Basic

/-! Lists that are overwritten from a position on, and grow when the new elements go beyond the
end. -/

namespace OsProject

variable {α : Type*}

def overwrite (old : List α) (off : Nat) (new : List α) : List α :=
  old.take off ++ new ++ old.drop (off + new.length)

@[simp] theorem overwrite_nil (old : List α) (off : Nat) : overwrite old off [] = old := by
  rw [overwrite, List.append_nil, List.length_nil, Nat.add_zero, List.take_append_drop]

theorem length_overwrite {old : List α} {off : Nat} (h : off ≤ old.length) (new : List α) :
    (overwrite old off new).length = max old.length (off + new.length) := by
  simp only [overwrite, List.length_append, List.length_take, List.length_drop]
  omega

theorem getElem?_overwrite {old : List α} {off : Nat} (h : off ≤ old.length) (new : List α)
    (i : Nat) : (overwrite old off new)[i]? =
      if off ≤ i ∧ i < off + new.length then new[i - off]? else old[i]? := by
  have htake : (old.take off).length = off := by
    rw [List.length_take]
    omega
  rw [overwrite, List.append_assoc]
  by_cases hlo : i < off
  · rw [if_neg (by omega), List.getElem?_append_left (by omega), List.getElem?_take_of_lt hlo]
  · rw [List.getElem?_append_right (by omega), htake]
    by_cases hhi : i < off + new.length
    · rw [if_pos ⟨by omega, hhi⟩, List.getElem?_append_left (by omega)]
    · rw [if_neg (by omega), List.getElem?_append_right (by omega), List.getElem?_drop]
      congr 1
      omega

theorem overwrite_append {old : List α} {off : Nat} (h : off ≤ old.length) (a b : List α) :
    overwrite (overwrite old off a) (off + a.length) b = overwrite old off (a ++ b) := by
  have hlen : off + a.length ≤ (overwrite old off a).length := by
    rw [length_overwrite h]
    exact Nat.le_max_right _ _
  refine List.ext_getElem? fun i => ?_
  rw [getElem?_overwrite hlen, getElem?_overwrite h, getElem?_overwrite h, List.length_append]
  by_cases ha : off ≤ i ∧ i < off + a.length
  · rw [if_neg (by omega), if_pos ha, if_pos (by omega), List.getElem?_append_left (by omega)]
  · rw [if_neg ha]
    by_cases hb : off + a.length ≤ i ∧ i < off + a.length + b.length
    · rw [if_pos hb, if_pos (by omega), List.getElem?_append_right (by omega)]
      congr 1
      omega
    · rw [if_neg hb, if_neg (by omega)]

end OsProject
