import Mathlib.Data.List.Basic
import Mathlib.Data.Nat.ModEq
import Mathlib.Logic.Function.Basic

/-! Circular buffers. The cells are read through an index that only grows, modulo the size. -/

namespace OsProject

variable {α : Type*} {size i k : Nat} {buf : Nat → α}

def window (size : Nat) (buf : Nat → α) (i k : Nat) : List α :=
  (List.range k).map fun j => buf ((i + j) % size)

@[simp] theorem window_length : (window size buf i k).length = k := by simp [window]

@[simp] theorem window_zero : window size buf i 0 = [] := rfl

theorem window_succ : window size buf i (k + 1) = window size buf i k ++ [buf ((i + k) % size)] := by
  rw [window, List.range_succ, List.map_append]
  rfl

theorem window_cons : window size buf i (k + 1) = buf (i % size) :: window size buf (i + 1) k := by
  rw [window, List.range_succ_eq_map, List.map_cons, List.map_map]
  congr 1
  refine List.map_congr_left fun j _ => ?_
  rw [Function.comp_apply, Nat.succ_eq_add_one, Nat.add_comm j 1, Nat.add_assoc]

theorem window_congr {i' : Nat} (h : i % size = i' % size) :
    window size buf i k = window size buf i' k := by
  refine List.map_congr_left fun j _ => ?_
  rw [Nat.add_mod, h, ← Nat.add_mod]

theorem window_update (h : k < size) (c : α) :
    window size (Function.update buf ((i + k) % size) c) i k = window size buf i k := by
  refine List.map_congr_left fun j hj => Function.update_of_ne (fun he => ?_) _ _
  have hj' := List.mem_range.mp hj
  have hmod : j ≡ k [MOD size] := Nat.ModEq.add_left_cancel' i he
  rw [Nat.ModEq, Nat.mod_eq_of_lt (hj'.trans h), Nat.mod_eq_of_lt h] at hmod
  exact hj'.ne hmod

theorem window_push (h : k < size) (c : α) :
    window size (Function.update buf ((i + k) % size) c) i (k + 1) = window size buf i k ++ [c] := by
  rw [window_succ, window_update h, Function.update_self]

end OsProject
