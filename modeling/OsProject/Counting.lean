import Mathlib.Algebra.BigOperators.Group.Finset.Basic
import Mathlib.Algebra.Order.BigOperators.Group.Finset

/-! Sums over a finite index type when one of the summands changes. -/

namespace OsProject

variable {ι α : Type} [Fintype ι]

theorem sum_add_of_eq_off [DecidableEq ι] {f g : ι → Nat} (i : ι) (h : ∀ j, j ≠ i → g j = f j) :
    ∑ j, g j + f i = ∑ j, f j + g i := by
  have hrest : ∑ j ∈ Finset.univ.erase i, g j = ∑ j ∈ Finset.univ.erase i, f j :=
    Finset.sum_congr rfl fun j hj => h j (Finset.ne_of_mem_erase hj)
  rw [← Finset.add_sum_erase _ _ (Finset.mem_univ i), ← Finset.add_sum_erase _ f (Finset.mem_univ i),
    hrest]
  omega

theorem sum_update_add [DecidableEq ι] (F : ι → α) (h : α → Nat) (i : ι) (v : α) :
    ∑ j, h (Function.update F i v j) + h (F i) = ∑ j, h (F j) + h v := by
  have hsum := sum_add_of_eq_off (f := fun j => h (F j))
    (g := fun j => h (Function.update F i v j)) i fun j hj => by rw [Function.update_of_ne hj]
  rwa [Function.update_self] at hsum

end OsProject
