import Mathlib.Data.Finset.Card
import Mathlib.Data.Finset.Union
import Mathlib.Logic.Function.Basic

/-! Pieces of an interval: `C` has the starts of pieces of `[lo, hi)` of which no two overlap, `len`
their lengths, and `u` is the least length of a piece. -/

namespace OsProject

structure Extents (u lo hi : Nat) (len : Nat → Nat) (C : Finset Nat) : Prop where
  above : ∀ x ∈ C, lo ≤ x
  below : ∀ x ∈ C, x + len x ≤ hi
  least : ∀ x ∈ C, u ≤ len x
  apart : ∀ x ∈ C, ∀ y ∈ C, x < y → x + len x ≤ y

namespace Extents

variable {u lo hi n k x y : Nat} {len len' : Nat → Nat} {C D : Finset Nat}

theorem empty : Extents u lo hi len ∅ := ⟨nofun, nofun, nofun, nofun⟩

theorem congr (h : Extents u lo hi len C) (hlen : ∀ x ∈ C, len' x = len x) :
    Extents u lo hi len' C := by
  refine ⟨h.above, fun x hx => ?_, fun x hx => ?_, fun x hx y hy hxy => ?_⟩
  · exact hlen x hx ▸ h.below x hx
  · exact hlen x hx ▸ h.least x hx
  · exact hlen x hx ▸ h.apart x hx y hy hxy

theorem mono (h : Extents u lo hi len C) (hD : D ⊆ C) : Extents u lo hi len D :=
  ⟨fun x hx => h.above x (hD hx), fun x hx => h.below x (hD hx), fun x hx => h.least x (hD hx),
    fun x hx y hy => h.apart x (hD hx) y (hD hy)⟩

theorem add (h : Extents u lo hi len C) (hlo : lo ≤ x) (hhi : x + len x ≤ hi) (hu : u ≤ len x)
    (hx : ∀ y ∈ C, x + len x ≤ y ∨ y + len y ≤ x) : Extents u lo hi len (insert x C) := by
  obtain ⟨habove, hbelow, hleast, hapart⟩ := h
  constructor <;> simp only [Finset.mem_insert] <;> grind

theorem grow (h : Extents u lo hi len C) (hlo : lo ≤ hi) (hn : u ≤ n) (hu : 0 < u) :
    Extents u lo (hi + n) (Function.update len hi n) (insert hi C) := by
  have hbelow := h.below
  have hleast := h.least
  have hnot : ∀ x ∈ C, x < hi := fun x hx => by have := hbelow x hx; have := hleast x hx; omega
  obtain ⟨habove, -, -, hapart⟩ := h
  constructor <;> simp only [Function.update_apply, Finset.mem_insert] <;> grind

theorem split (h : Extents u lo hi len C) (hx : x ∈ C) (hk : u ≤ k) (hu : 0 < u)
    (hrest : u + k ≤ len x) :
    Extents u lo hi (Function.update (Function.update len x (len x - k)) (x + (len x - k)) k)
      (insert (x + (len x - k)) C) := by
  have hmid : ∀ y ∈ C, y ≠ x + (len x - k) := by
    rintro y hy rfl
    have := h.apart x hx _ hy (by omega)
    omega
  obtain ⟨habove, hbelow, hleast, hapart⟩ := h
  have := habove x hx
  have := hbelow x hx
  constructor <;> simp only [Function.update_apply, Finset.mem_insert] <;> grind

theorem merge (h : Extents u lo hi len C) (hx : x ∈ C) (hy : y ∈ C) (hxy : x + len x = y) :
    Extents u lo hi (Function.update len x (len x + len y)) (C.erase y) := by
  obtain ⟨habove, hbelow, hleast, hapart⟩ := h
  constructor <;> simp only [Function.update_apply, Finset.mem_erase] <;> grind

theorem card_le (h : Extents u lo hi len C) (hu : 0 < u) : C.card ≤ hi / u := by
  rw [← Finset.card_range (hi / u)]
  refine Finset.card_le_card_of_injOn (fun x => x / u) (fun x hx => ?_) (fun x hx y hy hxy => ?_)
  · have := h.below x hx
    have := h.least x hx
    rw [Finset.coe_range, Set.mem_Iio]
    calc x / u < x / u + 1 := Nat.lt_succ_self _
      _ = (x + u) / u := (Nat.add_div_right x hu).symm
      _ ≤ hi / u := Nat.div_le_div_right (by omega)
  · have hlt : ∀ {a b}, a ∈ C → b ∈ C → a < b → a / u < b / u := by
      intro a b ha hb hab
      have := h.apart a ha b hb hab
      have := h.least a ha
      calc a / u < a / u + 1 := Nat.lt_succ_self _
        _ = (a + u) / u := (Nat.add_div_right a hu).symm
        _ ≤ b / u := Nat.div_le_div_right (by omega)
    rcases lt_trichotomy x y with hlt' | heq | hgt
    · exact absurd hxy (hlt hx hy hlt').ne
    · exact heq
    · exact absurd hxy (hlt hy hx hgt).ne'

end Extents

section

variable {u x y : Nat} {size size' : Nat → Nat} {C : Finset Nat}

/-- The units of the pieces that start at `C`, where a piece has `size` units of length `u`. -/
def unitsOf (u : Nat) (size : Nat → Nat) (C : Finset Nat) : Set Nat :=
  {a | ∃ x ∈ C, ∃ k < size x, a = x + u * k}

theorem unitsOf_congr (h : ∀ x ∈ C, size' x = size x) : unitsOf u size' C = unitsOf u size C := by
  ext a
  constructor
  · rintro ⟨x, hx, k, hk, rfl⟩
    exact ⟨x, hx, k, h x hx ▸ hk, rfl⟩
  · rintro ⟨x, hx, k, hk, rfl⟩
    exact ⟨x, hx, k, (h x hx).symm ▸ hk, rfl⟩

theorem unitsOf_insert : unitsOf u size (insert x C) = unitsOf u size C ∪ unitsOf u size {x} := by
  ext a
  constructor
  · rintro ⟨z, hz, hk⟩
    rcases Finset.mem_insert.mp hz with rfl | hz
    · exact .inr ⟨z, Finset.mem_singleton_self z, hk⟩
    · exact .inl ⟨z, hz, hk⟩
  · rintro (⟨z, hz, hk⟩ | ⟨z, hz, hk⟩)
    · exact ⟨z, Finset.mem_insert_of_mem hz, hk⟩
    · rw [Finset.mem_singleton] at hz
      exact ⟨z, Finset.mem_insert.mpr (.inl hz), hk⟩

theorem unitsOf_merge (hx : x ∈ C) (hy : y ∈ C) (hne : x ≠ y) (hxy : x + u * size x = y) :
    unitsOf u (Function.update size x (size x + size y)) (C.erase y) = unitsOf u size C := by
  ext a
  constructor
  · rintro ⟨z, hz, k, hk, rfl⟩
    by_cases hzx : z = x
    · subst hzx
      rw [Function.update_self] at hk
      rcases Nat.lt_or_ge k (size z) with hlt | hge
      · exact ⟨z, hx, k, hlt, rfl⟩
      · refine ⟨y, hy, k - size z, by omega, ?_⟩
        rw [← hxy, Nat.add_assoc, ← Nat.mul_add, Nat.add_sub_cancel' hge]
    · rw [Function.update_of_ne hzx] at hk
      exact ⟨z, Finset.mem_of_mem_erase hz, k, hk, rfl⟩
  · rintro ⟨z, hz, k, hk, rfl⟩
    by_cases hzx : z = x
    · subst hzx
      exact ⟨z, Finset.mem_erase.mpr ⟨hne, hx⟩, k, by rw [Function.update_self]; omega, rfl⟩
    by_cases hzy : z = y
    · subst hzy
      refine ⟨x, Finset.mem_erase.mpr ⟨hne, hx⟩, size x + k, by rw [Function.update_self]; omega, ?_⟩
      rw [← hxy, Nat.mul_add, Nat.add_assoc]
    · exact ⟨z, Finset.mem_erase.mpr ⟨hzy, hz⟩, k, by rwa [Function.update_of_ne hzx], rfl⟩

theorem eq_of_last_unit {lo hi : Nat} (h : Extents u lo hi (fun x => u * size x) C) (hu : 0 < u)
    (hx : x ∈ C) (hle : ∀ z ∈ C, size' z ≤ size z) (hpos : 0 < size x)
    (hlast : x + u * (size x - 1) ∈ unitsOf u size' C) : size' x = size x := by
  obtain ⟨z, hz, k, hk, heq⟩ := hlast
  have hklt : u * k < u * size z := Nat.mul_lt_mul_of_pos_left (hk.trans_le (hle z hz)) hu
  have hxlt : u * (size x - 1) < u * size x := Nat.mul_lt_mul_of_pos_left (by omega) hu
  rcases lt_trichotomy z x with hlt | rfl | hgt
  · have hapart := h.apart z hz x hx hlt
    omega
  · have hkx : u * (size z - 1) = u * k := by omega
    have := Nat.eq_of_mul_eq_mul_left hu hkx
    have := hle z hz
    omega
  · have hapart := h.apart x hx z hz hgt
    omega

end

end OsProject
