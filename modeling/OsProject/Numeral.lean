import Mathlib.Data.Nat.Digits.Lemmas
import Mathlib.Tactic.IntervalCases

/-! Positional numerals over any alphabet of digits: least significant digit first as a division loop
produces them, and in reading order. -/

namespace OsProject

variable {α : Type*} {b : Nat}

def numeralRev (digit : Nat → α) (b x : Nat) : List α :=
  if x < b then [digit x] else (b.digits x).map digit

def numeral (digit : Nat → α) (b x : Nat) : List α := (numeralRev digit b x).reverse

def readNumeral (value : α → Option Nat) (b : Nat) (s : List α) : Option Nat :=
  if s = [] then none else (s.mapM value).map fun ds => Nat.ofDigits b ds.reverse

theorem numeralRev_of_lt (digit : Nat → α) {x : Nat} (h : x < b) :
    numeralRev digit b x = [digit x] := if_pos h

theorem numeralRev_of_pos (digit : Nat → α) {x : Nat} (h : 0 < x) :
    numeralRev digit b x = (b.digits x).map digit := by
  rw [numeralRev]
  split_ifs with hx
  · rw [Nat.digits_of_lt b x (by omega) hx, List.map_singleton]
  · rfl

theorem numeralRev_step (hb : 1 < b) (digit : Nat → α) {x : Nat} (h : b ≤ x) :
    numeralRev digit b x = digit (x % b) :: numeralRev digit b (x / b) := by
  have hdiv : 0 < x / b := Nat.div_pos h (by omega)
  rw [numeralRev_of_pos digit (by omega), numeralRev_of_pos digit hdiv,
    Nat.digits_def' hb (by omega), List.map_cons]

theorem numeralRev_zero (hb : 1 < b) (digit : Nat → α) : numeralRev digit b 0 = [digit 0] :=
  numeralRev_of_lt digit (by omega)

theorem numeralRev_ne_nil (hb : 1 < b) (digit : Nat → α) (x : Nat) : numeralRev digit b x ≠ [] := by
  rcases Nat.lt_or_ge x b with h | h
  · rw [numeralRev_of_lt digit h]
    exact List.cons_ne_nil _ _
  · rw [numeralRev_step hb digit h]
    exact List.cons_ne_nil _ _

theorem numeralRev_digits (hb : 1 < b) (x : Nat) :
    ∃ ds : List Nat, (∀ d ∈ ds, d < b) ∧ Nat.ofDigits b ds = x ∧
      ∀ digit : Nat → α, numeralRev digit b x = ds.map digit := by
  rcases Nat.eq_zero_or_pos x with rfl | hx
  · refine ⟨[0], by simpa using Nat.lt_of_succ_lt hb, by simp, ?_⟩
    intro digit
    rw [numeralRev_zero hb, List.map_singleton]
  · exact ⟨b.digits x, fun d hd => Nat.digits_lt_base hb hd, Nat.ofDigits_digits b x,
      fun digit => numeralRev_of_pos digit hx⟩

theorem length_numeralRev (hb : 1 < b) (digit : Nat → α) {x k : Nat} (hk : 0 < k) :
    (numeralRev digit b x).length ≤ k ↔ x < b ^ k := by
  rcases Nat.eq_zero_or_pos x with rfl | hx
  · rw [numeralRev_zero hb]
    simpa using ⟨fun _ => Nat.pow_pos (by omega), fun _ => hk⟩
  · rw [numeralRev_of_pos digit hx, List.length_map, Nat.digits_length_le_iff hb]

theorem numeral_ne_nil (hb : 1 < b) (digit : Nat → α) (x : Nat) : numeral digit b x ≠ [] := by
  rw [numeral, Ne, List.reverse_eq_nil_iff]
  exact numeralRev_ne_nil hb digit x

theorem length_numeral (hb : 1 < b) (digit : Nat → α) {x k : Nat} (hk : 0 < k) :
    (numeral digit b x).length ≤ k ↔ x < b ^ k := by
  rw [numeral, List.length_reverse, length_numeralRev hb digit hk]

theorem mem_numeral (hb : 1 < b) (digit : Nat → α) {x : Nat} {c : α} (h : c ∈ numeral digit b x) :
    ∃ d < b, c = digit d := by
  obtain ⟨ds, hlt, _, heq⟩ := @numeralRev_digits α b hb x
  rw [numeral, List.mem_reverse, heq digit] at h
  obtain ⟨d, hd, rfl⟩ := List.mem_map.mp h
  exact ⟨d, hlt d hd, rfl⟩

theorem head_numeral (hb : 1 < b) (digit : Nat → α) {x : Nat} (hx : 0 < x) :
    ∃ d, 0 < d ∧ d < b ∧ (numeral digit b x).head? = some (digit d) := by
  have hne : b.digits x ≠ [] := Nat.digits_ne_nil_iff_ne_zero.mpr (by omega)
  refine ⟨(b.digits x).getLast hne, ?_, Nat.digits_lt_base hb (List.getLast_mem hne), ?_⟩
  · exact Nat.pos_of_ne_zero (Nat.getLast_digit_ne_zero b (by omega))
  · rw [numeral, List.head?_reverse, numeralRev_of_pos digit hx, List.getLast?_map,
      List.getLast?_eq_some_getLast hne, Option.map_some]

theorem forall₂_numeral {β : Type*} {R : α → β → Prop} {f : Nat → α} {g : Nat → β}
    (h : ∀ d, R (f d) (g d)) (b x : Nat) : List.Forall₂ R (numeral f b x) (numeral g b x) := by
  have hmap : ∀ ds : List Nat, List.Forall₂ R (ds.map f) (ds.map g) := by
    intro ds
    rw [List.forall₂_map_left_iff, List.forall₂_map_right_iff, List.forall₂_same]
    exact fun d _ => h d
  rw [numeral, numeral, List.forall₂_reverse_iff, numeralRev, numeralRev]
  split_ifs
  · exact hmap [x]
  · exact hmap (b.digits x)

theorem mapM_value {value : α → Option Nat} {digit : Nat → α} {ds : List Nat}
    (h : ∀ d ∈ ds, value (digit d) = some d) : (ds.map digit).mapM value = some ds := by
  induction ds with
  | nil => rfl
  | cons d ds ih =>
    rw [List.map_cons, List.mapM_cons, h d List.mem_cons_self,
      ih fun e he => h e (List.mem_cons_of_mem d he)]
    rfl

theorem readNumeral_numeral (hb : 1 < b) {value : α → Option Nat} {digit : Nat → α}
    (h : ∀ d < b, value (digit d) = some d) (x : Nat) :
    readNumeral value b (numeral digit b x) = some x := by
  obtain ⟨ds, hlt, hof, heq⟩ := @numeralRev_digits α b hb x
  rw [readNumeral, if_neg (numeral_ne_nil hb digit x), numeral, heq digit, ← List.map_reverse,
    mapM_value fun d hd => h d (hlt d (List.mem_reverse.mp hd)), Option.map_some,
    List.reverse_reverse, hof]

def decimal (x : Nat) : List UInt8 := numeral (fun d => .ofNat (48 + d)) 10 x

theorem decimal_digit {x : Nat} {c : UInt8} (h : c ∈ decimal x) : 48 ≤ c ∧ c ≤ 57 := by
  obtain ⟨d, hd, rfl⟩ := mem_numeral (by decide) _ h
  interval_cases d <;> decide

end OsProject
