import Mathlib.Data.List.Induction
import Mathlib.Data.List.Nodup
import Mathlib.Logic.Function.Basic

/-! Doubly linked rings through a head node. A node is an element, or `none` for the head, and the
two pointers of a node are given by two functions. -/

namespace OsProject

variable {α : Type*}

/-- Along `f` one comes from `a` through the elements of the list to `b`. -/
def Path (f : Option α → Option α) : Option α → List α → Option α → Prop
  | a, [], b => f a = b
  | a, x :: l, b => f a = some x ∧ Path f (some x) l b

/-- `l` lists the elements of the ring in the order of their `next` pointers. -/
structure IsRing (next prev : Option α → Option α) (l : List α) : Prop where
  nodup : l.Nodup
  forth : Path next none l none
  back : Path prev none l.reverse none

section Path

variable {f g : Option α → Option α} {a b c : Option α} {x y : α} {l l' : List α}

theorem Path.first (h : Path f a l b) : f a = l.head?.or b := by
  cases l with
  | nil => exact h
  | cons y l => exact h.1

theorem path_append : Path f a (l ++ x :: l') b ↔ Path f a l (some x) ∧ Path f (some x) l' b := by
  induction l generalizing a with
  | nil => rfl
  | cons y l ih =>
    simp only [List.cons_append, Path, ih]
    exact and_assoc.symm

theorem Path.congr (h : Path f a l b) (ha : g a = f a) (hl : ∀ y ∈ l, g (some y) = f (some y)) :
    Path g a l b := by
  induction l generalizing a with
  | nil => exact ha.trans h
  | cons y l ih =>
    refine ⟨ha.trans h.1, ih h.2 (hl y (by simp)) fun z hz => hl z (by simp [hz])⟩

variable [DecidableEq α]

theorem Path.redirect (h : Path f none l b) (hl : l.Nodup) (c : Option α) :
    Path (Function.update f l.getLast? c) none l c := by
  induction l using List.reverseRecOn with
  | nil => exact Function.update_self _ _ _
  | append_singleton l y ih =>
    rw [List.getLast?_concat]
    rw [path_append] at h ⊢
    have hnd := List.nodup_append.mp hl
    have hy : y ∉ l := fun hy => hnd.2.2 y hy y (by simp) rfl
    refine ⟨h.1.congr (Function.update_of_ne (by simp) _ _) fun z hz => ?_, ?_⟩
    · refine Function.update_of_ne (fun he => ?_) _ _
      rw [Option.some.injEq] at he
      exact hy (he ▸ hz)
    · exact Function.update_self _ _ _

theorem Path.skip (h : Path f none (l ++ x :: l') none) (hl : (l ++ x :: l').Nodup) :
    Path (Function.update f l.getLast? (f (some x))) none (l ++ l') none := by
  obtain ⟨h1, h2⟩ := path_append.mp h
  have hnd := List.nodup_append.mp hl
  cases l' with
  | nil =>
    rw [List.append_nil, show f (some x) = none from h2]
    exact h1.redirect hnd.1 none
  | cons y l' =>
    rw [h2.1, path_append]
    refine ⟨h1.redirect hnd.1 (some y), h2.2.congr ?_ fun z hz => ?_⟩
    · refine Function.update_of_ne (fun he => ?_) _ _
      exact hnd.2.2 y (List.mem_of_getLast? he.symm) y (by simp) rfl
    · refine Function.update_of_ne (fun he => ?_) _ _
      exact hnd.2.2 z (List.mem_of_getLast? he.symm) z (by simp [hz]) rfl

theorem Path.push (h : Path f none l none) (hx : x ∉ l) :
    Path (Function.update (Function.update f (some x) (f none)) none (some x)) none (x :: l)
      none := by
  refine ⟨Function.update_self _ _ _, ?_⟩
  have hstart : Function.update (Function.update f (some x) (f none)) none (some x) (some x) =
      f none := by
    rw [Function.update_of_ne (by simp), Function.update_self]
  have hrest : ∀ y ∈ l, Function.update (Function.update f (some x) (f none)) none (some x)
      (some y) = f (some y) := by
    intro y hy
    rw [Function.update_of_ne (by simp), Function.update_of_ne]
    rintro he
    rw [Option.some.injEq] at he
    exact hx (he ▸ hy)
  cases l with
  | nil => exact hstart.trans h
  | cons y l =>
    exact ⟨hstart.trans h.1, h.2.congr (hrest y (by simp)) fun z hz => hrest z (by simp [hz])⟩

theorem Path.concat (h : Path f none l none) (hl : l.Nodup) (hx : x ∉ l) :
    Path (Function.update (Function.update f (some x) none) l.getLast? (some x)) none (l ++ [x])
      none := by
  have hnew : Path (Function.update f (some x) none) none l none :=
    h.congr (Function.update_of_ne (by simp) _ _) fun y hy => by
      refine Function.update_of_ne (fun he => ?_) _ _
      rw [Option.some.injEq] at he
      exact hx (he ▸ hy)
  refine path_append.mpr ⟨hnew.redirect hl (some x), ?_⟩
  rw [Path, Function.update_of_ne, Function.update_self]
  exact fun he => hx (List.mem_of_getLast? he.symm)

end Path

section Links

variable {next prev : Option α → Option α} {x : α} {l l1 l2 : List α}

theorem IsRing.next_eq (h : IsRing next prev (l1 ++ x :: l2)) : next (some x) = l2.head? := by
  have hf := (path_append.mp h.forth).2.first
  rwa [Option.or_none] at hf

theorem IsRing.prev_eq (h : IsRing next prev (l1 ++ x :: l2)) : prev (some x) = l1.getLast? := by
  have hb := h.back
  rw [List.reverse_append, List.reverse_cons, List.append_assoc, List.singleton_append] at hb
  have hf := (path_append.mp hb).2.first
  rwa [Option.or_none, List.head?_reverse] at hf

variable [DecidableEq α]

/-- `b->next->prev = b->prev; b->prev->next = b->next`, as the two new pointer functions. -/
def unlink (next prev : Option α → Option α) (x : α) :
    (Option α → Option α) × (Option α → Option α) :=
  let prev' := Function.update prev (next (some x)) (prev (some x))
  (Function.update next (prev' (some x)) (next (some x)), prev')

/-- `b->next = head.next; b->prev = &head; head.next->prev = b; head.next = b`. -/
def linkFirst (next prev : Option α → Option α) (x : α) :
    (Option α → Option α) × (Option α → Option α) :=
  let next' := Function.update next (some x) (next none)
  let prev' := Function.update (Function.update prev (some x) none) (next' none) (some x)
  (Function.update next' none (some x), prev')

theorem IsRing.unlink (h : IsRing next prev (l1 ++ x :: l2)) :
    IsRing (unlink next prev x).1 (unlink next prev x).2 (l1 ++ l2) := by
  have hnd := h.nodup
  have hx : x ∉ l2 := (List.nodup_cons.mp (List.nodup_append.mp hnd).2.1).1
  have hkeep : Function.update prev (next (some x)) (prev (some x)) (some x) = prev (some x) := by
    refine Function.update_of_ne (fun he => ?_) _ _
    rw [h.next_eq] at he
    exact hx (List.mem_of_head? he.symm)
  refine ⟨?_, ?_, ?_⟩
  · rw [List.nodup_append] at hnd ⊢
    exact ⟨hnd.1, (List.nodup_cons.mp hnd.2.1).2, fun y hy z hz => hnd.2.2 y hy z (by simp [hz])⟩
  · simp only [OsProject.unlink, hkeep]
    rw [h.prev_eq]
    exact h.forth.skip hnd
  · simp only [OsProject.unlink, h.next_eq]
    have hb := h.back
    rw [List.reverse_append, List.reverse_cons, List.append_assoc, List.singleton_append] at hb
    have hr := hb.skip (by simpa using List.nodup_reverse.mpr hnd)
    rwa [List.getLast?_reverse, ← List.reverse_append] at hr

theorem IsRing.linkFirst (h : IsRing next prev l) (hx : x ∉ l) :
    IsRing (linkFirst next prev x).1 (linkFirst next prev x).2 (x :: l) := by
  refine ⟨List.nodup_cons.mpr ⟨hx, h.nodup⟩, h.forth.push hx, ?_⟩
  have hfirst : Function.update next (some x) (next none) none = l.reverse.getLast? := by
    rw [Function.update_of_ne (by simp), List.getLast?_reverse]
    simpa using h.forth.first
  simp only [OsProject.linkFirst, hfirst, List.reverse_cons]
  exact h.back.concat (List.nodup_reverse.mpr h.nodup) (by simpa using hx)

end Links

section Scan

/-- The loop that follows `f` to the head and stops at the first element with `P`. It gives
nothing if it has not come to an end after `fuel` elements. -/
def scan (f : Option α → Option α) (P : α → Bool) : Nat → Option α → Option (Option α)
  | _, none => some none
  | 0, some _ => none
  | fuel + 1, some x => if P x then some (some x) else scan f P fuel (f (some x))

theorem Path.scan_eq {f : Option α → Option α} {a : Option α} {l : List α} (h : Path f a l none)
    (P : α → Bool) {fuel : Nat} (hfuel : l.length ≤ fuel) :
    scan f P fuel (f a) = some (l.find? P) := by
  induction l generalizing a fuel with
  | nil =>
    rw [show f a = none from h]
    cases fuel <;> rfl
  | cons x l ih =>
    obtain ⟨fuel, rfl⟩ : ∃ n, fuel = n + 1 := ⟨fuel - 1, by simp at hfuel; omega⟩
    rw [h.1, scan, List.find?_cons]
    cases hP : P x with
    | true => rfl
    | false =>
      simp only [Bool.false_eq_true, if_false]
      exact ih h.2 (by simpa using hfuel)

end Scan

end OsProject
