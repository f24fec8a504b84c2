import Mathlib.Computability.Language

/-! Where a text has a part in a language: at its beginning, or anywhere in it. -/

namespace OsProject

open scoped Computability

variable {α : Type*}

/-- The words of one letter that meets `p`. -/
def letters (p : α → Prop) : Language α := {w | ∃ x, p x ∧ w = [x]}

def Begins (L : Language α) (last : Prop) (text : List α) : Prop :=
  ∃ mid post, text = mid ++ post ∧ mid ∈ L ∧ (last → post = [])

/-- The text contains a word of `L`. With `first` there is nothing before that word, with `last`
nothing behind it. -/
def Occurs (L : Language α) (first last : Prop) (text : List α) : Prop :=
  ∃ pre mid post, text = pre ++ mid ++ post ∧ mid ∈ L ∧ (first → pre = []) ∧ (last → post = [])

section

variable {p : α → Prop} {L : Language α} {first last : Prop} {x : α} {text w : List α}

theorem cons_mem_letters_mul : x :: w ∈ letters p * L ↔ p x ∧ w ∈ L := by
  rw [Language.mem_mul]
  constructor
  · rintro ⟨_, ⟨y, hy, rfl⟩, b, hb, heq⟩
    cases heq
    exact ⟨hy, hb⟩
  · rintro ⟨hx, hw⟩
    exact ⟨[x], ⟨x, hx, rfl⟩, w, hw, rfl⟩

theorem nil_notMem_letters_mul : [] ∉ letters p * L := by
  rw [Language.mem_mul]
  rintro ⟨_, ⟨y, -, rfl⟩, b, -, heq⟩
  cases heq

theorem kstar_letters_mul : (letters p)∗ * L = L + letters p * ((letters p)∗ * L) := by
  rw [← mul_assoc]
  nth_rewrite 1 [← Language.one_add_self_mul_kstar_eq_kstar]
  rw [add_mul, one_mul]

theorem mem_kstar_letters : w ∈ (letters p)∗ ↔ ∀ x ∈ w, p x := by
  induction w with
  | nil => exact iff_of_true (Language.nil_mem_kstar _) (by simp)
  | cons x w ih =>
    have hstar := kstar_letters_mul (p := p) (L := 1)
    rw [mul_one] at hstar
    rw [hstar, Language.mem_add, Language.mem_one, cons_mem_letters_mul, ih]
    simp

theorem begins_one : Begins 1 last text ↔ (last → text = []) := by
  constructor
  · rintro ⟨_, post, rfl, rfl, hlast⟩
    exact hlast
  · intro h
    exact ⟨[], text, rfl, rfl, h⟩

theorem begins_letters_nil : ¬ Begins (letters p * L) last [] := by
  rintro ⟨mid, post, heq, hmid, -⟩
  rw [(List.nil_eq_append_iff.mp heq).1] at hmid
  exact nil_notMem_letters_mul hmid

theorem begins_letters_cons : Begins (letters p * L) last (x :: text) ↔ p x ∧ Begins L last text := by
  constructor
  · rintro ⟨mid, post, heq, hmid, hlast⟩
    cases mid with
    | nil => exact absurd hmid nil_notMem_letters_mul
    | cons y mid =>
      cases heq
      obtain ⟨hx, hmid⟩ := cons_mem_letters_mul.mp hmid
      exact ⟨hx, mid, post, rfl, hmid, hlast⟩
  · rintro ⟨hx, mid, post, rfl, hmid, hlast⟩
    exact ⟨x :: mid, post, rfl, cons_mem_letters_mul.mpr ⟨hx, hmid⟩, hlast⟩

theorem begins_add {M : Language α} :
    Begins (L + M) last text ↔ Begins L last text ∨ Begins M last text := by
  constructor
  · rintro ⟨mid, post, heq, hmid | hmid, hlast⟩
    · exact .inl ⟨mid, post, heq, hmid, hlast⟩
    · exact .inr ⟨mid, post, heq, hmid, hlast⟩
  · rintro (⟨mid, post, heq, hmid, hlast⟩ | ⟨mid, post, heq, hmid, hlast⟩)
    · exact ⟨mid, post, heq, .inl hmid, hlast⟩
    · exact ⟨mid, post, heq, .inr hmid, hlast⟩

theorem begins_kstar_cons : Begins ((letters p)∗ * L) last (x :: text) ↔
    Begins L last (x :: text) ∨ p x ∧ Begins ((letters p)∗ * L) last text := by
  nth_rewrite 1 [kstar_letters_mul]
  rw [begins_add, begins_letters_cons]

theorem begins_kstar_nil : Begins ((letters p)∗ * L) last [] ↔ Begins L last [] := by
  rw [kstar_letters_mul, begins_add, or_iff_left begins_letters_nil]

theorem occurs_first : Occurs L True last text ↔ Begins L last text := by
  constructor
  · rintro ⟨pre, mid, post, rfl, hmid, hfirst, hlast⟩
    rw [hfirst trivial]
    exact ⟨mid, post, rfl, hmid, hlast⟩
  · rintro ⟨mid, post, rfl, hmid, hlast⟩
    exact ⟨[], mid, post, rfl, hmid, fun _ => rfl, hlast⟩

theorem occurs_nil : Occurs L first last [] ↔ Begins L last [] := by
  constructor
  · rintro ⟨pre, mid, post, heq, hmid, -, hlast⟩
    obtain ⟨hpre, hpost⟩ := List.nil_eq_append_iff.mp heq
    exact ⟨mid, post, by rw [hpost, (List.append_eq_nil_iff.mp hpre).2]; rfl, hmid, hlast⟩
  · rintro ⟨mid, post, heq, hmid, hlast⟩
    exact ⟨[], mid, post, heq, hmid, fun _ => rfl, hlast⟩

theorem occurs_cons : Occurs L False last (x :: text) ↔
    Begins L last (x :: text) ∨ Occurs L False last text := by
  constructor
  · rintro ⟨pre, mid, post, heq, hmid, -, hlast⟩
    cases pre with
    | nil => exact .inl ⟨mid, post, heq, hmid, hlast⟩
    | cons y pre =>
      cases heq
      exact .inr ⟨pre, mid, post, rfl, hmid, False.elim, hlast⟩
  · rintro (⟨mid, post, heq, hmid, hlast⟩ | ⟨pre, mid, post, rfl, hmid, -, hlast⟩)
    · exact ⟨[], mid, post, heq, hmid, False.elim, hlast⟩
    · exact ⟨x :: pre, mid, post, rfl, hmid, False.elim, hlast⟩

end

end OsProject
