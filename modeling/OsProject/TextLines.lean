import Mathlib.Data.List.TakeWhile

/-! The lines of a text. Each line has its terminator, but for a last line without one. -/

namespace OsProject

variable {α : Type*} [DecidableEq α]

def lines (nl : α) : List α → List (List α)
  | [] => []
  | x :: text =>
    if x = nl then [x] :: lines nl text
    else
      match lines nl text with
      | [] => [[x]]
      | l :: ls => (x :: l) :: ls

section

variable {nl : α} {body text : List α}

@[simp] theorem lines_nil (nl : α) : lines nl [] = [] := rfl

theorem lines_line (h : nl ∉ body) (text : List α) :
    lines nl (body ++ nl :: text) = (body ++ [nl]) :: lines nl text := by
  induction body with
  | nil => simp [lines]
  | cons x body ih =>
    rw [List.mem_cons, not_or] at h
    rw [List.cons_append, lines, if_neg (Ne.symm h.1), ih h.2]
    rfl

theorem lines_of_notMem (hne : text ≠ []) (h : nl ∉ text) : lines nl text = [text] := by
  induction text with
  | nil => exact absurd rfl hne
  | cons x text ih =>
    rw [List.mem_cons, not_or] at h
    rw [lines, if_neg (Ne.symm h.1)]
    cases text with
    | nil => rfl
    | cons y text => rw [ih (List.cons_ne_nil y text) h.2]

theorem lines_cases (nl : α) (text : List α) : text = [] ∨ (text ≠ [] ∧ nl ∉ text) ∨
    ∃ body rest, text = body ++ nl :: rest ∧ nl ∉ body := by
  by_cases hne : text = []
  · exact .inl hne
  · by_cases h : nl ∈ text
    · obtain ⟨body, rest, heq, hbody⟩ := List.eq_append_cons_of_mem h
      exact .inr (.inr ⟨body, rest, heq, hbody⟩)
    · exact .inr (.inl ⟨hne, h⟩)

theorem lines_induction (nl : α) {P : List α → Prop} (nil : P [])
    (last : ∀ text, text ≠ [] → nl ∉ text → P text)
    (line : ∀ body text, nl ∉ body → P text → P (body ++ nl :: text)) (text : List α) : P text := by
  induction h : text.length using Nat.strongRecOn generalizing text with
  | ind n ih =>
    subst h
    rcases lines_cases nl text with rfl | ⟨hne, hmem⟩ | ⟨body, rest, rfl, hbody⟩
    · exact nil
    · exact last text hne hmem
    · refine line body rest hbody (ih rest.length ?_ rest rfl)
      rw [List.length_append, List.length_cons]
      omega

theorem ne_nil_of_mem_lines {l : List α} (h : l ∈ lines nl text) : l ≠ [] := by
  induction text using lines_induction nl with
  | nil => cases h
  | last text hne hnl =>
    rw [lines_of_notMem hne hnl, List.mem_singleton] at h
    rwa [h]
  | line body text hnl ih =>
    rw [lines_line hnl, List.mem_cons] at h
    rcases h with rfl | h
    · simp
    · exact ih h

end

section Bytes

def NL : UInt8 := 10

def string (s : List UInt8) : List UInt8 := s.takeWhile (· ≠ 0)

variable {body : List UInt8}

theorem takeWhile_ne {c : UInt8} (h : c ∉ body) (t : List UInt8) :
    (body ++ c :: t).takeWhile (· ≠ c) = body := by
  rw [List.takeWhile_append_of_pos, List.takeWhile_cons_of_neg (by simp), List.append_nil]
  intro x hx
  have hne : x ≠ c := fun he => h (he ▸ hx)
  simpa using hne

theorem string_of_notMem (h : 0 ∉ body) : string body = body := by
  refine List.takeWhile_eq_self_iff.mpr fun x hx => ?_
  have hne : x ≠ 0 := fun he => h (he ▸ hx)
  simpa using hne

end Bytes

end OsProject
