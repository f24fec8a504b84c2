import OsProject.TextLines

/-! `fgets` with a bounded buffer. A line that does not fit comes in several pieces. -/

namespace OsProject

variable {α : Type*} [DecidableEq α]

/-- What one call reads into a buffer with room for `n` characters besides the NUL, and what is left
of the input. -/
def fgets (nl : α) : Nat → List α → List α × List α
  | 0, text => ([], text)
  | _ + 1, [] => ([], [])
  | n + 1, x :: text =>
    if x = nl then ([x], text) else (x :: (fgets nl n text).1, (fgets nl n text).2)

theorem append_fgets (nl : α) (n : Nat) (text : List α) :
    (fgets nl n text).1 ++ (fgets nl n text).2 = text := by
  induction text generalizing n with
  | nil => cases n <;> rfl
  | cons x text ih =>
    cases n with
    | zero => rfl
    | succ n =>
      rw [fgets]
      split_ifs
      · rfl
      · exact congrArg (x :: ·) (ih n)

theorem length_fgets_le (nl : α) (n : Nat) (text : List α) : (fgets nl n text).1.length ≤ n := by
  induction text generalizing n with
  | nil => cases n <;> simp [fgets]
  | cons x text ih =>
    cases n with
    | zero => simp [fgets]
    | succ n =>
      rw [fgets]
      split_ifs
      · simp
      · simpa using ih n

theorem length_fgets_lt {nl : α} {n : Nat} {text : List α} (hn : 0 < n) (h : text ≠ []) :
    (fgets nl n text).2.length < text.length := by
  obtain ⟨n, rfl⟩ := Nat.exists_eq_add_one.mpr hn
  cases text with
  | nil => exact absurd rfl h
  | cons x text =>
    have hlen := congrArg List.length (append_fgets nl n text)
    rw [List.length_append] at hlen
    rw [fgets]
    split_ifs
    · simp
    · simp only [List.length_cons]
      omega

def reads (nl : α) (n : Nat) (text : List α) : List (List α) :=
  if _ : 0 < n ∧ text ≠ [] then (fgets nl n text).1 :: reads nl n (fgets nl n text).2 else []
termination_by text.length
decreasing_by exact length_fgets_lt ‹_ ∧ _›.1 ‹_ ∧ _›.2

section

variable {nl : α} {n : Nat} {body text : List α}

theorem fgets_line (h : nl ∉ body) (hlen : body.length < n) (text : List α) :
    fgets nl n (body ++ nl :: text) = (body ++ [nl], text) := by
  induction body generalizing n with
  | nil =>
    obtain ⟨n, rfl⟩ := Nat.exists_eq_add_one.mpr hlen
    simp [fgets]
  | cons x body ih =>
    obtain ⟨n, rfl⟩ := Nat.exists_eq_add_one.mpr (Nat.zero_lt_of_lt hlen)
    rw [List.mem_cons, not_or] at h
    rw [List.cons_append, fgets, if_neg (Ne.symm h.1), ih h.2 (Nat.lt_of_succ_lt_succ hlen)]
    rfl

theorem fgets_part (h : nl ∉ body) (text : List α)
    (hlen : body.length = n ∨ body.length ≤ n ∧ text = []) :
    fgets nl n (body ++ text) = (body, text) := by
  induction body generalizing n with
  | nil =>
    rcases hlen with rfl | ⟨-, rfl⟩
    · rfl
    · cases n <;> rfl
  | cons x body ih =>
    cases n with
    | zero => simp at hlen
    | succ n =>
      rw [List.mem_cons, not_or] at h
      have hlen' : body.length = n ∨ body.length ≤ n ∧ text = [] := by simpa using hlen
      rw [List.cons_append, fgets, if_neg (Ne.symm h.1), ih h.2 hlen']

@[simp] theorem reads_nil (nl : α) (n : Nat) : reads nl n [] = [] := by
  rw [reads]
  simp

theorem reads_cons (hn : 0 < n) (h : text ≠ []) :
    reads nl n text = (fgets nl n text).1 :: reads nl n (fgets nl n text).2 := by
  rw [reads, dif_pos ⟨hn, h⟩]

theorem flatten_reads (hn : 0 < n) (text : List α) : (reads nl n text).flatten = text := by
  induction h : text.length using Nat.strongRecOn generalizing text with
  | ind m ih =>
    by_cases hne : text = []
    · rw [hne, reads_nil]
      rfl
    · rw [reads_cons hn hne, List.flatten_cons, ih _ (h ▸ length_fgets_lt hn hne) _ rfl, append_fgets]

theorem length_le_of_mem_reads {l : List α} (h : l ∈ reads nl n text) : l.length ≤ n := by
  induction hm : text.length using Nat.strongRecOn generalizing text with
  | ind m ih =>
    rw [reads] at h
    split_ifs at h with hne
    · rcases List.mem_cons.mp h with rfl | h
      · exact length_fgets_le nl n text
      · exact ih _ (hm ▸ length_fgets_lt hne.1 hne.2) h rfl
    · cases h

theorem length_reads_le (nl : α) (n : Nat) (text : List α) :
    (reads nl n text).length ≤ text.length := by
  induction hm : text.length using Nat.strongRecOn generalizing text with
  | ind m ih =>
    rw [reads]
    split_ifs with hne
    · have hlt : (fgets nl n text).2.length < text.length := length_fgets_lt hne.1 hne.2
      have hrest := ih _ (hm ▸ hlt) (fgets nl n text).2 rfl
      rw [List.length_cons]
      omega
    · exact Nat.zero_le m

theorem reads_line (hn : 0 < n) (h : nl ∉ body) (text : List α) :
    reads nl n (body ++ nl :: text) = reads nl n (body ++ [nl]) ++ reads nl n text := by
  induction hm : body.length using Nat.strongRecOn generalizing body with
  | ind m ih =>
    rw [reads_cons hn (show body ++ nl :: text ≠ [] by simp),
      reads_cons hn (show body ++ [nl] ≠ [] by simp)]
    rcases Nat.lt_or_ge body.length n with hlt | hge
    · rw [fgets_line h hlt, fgets_line h hlt, reads_nil]
      rfl
    · obtain ⟨a, b, rfl, ha⟩ : ∃ a b, body = a ++ b ∧ a.length = n :=
        ⟨body.take n, body.drop n, (List.take_append_drop n body).symm, List.length_take_of_le hge⟩
      rw [List.mem_append, not_or] at h
      rw [List.length_append] at hm
      rw [List.append_assoc, List.append_assoc, fgets_part h.1 _ (.inl ha),
        fgets_part h.1 _ (.inl ha)]
      exact congrArg (a :: ·) (ih b.length (by omega) h.2 rfl)

theorem reads_eq_flatMap (hn : 0 < n) (text : List α) :
    reads nl n text = (lines nl text).flatMap (reads nl n) := by
  induction text using lines_induction nl with
  | nil => simp
  | last text hne h => simp [lines_of_notMem hne h]
  | line body text h ih => rw [lines_line h, List.flatMap_cons, reads_line hn h, ih]

theorem mem_lines_cases {l : List α} (h : l ∈ lines nl text) :
    (l ≠ [] ∧ nl ∉ l) ∨ ∃ body, l = body ++ [nl] ∧ nl ∉ body := by
  induction text using lines_induction nl with
  | nil => cases h
  | last text hne hnl =>
    rw [lines_of_notMem hne hnl, List.mem_singleton] at h
    exact .inl (h ▸ ⟨hne, hnl⟩)
  | line body text hnl ih =>
    rw [lines_line hnl, List.mem_cons] at h
    rcases h with rfl | h
    · exact .inr ⟨body, rfl, hnl⟩
    · exact ih h

theorem reads_short {l : List α} (h : l ∈ lines nl text) (hlen : l.length ≤ n) :
    reads nl n l = [l] := by
  have hpos : 0 < n :=
    Nat.lt_of_lt_of_le (List.length_pos_iff.mpr (ne_nil_of_mem_lines h)) hlen
  rw [reads_cons hpos (ne_nil_of_mem_lines h)]
  rcases mem_lines_cases h with ⟨-, hnl⟩ | ⟨body, rfl, hnl⟩
  · have hpart := fgets_part hnl [] (.inr ⟨hlen, rfl⟩)
    rw [List.append_nil] at hpart
    rw [hpart, reads_nil]
  · rw [List.length_append, List.length_singleton] at hlen
    rw [fgets_line hnl hlen, reads_nil]

theorem reads_long {l : List α} (hn : 0 < n) (h : l ∈ lines nl text) (hlen : n < l.length) :
    reads nl n l = l.take n :: reads nl n (l.drop n) := by
  have hpart : nl ∉ l.take n := by
    rcases mem_lines_cases h with ⟨-, hnl⟩ | ⟨body, rfl, hnl⟩
    · exact fun hmem => hnl (List.mem_of_mem_take hmem)
    · rw [List.length_append, List.length_singleton] at hlen
      rw [List.take_append_of_le_length (by omega)]
      exact fun hmem => hnl (List.mem_of_mem_take hmem)
  have hcut : fgets nl n l = (l.take n, l.drop n) := by
    have hfull := fgets_part hpart (l.drop n) (.inl (List.length_take_of_le (Nat.le_of_lt hlen)))
    rwa [List.take_append_drop] at hfull
  rw [reads_cons hn (ne_nil_of_mem_lines h), hcut]

theorem reads_two {a b : List α} (hn : 0 < n) (ha : a.length = n) (hb : b.length < n)
    (hnl : nl ∉ a ++ b) : lines nl (a ++ (b ++ [nl])) = [a ++ (b ++ [nl])] ∧
      reads nl n (a ++ (b ++ [nl])) = [a, b ++ [nl]] := by
  have hline := lines_line hnl []
  rw [List.append_assoc] at hline
  rw [List.mem_append, not_or] at hnl
  refine ⟨hline, ?_⟩
  rw [reads_cons hn (by simp), fgets_part hnl.1 _ (.inl ha), reads_cons hn (by simp),
    fgets_line hnl.2 hb, reads_nil]

theorem length_le_flatMap {β γ : Type*} {f : β → List γ} {l : List β}
    (h : ∀ b ∈ l, 0 < (f b).length) : l.length ≤ (l.flatMap f).length := by
  induction l with
  | nil => exact Nat.le_refl 0
  | cons b l ih =>
    have hb := h b List.mem_cons_self
    have hl := ih fun c hc => h c (List.mem_cons_of_mem b hc)
    rw [List.length_cons, List.flatMap_cons, List.length_append]
    omega

theorem flatMap_later {β : Type*} {f : β → List β} {t x : β} {ts : List β} {i : Nat}
    (hpos : ∀ b ∈ t :: ts, 0 < (f b).length) (ht : 1 < (f t).length) (hx : f x = [x])
    (hi : ts[i]? = some x) : ∃ j, i + 1 < j ∧ ((t :: ts).flatMap f)[j]? = some x := by
  obtain ⟨hlt, hget⟩ := List.getElem?_eq_some_iff.mp hi
  obtain ⟨a, b, rfl, ha⟩ : ∃ a b, ts = a ++ x :: b ∧ a.length = i := by
    refine ⟨ts.take i, ts.drop (i + 1), ?_, List.length_take_of_le (Nat.le_of_lt hlt)⟩
    rw [← hget, ← List.drop_eq_getElem_cons, List.take_append_drop]
  have hle : a.length ≤ (a.flatMap f).length := length_le_flatMap fun b hb =>
    hpos b (List.mem_cons_of_mem t (List.mem_append_left _ hb))
  refine ⟨(f t).length + (a.flatMap f).length, by omega, ?_⟩
  rw [List.flatMap_cons, List.flatMap_append, List.flatMap_cons, hx,
    List.getElem?_append_right (Nat.le_add_right _ _), Nat.add_sub_cancel_left,
    List.getElem?_append_right (Nat.le_refl _), Nat.sub_self]
  rfl

end

end OsProject
