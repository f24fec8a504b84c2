import Mathlib.Data.List.Basic
import Mathlib.Data.List.TakeWhile

/-! The maximal runs of a list without separators, and `strtok`, which takes one after the other. -/

namespace OsProject

variable {α : Type*}

def sepRuns (sep : α → Bool) (s : List α) : List (List α) := (s.splitOnP sep).filter (· ≠ [])

def strtok (sep : α → Bool) (s : List α) : Option (List α × List α) :=
  match s.dropWhile sep with
  | [] => none
  | c :: s => some ((c :: s).takeWhile (!sep ·), ((c :: s).dropWhile (!sep ·)).drop 1)

section

variable {sep : α → Bool} {c : α} {s t : List α}

@[simp] theorem sepRuns_nil (sep : α → Bool) : sepRuns sep [] = [] := by
  simp [sepRuns]

theorem sepRuns_sep (h : sep c = true) (s : List α) : sepRuns sep (c :: s) = sepRuns sep s := by
  simp [sepRuns, List.splitOnP_cons_eq_if_modifyHead, h]

theorem sepRuns_dropWhile (sep : α → Bool) (s : List α) :
    sepRuns sep (s.dropWhile sep) = sepRuns sep s := by
  induction s with
  | nil => rfl
  | cons c s ih =>
    by_cases hc : sep c = true
    · rw [sepRuns_sep hc, List.dropWhile_cons_of_pos hc, ih]
    · rw [List.dropWhile_cons_of_neg hc]

theorem sepRuns_of_none (hne : s ≠ []) (h : ∀ x ∈ s, sep x = false) : sepRuns sep s = [s] := by
  rw [sepRuns, List.splitOnP_eq_singleton h]
  simp [hne]

theorem sepRuns_cons (hc : sep c = false) (s : List α) : sepRuns sep (c :: s) =
    (c :: s).takeWhile (!sep ·) :: sepRuns sep ((c :: s).dropWhile (!sep ·)) := by
  have hrun : ∀ x ∈ (c :: s).takeWhile (!sep ·), sep x = false := by
    intro x hx
    simpa using List.mem_takeWhile_imp hx
  have hne : (c :: s).takeWhile (!sep ·) ≠ [] := by
    rw [List.takeWhile_cons_of_pos (by simp [hc])]
    exact List.cons_ne_nil _ _
  have hsplit := List.takeWhile_append_dropWhile (p := (!sep ·)) (l := c :: s)
  cases hrest : (c :: s).dropWhile (!sep ·) with
  | nil =>
    rw [hrest, List.append_nil] at hsplit
    rw [hsplit] at hrun hne ⊢
    rw [sepRuns_of_none hne hrun, sepRuns_nil]
  | cons d rest =>
    have hd : sep d = true := by
      have hhead := List.head?_dropWhile_not (!sep ·) (c :: s)
      rw [hrest] at hhead
      simpa using hhead
    rw [hrest] at hsplit
    rw [sepRuns_sep hd]
    nth_rewrite 1 [← hsplit]
    rw [sepRuns, List.splitOnP_append_cons_of_forall_mem hrun d hd,
      List.filter_cons_of_pos (by simpa using hne)]
    rfl

theorem strtok_none (h : strtok sep s = none) : sepRuns sep s = [] := by
  rw [← sepRuns_dropWhile]
  cases hs : s.dropWhile sep with
  | nil => exact sepRuns_nil sep
  | cons c t =>
    rw [strtok, hs] at h
    cases h

theorem strtok_some {rest : List α} (h : strtok sep s = some (t, rest)) :
    sepRuns sep s = t :: sepRuns sep rest := by
  rw [← sepRuns_dropWhile]
  have hhead := List.head?_dropWhile_not sep s
  rw [strtok] at h
  cases hs : s.dropWhile sep with
  | nil =>
    rw [hs] at h
    cases h
  | cons c u =>
    rw [hs] at h hhead
    cases h
    rw [sepRuns_cons (by simpa using hhead)]
    congr 1
    cases hrest : (c :: u).dropWhile (!sep ·) with
    | nil => rfl
    | cons d v =>
      have hd := List.head?_dropWhile_not (!sep ·) (c :: u)
      rw [hrest] at hd
      exact sepRuns_sep (by simpa using hd) v

theorem flatten_sepRuns (sep : α → Bool) (s : List α) :
    (sepRuns sep s).flatten = s.filter (!sep ·) := by
  have hall : (s.splitOnP sep).flatten = s.filter (!sep ·) := by
    induction s with
    | nil => simp
    | cons c s ih =>
      rw [List.splitOnP_cons_eq_if_modifyHead]
      split_ifs with hc
      · simp [hc, ih]
      · obtain ⟨l, ls, hls⟩ := List.exists_cons_of_ne_nil (List.splitOnP_ne_nil sep s)
        rw [hls] at ih ⊢
        rw [List.filter_cons_of_pos (by simpa using hc), ← ih]
        rfl
  rw [← hall, sepRuns]
  exact List.flatten_filter_ne_nil

theorem ne_nil_of_mem_sepRuns (h : t ∈ sepRuns sep s) : t ≠ [] := by
  simpa using (List.mem_filter.mp h).2

theorem sepRuns_eq_nil : sepRuns sep s = [] ↔ ∀ x ∈ s, sep x = true := by
  have hflat := flatten_sepRuns sep s
  constructor
  · intro h
    rw [h, List.flatten_nil, eq_comm, List.filter_eq_nil_iff] at hflat
    simpa using hflat
  · intro h
    have hnil : s.filter (!sep ·) = [] := List.filter_eq_nil_iff.mpr (by simpa using h)
    rw [hnil, List.flatten_eq_nil_iff] at hflat
    exact List.eq_nil_iff_forall_not_mem.mpr fun t ht => ne_nil_of_mem_sepRuns ht (hflat t ht)

theorem sepRuns_congr {sep' : α → Bool} (h : ∀ x ∈ s, sep x = sep' x) :
    sepRuns sep s = sepRuns sep' s := by
  have hsplit : s.splitOnP sep = s.splitOnP sep' := by
    induction s with
    | nil => rfl
    | cons c s ih =>
      rw [List.splitOnP_cons_eq_if_modifyHead, List.splitOnP_cons_eq_if_modifyHead,
        h c List.mem_cons_self, ih fun x hx => h x (List.mem_cons_of_mem c hx)]
  rw [sepRuns, hsplit, sepRuns]

theorem sepRuns_concat (h : sep c = true) (s : List α) : sepRuns sep (s ++ [c]) = sepRuns sep s := by
  rw [sepRuns, List.splitOnP_append_cons _ _ h, List.filter_append]
  simp [sepRuns]

theorem sepRuns_append_of_sep {bl : List α} (hbl : ∀ x ∈ bl, sep x = true) (s : List α) :
    sepRuns sep (s ++ bl) = sepRuns sep s := by
  induction bl generalizing s with
  | nil => rw [List.append_nil]
  | cons c bl ih =>
    rw [List.append_cons, ih (fun x hx => hbl x (List.mem_cons_of_mem c hx)),
      sepRuns_concat (hbl c List.mem_cons_self)]

theorem sepRuns_of_sep_append {bl : List α} (hbl : ∀ x ∈ bl, sep x = true) (s : List α) :
    sepRuns sep (bl ++ s) = sepRuns sep s := by
  rw [← sepRuns_dropWhile, List.dropWhile_append_of_pos hbl, sepRuns_dropWhile]

theorem head_sepRuns {bl : List α} (hbl : ∀ x ∈ bl, sep x = true) (hc : sep c = false) (r : List α) :
    (sepRuns sep (bl ++ c :: r)).head? = some (c :: r.takeWhile (!sep ·)) := by
  rw [sepRuns_of_sep_append hbl, sepRuns_cons hc, List.head?_cons,
    List.takeWhile_cons_of_pos (by simp [hc])]

def startsRun (sep : α → Bool) (s : List α) : Bool := s.head?.any (!sep ·)
def endsRun (sep : α → Bool) (s : List α) : Bool := s.getLast?.any (!sep ·)

theorem length_sepRuns_cons (hc : sep c = false) (s : List α) :
    (sepRuns sep (c :: s)).length = (sepRuns sep s).length + (!startsRun sep s).toNat := by
  rw [sepRuns_cons hc, List.length_cons, List.dropWhile_cons_of_pos (by simp [hc])]
  cases s with
  | nil => simp [startsRun]
  | cons d t =>
    cases hd : sep d with
    | true =>
      rw [List.dropWhile_cons_of_neg (by simp [hd])]
      simp [startsRun, hd]
    | false =>
      rw [sepRuns_cons hd, List.length_cons]
      simp [startsRun, hd]

def runStarts (sep : α → Bool) : Bool → List α → Nat
  | _, [] => 0
  | inRun, c :: s =>
    if sep c then runStarts sep false s
    else if inRun then runStarts sep true s
    else runStarts sep true s + 1

theorem runStarts_true (sep : α → Bool) (s : List α) :
    runStarts sep false s = runStarts sep true s + (startsRun sep s).toNat := by
  cases s with
  | nil => rfl
  | cons c s =>
    rw [runStarts, runStarts]
    cases hc : sep c <;> simp [startsRun, hc]

theorem length_sepRuns (sep : α → Bool) (s : List α) :
    (sepRuns sep s).length = runStarts sep false s := by
  induction s with
  | nil => rw [sepRuns_nil, List.length_nil, runStarts]
  | cons c s ih =>
    rw [runStarts]
    cases hc : sep c with
    | true => rw [sepRuns_sep hc, ih, if_pos rfl]
    | false =>
      rw [length_sepRuns_cons hc, ih, runStarts_true, if_neg (by simp), if_neg (by simp)]
      cases startsRun sep s <;> simp

theorem runStarts_append (hs : s ≠ []) (inRun : Bool) (t : List α) :
    runStarts sep inRun (s ++ t) = runStarts sep inRun s + runStarts sep (endsRun sep s) t := by
  induction s generalizing inRun with
  | nil => exact absurd rfl hs
  | cons c s ih =>
    rw [List.cons_append, runStarts, runStarts]
    by_cases hnil : s = []
    · rw [hnil]
      cases hc : sep c <;> cases inRun <;> simp [endsRun, hc, runStarts, Nat.add_comm]
    · have hend : endsRun sep (c :: s) = endsRun sep s := by
        rw [endsRun, List.getLast?_cons_of_ne_nil hnil, endsRun]
      rw [hend, ih hnil, ih hnil]
      split_ifs <;> omega

theorem length_sepRuns_append (sep : α → Bool) (s t : List α) :
    (sepRuns sep (s ++ t)).length + (endsRun sep s && startsRun sep t).toNat =
      (sepRuns sep s).length + (sepRuns sep t).length := by
  by_cases hs : s = []
  · simp [hs, endsRun]
  · rw [length_sepRuns, length_sepRuns, length_sepRuns, runStarts_append hs]
    cases endsRun sep s with
    | false => simp
    | true =>
      rw [Bool.true_and, runStarts_true sep t]
      omega

end

end OsProject
