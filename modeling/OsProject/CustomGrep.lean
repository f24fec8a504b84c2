import OsProject.Fgets
import Mathlib

/-! The program `custom_grep`, with `fgets`, `strstr` and `tolower` as the C standard has them. -/

namespace OsProject.CustomGrep

def MAX_LINE : Nat := 1024

def INT_MAX : Nat := 2 ^ 31 - 1

/-- `tolower` in the C locale. -/
def tolower (c : UInt8) : UInt8 := if 65 ≤ c ∧ c ≤ 90 then c + 32 else c

def toLower (str : List UInt8) : List UInt8 := str.map tolower

/-- `strstr` finds `pattern`. -/
def strstr (line pattern : List UInt8) : Bool := pattern <:+: line

/-- `strcpy` to an array of `size` characters. A string that does not fit has no defined result. -/
def strcpy (size : Nat) (src : List UInt8) : Option (List UInt8) :=
  if src.length < size then some src else none

def containsIgnoreCase (line pattern : List UInt8) : Option Bool := do
  let tempLine ← strcpy MAX_LINE line
  let tempPattern ← strcpy MAX_LINE pattern
  return strstr (toLower tempLine) (toLower tempPattern)

/-- The variable `match` of `main`. -/
def matchLine (ignoreCase : Bool) (line pattern : List UInt8) : Option Bool :=
  if ignoreCase then containsIgnoreCase line pattern else some (strstr line pattern)

/-- The loop of `main`. The result is the arguments of each `printf`, or `none` where the behaviour
is undefined: `line_no` is an `int`. -/
def mainLoop (ignoreCase : Bool) (pattern : List UInt8) (lineNo : Nat) (text : List UInt8) :
    Option (List (Nat × List UInt8)) :=
  if _ : text = [] then some [] else do
    let line := string (fgets NL (MAX_LINE - 1) text).1
    let found ← matchLine ignoreCase line pattern
    if lineNo = INT_MAX then none else
    let rest ← mainLoop ignoreCase pattern (lineNo + 1) (fgets NL (MAX_LINE - 1) text).2
    return (if found then [(lineNo, line)] else []) ++ rest
termination_by text.length
decreasing_by exact length_fgets_lt (by decide) ‹_›

inductive Failure
  | usage
  | cannotOpen
  | undefined
  deriving DecidableEq, Repr

/-- The string `-i`. -/
def ignoreOption : List UInt8 := [45, 105]

/-- `ignore_case`, `pattern` and `filename`. -/
def arguments : List (List UInt8) → Option (Bool × List UInt8 × List UInt8)
  | [_, pattern, filename] => some (false, pattern, filename)
  | [_, opt, pattern, filename] =>
    if opt = ignoreOption then some (true, pattern, filename) else none
  | _ => none

/-- `fopen` gives the content of the file. -/
def main (fopen : List UInt8 → Option (List UInt8)) (argv : List (List UInt8)) :
    Except Failure (List (Nat × List UInt8)) :=
  match arguments argv with
  | none => .error .usage
  | some (ignoreCase, pattern, filename) =>
    match fopen filename with
    | none => .error .cannotOpen
    | some text => (mainLoop ignoreCase pattern 1 text).elim (.error .undefined) .ok

def folded (ignoreCase : Bool) (s : List UInt8) : List UInt8 := if ignoreCase then toLower s else s

/-- The line contains the pattern, up to the case of letters with `-i`. -/
def Contains (ignoreCase : Bool) (pattern line : List UInt8) : Prop :=
  folded ignoreCase pattern <:+: folded ignoreCase line

instance (ignoreCase : Bool) (pattern line : List UInt8) :
    Decidable (Contains ignoreCase pattern line) :=
  inferInstanceAs (Decidable (_ <:+: _))

/-- The lines of `ls` that contain the pattern, with their numbers from `k` on. -/
def numbered (ignoreCase : Bool) (pattern : List UInt8) :
    Nat → List (List UInt8) → List (Nat × List UInt8)
  | _, [] => []
  | k, l :: ls =>
    (if Contains ignoreCase pattern l then [(k, l)] else []) ++ numbered ignoreCase pattern (k + 1) ls

/-- The arguments can be handled: with `-i` the pattern fits in the array that it is copied to, and
the number of the last piece that `fgets` returns in an `int`. -/
def Defined (ignoreCase : Bool) (pattern text : List UInt8) (lineNo : Nat) : Prop :=
  (ignoreCase = true → text ≠ [] → pattern.length < MAX_LINE) ∧
    lineNo + (reads NL (MAX_LINE - 1) text).length ≤ INT_MAX

section

variable {ignoreCase : Bool} {pattern line text : List UInt8} {k : Nat}

theorem numbered_append (a b : List (List UInt8)) : numbered ignoreCase pattern k (a ++ b) =
    numbered ignoreCase pattern k a ++ numbered ignoreCase pattern (k + a.length) b := by
  induction a generalizing k with
  | nil => rfl
  | cons l a ih =>
    rw [List.cons_append, numbered, ih, numbered, List.append_assoc, List.length_cons]
    congr 3
    omega

theorem mem_ite_singleton {α : Type*} {p : Prop} [Decidable p] {x y : α} :
    x ∈ (if p then [y] else []) ↔ p ∧ x = y := by
  split_ifs with h <;> simp [h]

theorem le_of_mem_numbered {e : Nat × List UInt8} {ls : List (List UInt8)}
    (h : e ∈ numbered ignoreCase pattern k ls) : k ≤ e.1 := by
  induction ls generalizing k with
  | nil => cases h
  | cons l ls ih =>
    rw [numbered, List.mem_append, mem_ite_singleton] at h
    rcases h with ⟨-, rfl⟩ | h
    · exact le_rfl
    · exact Nat.le_of_succ_le (ih h)

theorem mem_numbered {l : List UInt8} {i : Nat} {ls : List (List UInt8)} :
    (k + i, l) ∈ numbered ignoreCase pattern k ls ↔
      ls[i]? = some l ∧ Contains ignoreCase pattern l := by
  induction ls generalizing k i with
  | nil => simp [numbered]
  | cons l' ls ih =>
    rw [numbered, List.mem_append, mem_ite_singleton]
    cases i with
    | zero =>
      have hrest : (k + 0, l) ∉ numbered ignoreCase pattern (k + 1) ls := fun h => by
        have hle := le_of_mem_numbered h
        omega
      rw [or_iff_left hrest, Prod.mk.injEq, List.getElem?_cons_zero, Option.some.injEq]
      constructor
      · rintro ⟨hcontains, -, rfl⟩
        exact ⟨rfl, hcontains⟩
      · rintro ⟨rfl, hcontains⟩
        exact ⟨hcontains, rfl, rfl⟩
    | succ i =>
      have hfirst : ¬ (Contains ignoreCase pattern l' ∧ (k + (i + 1), l) = (k, l')) := by
        rintro ⟨-, heq⟩
        have hk := congrArg Prod.fst heq
        dsimp only at hk
        omega
      rw [or_iff_right hfirst, List.getElem?_cons_succ, ← ih,
        show k + (i + 1) = k + 1 + i by omega]

theorem matchLine_eq (hline : line.length < MAX_LINE)
    (hpattern : ignoreCase = true → pattern.length < MAX_LINE) :
    matchLine ignoreCase line pattern = some (decide (Contains ignoreCase pattern line)) := by
  cases ignoreCase with
  | false => rfl
  | true =>
    simp [matchLine, containsIgnoreCase, strcpy, hline, hpattern rfl, strstr, Contains, folded]

theorem matchLine_undefined (h : ¬ (ignoreCase = true → pattern.length < MAX_LINE))
    (line : List UInt8) : matchLine ignoreCase line pattern = none := by
  obtain ⟨rfl, hlong⟩ := Classical.not_imp.mp h
  simp [matchLine, containsIgnoreCase, strcpy, hlong]

theorem mainLoop_turn (h0 : 0 ∉ text) (hne : text ≠ []) : mainLoop ignoreCase pattern k text =
    (matchLine ignoreCase (fgets NL (MAX_LINE - 1) text).1 pattern).bind fun found =>
      if k = INT_MAX then none else
        (mainLoop ignoreCase pattern (k + 1) (fgets NL (MAX_LINE - 1) text).2).map fun rest =>
          (if found then [(k, (fgets NL (MAX_LINE - 1) text).1)] else []) ++ rest := by
  have hline : 0 ∉ (fgets NL (MAX_LINE - 1) text).1 := fun h =>
    h0 (append_fgets NL (MAX_LINE - 1) text ▸ List.mem_append_left _ h)
  rw [mainLoop, dif_neg hne, string_of_notMem hline]
  simp only [Option.map_eq_bind]
  rfl

theorem defined_turn (hne : text ≠ []) : Defined ignoreCase pattern text k ↔
    (ignoreCase = true → pattern.length < MAX_LINE) ∧
      k + 1 + (reads NL (MAX_LINE - 1) (fgets NL (MAX_LINE - 1) text).2).length ≤ INT_MAX := by
  rw [Defined, reads_cons (by decide) hne, List.length_cons]
  simp only [ne_eq, hne, not_false_eq_true, true_imp_iff]
  refine and_congr_right fun _ => ?_
  omega

theorem mainLoop_eq (ignoreCase : Bool) (pattern : List UInt8) (h0 : 0 ∉ text) (hk : k ≤ INT_MAX) :
    (Defined ignoreCase pattern text k → mainLoop ignoreCase pattern k text =
      some (numbered ignoreCase pattern k (reads NL (MAX_LINE - 1) text))) ∧
    (¬ Defined ignoreCase pattern text k → mainLoop ignoreCase pattern k text = none) := by
  induction h : text.length using Nat.strongRecOn generalizing text k with
  | ind n ih =>
    by_cases hne : text = []
    · subst hne
      rw [mainLoop, dif_pos rfl, reads_nil]
      refine ⟨fun _ => rfl, fun hno => absurd ⟨?_, ?_⟩ hno⟩
      · intro _ hnil
        exact absurd rfl hnil
      · simpa using hk
    rw [mainLoop_turn h0 hne, defined_turn hne, reads_cons (by decide) hne, numbered]
    have hsplit := append_fgets NL (MAX_LINE - 1) text
    have hshort : (fgets NL (MAX_LINE - 1) text).1.length < MAX_LINE :=
      Nat.lt_of_le_of_lt (length_fgets_le NL (MAX_LINE - 1) text) (by decide)
    have hless : (fgets NL (MAX_LINE - 1) text).2.length < text.length :=
      length_fgets_lt (by decide) hne
    generalize fgets NL (MAX_LINE - 1) text = r at *
    rw [← hsplit, List.mem_append, not_or] at h0
    by_cases hfits : ignoreCase = true → pattern.length < MAX_LINE
    · rw [matchLine_eq hshort hfits, Option.bind_some]
      by_cases hmax : k = INT_MAX
      · rw [if_pos hmax]
        refine ⟨fun hd => ?_, fun _ => rfl⟩
        omega
      · obtain ⟨hyes, hno⟩ := ih r.2.length (h ▸ hless) (k := k + 1) h0.2 (by omega) rfl
        have hrest : Defined ignoreCase pattern r.2 (k + 1) ↔
            k + 1 + (reads NL (MAX_LINE - 1) r.2).length ≤ INT_MAX :=
          and_iff_right fun hic _ => hfits hic
        rw [hrest] at hyes hno
        rw [if_neg hmax]
        refine ⟨fun hd => ?_, fun hd => ?_⟩
        · rw [hyes hd.2]
          simp
        · rw [hno fun hle => hd ⟨hfits, hle⟩]
          rfl
    · rw [matchLine_undefined hfits]
      exact ⟨fun hd => absurd hd.1 hfits, fun _ => rfl⟩

/-- The line fits in the array of `main`. -/
def Short (line : List UInt8) : Prop := line.length < MAX_LINE

instance (line : List UInt8) : Decidable (Short line) := inferInstanceAs (Decidable (_ < _))

theorem contains_infix_mono {l : List UInt8} (h : l <:+: line) (hl : Contains ignoreCase pattern l) :
    Contains ignoreCase pattern line := by
  refine hl.trans ?_
  cases ignoreCase with
  | false => exact h
  | true => exact h.map tolower

theorem reads_pos {l : List UInt8} (h : l ∈ lines NL text) : 0 < (reads NL (MAX_LINE - 1) l).length := by
  rw [reads_cons (by decide) (ne_nil_of_mem_lines h)]
  exact Nat.succ_pos _

theorem reads_of_short {l : List UInt8} (h : l ∈ lines NL text) (hs : Short l) :
    reads NL (MAX_LINE - 1) l = [l] := by
  rw [Short, MAX_LINE] at hs
  exact reads_short h (by rw [MAX_LINE]; omega)

theorem reads_of_not_short {l : List UInt8} (h : l ∈ lines NL text) (hs : ¬ Short l) :
    1 < (reads NL (MAX_LINE - 1) l).length := by
  have hlen : MAX_LINE - 1 < l.length := by
    rw [Short, MAX_LINE] at hs
    rw [MAX_LINE]
    omega
  have hrest : l.drop (MAX_LINE - 1) ≠ [] := by
    rw [ne_eq, List.drop_eq_nil_iff]
    omega
  rw [reads_long (by decide) h hlen, reads_cons (by decide) hrest]
  simp

theorem none_from_long {t : List UInt8} {ts : List (List UInt8)}
    (hlines : ∀ l ∈ t :: ts, l ∈ lines NL text) (ht : ¬ Short t)
    (heq : numbered ignoreCase pattern k ((t :: ts).flatMap (reads NL (MAX_LINE - 1))) =
      numbered ignoreCase pattern k (t :: ts)) (i : Nat) {l : List UInt8}
    (hl : (t :: ts)[i]? = some l) : ¬ Contains ignoreCase pattern l := by
  -- by induction on what is left behind `i`
  induction hd : (t :: ts).length - i using Nat.strongRecOn generalizing i l with
  | ind d ih =>
    intro hcontains
    have hmem := heq ▸ mem_numbered.mpr ⟨hl, hcontains⟩
    obtain ⟨hread, -⟩ := mem_numbered.mp hmem
    have hshort : Short l := by
      obtain ⟨u, -, hu⟩ := List.mem_flatMap.mp (List.mem_of_getElem? hread)
      exact Nat.lt_of_le_of_lt (length_le_of_mem_reads hu) (by decide)
    cases i with
    | zero =>
      cases hl
      exact ht hshort
    | succ i =>
      rw [List.getElem?_cons_succ] at hl
      obtain ⟨j, hij, hj⟩ := flatMap_later (fun b hb => reads_pos (hlines b hb))
        (reads_of_not_short (hlines t List.mem_cons_self) ht)
        (reads_of_short (hlines l (List.mem_cons_of_mem t (List.mem_of_getElem? hl))) hshort) hl
      obtain ⟨hnext, -⟩ := mem_numbered.mp (heq ▸ mem_numbered.mpr ⟨hj, hcontains⟩)
      have hlt := (List.getElem?_eq_some_iff.mp hl).1
      exact ih _ (by rw [← hd, List.length_cons]; omega) j hnext rfl hcontains

theorem numbered_eq_nil {ls : List (List UInt8)} (h : ∀ l ∈ ls, ¬ Contains ignoreCase pattern l) :
    numbered ignoreCase pattern k ls = [] := by
  induction ls generalizing k with
  | nil => rfl
  | cons l ls ih =>
    rw [numbered, if_neg (h l List.mem_cons_self), ih fun l hl => h l (List.mem_cons_of_mem _ hl)]
    rfl

theorem infix_of_mem_reads {l : List UInt8} (h : l ∈ reads NL (MAX_LINE - 1) line) :
    l <:+: line := by
  have hin := List.infix_of_mem_flatten h
  rwa [flatten_reads (by decide)] at hin

theorem numbered_reads_iff : numbered ignoreCase pattern k (reads NL (MAX_LINE - 1) text) =
    numbered ignoreCase pattern k (lines NL text) ↔
      ∀ l ∈ (lines NL text).dropWhile (fun l => Short l), ¬ Contains ignoreCase pattern l := by
  have hsplit := List.takeWhile_append_dropWhile (p := fun l => decide (Short l)) (l := lines NL text)
  have hhead := List.head?_dropWhile_not (fun l => decide (Short l)) (lines NL text)
  have hlines : ∀ l ∈ (lines NL text).dropWhile (fun l => Short l), l ∈ lines NL text := fun l hl =>
    (List.dropWhile_sublist _).subset hl
  have hfirst : ((lines NL text).takeWhile fun l => Short l).flatMap (reads NL (MAX_LINE - 1)) =
      (lines NL text).takeWhile fun l => Short l := by
    refine (List.flatMap_congr fun l hl => ?_).trans (List.flatMap_singleton' _)
    have hshort := List.mem_takeWhile_imp hl
    exact reads_of_short ((List.takeWhile_sublist _).subset hl) (of_decide_eq_true hshort)
  rw [reads_eq_flatMap (by decide)]
  generalize hlong : (lines NL text).dropWhile (fun l => Short l) = long at *
  rw [← hsplit, List.flatMap_append, hfirst, numbered_append, numbered_append,
    List.append_right_inj]
  constructor
  · intro heq l hl
    cases long with
    | nil => cases hl
    | cons t ts =>
      obtain ⟨i, hi⟩ := List.mem_iff_getElem?.mp hl
      exact none_from_long hlines (by simpa using hhead) heq i hi
  · intro hnone
    rw [numbered_eq_nil hnone, numbered_eq_nil]
    intro l hl hcontains
    obtain ⟨u, hu, hl⟩ := List.mem_flatMap.mp hl
    exact hnone u hu (contains_infix_mono (infix_of_mem_reads hl) hcontains)

end

/-- `custom_grep` prints the lines that contain the pattern, whole and with their numbers, exactly
when nothing overflows and no line contains the pattern from the first one on that is too long for
the array. -/
theorem custom_grep_iff {fopen : List UInt8 → Option (List UInt8)} {filename text : List UInt8}
    (hopen : fopen filename = some text) (h0 : 0 ∉ text) (ignoreCase : Bool)
    (prog pattern : List UInt8) :
    main fopen (prog :: (if ignoreCase then [ignoreOption] else []) ++ [pattern, filename]) =
        .ok (numbered ignoreCase pattern 1 (lines NL text)) ↔
      Defined ignoreCase pattern text 1 ∧
        ∀ l ∈ (lines NL text).dropWhile (fun l => Short l), ¬ Contains ignoreCase pattern l := by
  have hmain : main fopen (prog :: (if ignoreCase then [ignoreOption] else []) ++ [pattern, filename]) =
      (mainLoop ignoreCase pattern 1 text).elim (.error .undefined) .ok := by
    cases ignoreCase <;> simp [main, arguments, hopen]
  obtain ⟨hyes, hno⟩ := mainLoop_eq ignoreCase pattern h0 (show 1 ≤ INT_MAX by decide)
  rw [hmain]
  by_cases hdef : Defined ignoreCase pattern text 1
  · rw [hyes hdef, and_iff_right hdef, ← numbered_reads_iff (k := 1)]
    simp
  · rw [hno hdef]
    simp [hdef]

theorem defined_of_small {ignoreCase : Bool} {pattern text : List UInt8}
    (hpattern : pattern.length < MAX_LINE) (htext : text.length < INT_MAX) :
    Defined ignoreCase pattern text 1 := by
  have hreads := length_reads_le NL (MAX_LINE - 1) text
  exact ⟨fun _ _ => hpattern, by omega⟩

theorem custom_grep_two : main (fun _ => some [98, 10, 65, 98, 10]) [[], ignoreOption, [97, 66], []] =
    .ok [(2, [65, 98, 10])] := by
  refine (custom_grep_iff rfl (by decide) true [] [97, 66]).mpr ⟨?_, by decide⟩
  exact defined_of_small (by decide) (by decide)

theorem custom_grep_cut :
    numbered false [98] 1 (lines NL (List.replicate (MAX_LINE - 1) 97 ++ [98, 10])) =
      [(1, List.replicate (MAX_LINE - 1) 97 ++ [98, 10])] ∧
    main (fun _ => some (List.replicate (MAX_LINE - 1) 97 ++ [98, 10])) [[], [98], []] =
      .ok [(2, [98, 10])] := by
  have ha : (List.replicate (MAX_LINE - 1) (97 : UInt8)).length = MAX_LINE - 1 :=
    List.length_replicate
  have hmem : ∀ x ∈ List.replicate (MAX_LINE - 1) (97 : UInt8), x = 97 := fun x hx =>
    List.eq_of_mem_replicate hx
  generalize List.replicate (MAX_LINE - 1) (97 : UInt8) = a at *
  have hnl : NL ∉ a ++ [98] := by
    rw [List.mem_append, not_or]
    exact ⟨fun h => absurd (hmem NL h) (by decide), by decide⟩
  have h0 : 0 ∉ a ++ [98, 10] := by
    rw [List.mem_append, not_or]
    exact ⟨fun h => absurd (hmem 0 h) (by decide), by decide⟩
  have hfirst : ¬ Contains false [98] a := fun h =>
    absurd (hmem 98 (h.subset (by decide))) (by decide)
  have hline : Contains false [98] (a ++ [98, 10]) := ⟨a, [10], by simp [folded]⟩
  obtain ⟨hlines, hreads⟩ : lines NL (a ++ [98, 10]) = [a ++ [98, 10]] ∧
      reads NL (MAX_LINE - 1) (a ++ [98, 10]) = [a, [98, 10]] :=
    reads_two (by decide) ha (by decide) hnl
  constructor
  · rw [hlines, numbered, if_pos hline]
    rfl
  · have hrun := (mainLoop_eq false [98] h0 (show 1 ≤ INT_MAX by decide)).1
      (defined_of_small (by decide) (by rw [List.length_append, ha]; decide))
    rw [hreads, numbered, if_neg hfirst, numbered, if_pos (by decide)] at hrun
    simp [main, arguments, hrun, numbered]

end OsProject.CustomGrep
