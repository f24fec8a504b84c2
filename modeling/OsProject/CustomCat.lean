import OsProject.CustomGrep
import OsProject.FlagArgs
import OsProject.Numeral

/-! The program `custom_cat`. Its line counter is an `int`, and a run in which it overflows is
`none`. -/

namespace OsProject.CustomCat

open CustomGrep (INT_MAX)

/-- `printf("%4d | ", n)`. -/
def lineNumber (n : Nat) : List UInt8 :=
  List.replicate (4 - (decimal n).length) 32 ++ decimal n ++ [32, 124, 32]

/-- The loop of `show_contents`. -/
def showLoop (numbering : Bool) : List UInt8 → Nat → Bool → Option (List UInt8)
  | [], _, _ => some []
  | ch :: text, counter, atLineStart =>
    if atLineStart && numbering then
      if counter = INT_MAX then none
      else (showLoop numbering text (counter + 1) (ch == NL)).map (lineNumber counter ++ ch :: ·)
    else (showLoop numbering text counter (ch == NL || atLineStart)).map (ch :: ·)

/-- What `show_contents` prints. -/
def showContents (src : List UInt8) (numbering : Bool) : Option (List UInt8) :=
  showLoop numbering src 1 true

/-- The standard output, and the file names for which an error is printed. -/
structure Output where
  stdout : List UInt8
  failed : List (List UInt8)
  deriving DecidableEq, Repr

/-- Whether the lines are numbered, and the index of the first file. -/
def parseFlags (argv : List (List UInt8)) : Bool × Nat :=
  flagLoop (fun numbering arg => if arg = [45, 110] then true else numbering) false 1 argv.tail

/-- `open_and_display` for one file after the other. -/
def displayFiles (fopen : List UInt8 → Option (List UInt8)) (numbering : Bool) :
    List (List UInt8) → Option Output
  | [] => some ⟨[], []⟩
  | name :: names =>
    match fopen name with
    | none => (displayFiles fopen numbering names).map fun o => ⟨o.stdout, name :: o.failed⟩
    | some src => do
      let out ← showContents src numbering
      let o ← displayFiles fopen numbering names
      return ⟨out ++ o.stdout, o.failed⟩

/-- The output and the exit status of `main`. -/
def main (fopen : List UInt8 → Option (List UInt8)) (stdin : List UInt8) (argv : List (List UInt8)) :
    Option (Output × Nat) :=
  let (numbering, i) := parseFlags argv
  if argv.length ≤ i then (showContents stdin numbering).map fun out => (⟨out, []⟩, 0)
  else (displayFiles fopen numbering (argv.drop i)).map fun o => (o, if o.failed = [] then 0 else 1)

/-- The lines with their numbers from `k` on. -/
def numbered : Nat → List (List UInt8) → List UInt8
  | _, [] => []
  | k, l :: ls => lineNumber k ++ l ++ numbered (k + 1) ls

theorem showLoop_inside {body : List UInt8} (h : NL ∉ body) (text : List UInt8) (counter : Nat) :
    showLoop true (body ++ text) counter false = (showLoop true text counter false).map (body ++ ·) := by
  induction body with
  | nil => simp
  | cons ch body ih =>
    rw [List.mem_cons, not_or] at h
    have hch : (ch == NL || false) = false := by simpa using Ne.symm h.1
    rw [List.cons_append, showLoop, Bool.false_and, if_neg (by simp), hch, ih h.2, Option.map_map]
    rfl

theorem showLoop_start {counter : Nat} (hc : counter < INT_MAX) (ch : UInt8) (text : List UInt8) :
    showLoop true (ch :: text) counter true =
      (showLoop true text (counter + 1) (ch == NL)).map (lineNumber counter ++ ch :: ·) := by
  rw [showLoop, Bool.and_self, if_pos rfl, if_neg (Nat.ne_of_lt hc)]

theorem showLoop_newline (text : List UInt8) (counter : Nat) :
    showLoop true (NL :: text) counter false = (showLoop true text counter true).map (NL :: ·) := rfl

theorem showLoop_line {body : List UInt8} (h : NL ∉ body) {counter : Nat} (hc : counter < INT_MAX)
    (text : List UInt8) : showLoop true (body ++ NL :: text) counter true =
      (showLoop true text (counter + 1) true).map (lineNumber counter ++ (body ++ [NL]) ++ ·) := by
  cases body with
  | nil =>
    rw [List.nil_append, showLoop_start hc]
    simp
  | cons ch body =>
    rw [List.mem_cons, not_or] at h
    have hch : (ch == NL) = false := by simpa using Ne.symm h.1
    rw [List.cons_append, showLoop_start hc, hch, showLoop_inside h.2, showLoop_newline,
      Option.map_map, Option.map_map]
    congr 1
    funext out
    simp

theorem showLoop_last {text : List UInt8} (hne : text ≠ []) (h : NL ∉ text) {counter : Nat}
    (hc : counter < INT_MAX) : showLoop true text counter true = some (lineNumber counter ++ text) := by
  obtain ⟨ch, body, rfl⟩ := List.exists_cons_of_ne_nil hne
  rw [List.mem_cons, not_or] at h
  have hch : (ch == NL) = false := by simpa using Ne.symm h.1
  have hbody := showLoop_inside h.2 [] (counter + 1)
  rw [List.append_nil] at hbody
  rw [showLoop_start hc, hch, hbody]
  simp [showLoop]

theorem showLoop_full {text : List UInt8} (hne : text ≠ []) : showLoop true text INT_MAX true = none := by
  obtain ⟨ch, body, rfl⟩ := List.exists_cons_of_ne_nil hne
  rw [showLoop, Bool.and_self, if_pos rfl, if_pos rfl]

theorem showLoop_eq (text : List UInt8) {counter : Nat} (h : counter ≤ INT_MAX) :
    showLoop true text counter true =
      if counter + (lines NL text).length ≤ INT_MAX then some (numbered counter (lines NL text))
      else none := by
  induction text using lines_induction NL generalizing counter with
  | nil => exact (if_pos h).symm
  | last text hne hnl =>
    rw [lines_of_notMem hne hnl, List.length_singleton]
    rcases Nat.eq_or_lt_of_le h with rfl | hc
    · rw [showLoop_full hne, if_neg (by omega)]
    · rw [showLoop_last hne hnl hc, if_pos (by omega)]
      simp [numbered]
  | line body text hnl ih =>
    rw [lines_line hnl, List.length_cons]
    rcases Nat.eq_or_lt_of_le h with rfl | hc
    · rw [showLoop_full (by simp), if_neg (by omega)]
    · have hlen : counter + 1 + (lines NL text).length = counter + ((lines NL text).length + 1) := by
        omega
      rw [showLoop_line hnl hc, ih hc, hlen]
      split_ifs
      · rfl
      · rfl

theorem showContents_plain (src : List UInt8) : showContents src false = some src := by
  have hloop : ∀ counter atLineStart, showLoop false src counter atLineStart = some src := by
    induction src with
    | nil => exact fun _ _ => rfl
    | cons ch src ih =>
      intro counter atLineStart
      rw [showLoop, Bool.and_false, if_neg (by simp), ih, Option.map_some]
  exact hloop 1 true

theorem displayFiles_plain (fopen : List UInt8 → Option (List UInt8)) (names : List (List UInt8)) :
    displayFiles fopen false names =
      some ⟨(names.filterMap fopen).flatten, names.filter fun name => (fopen name).isNone⟩ := by
  induction names with
  | nil => rfl
  | cons name names ih =>
    cases hopen : fopen name with
    | none => simp [displayFiles, hopen, ih]
    | some src => simp [displayFiles, hopen, ih, showContents_plain]

theorem main_plain (fopen : List UInt8 → Option (List UInt8)) (stdin prog name : List UInt8)
    (names : List (List UInt8)) (h : name.head? ≠ some DASH) :
    main fopen stdin (prog :: name :: names) =
      some (⟨((name :: names).filterMap fopen).flatten,
        (name :: names).filter fun name => (fopen name).isNone⟩,
        if ∀ x ∈ name :: names, (fopen x).isSome then 0 else 1) := by
  have hflags : parseFlags (prog :: name :: names) = (false, 1) := by
    rw [parseFlags, List.tail_cons, flagLoop, if_neg h]
  rw [main, hflags]
  have hfailed : ((name :: names).filter fun name => (fopen name).isNone) = [] ↔
      ∀ x ∈ name :: names, (fopen x).isSome := by
    rw [List.filter_eq_nil_iff]
    simp only [Option.isNone_iff_eq_none, Option.isSome_iff_ne_none]
  simp only [List.length_cons, List.drop_one, List.tail_cons, displayFiles_plain]
  rw [if_neg (by omega), Option.map_some, ← if_congr hfailed rfl rfl]

theorem main_plain_missing :
    main (fun name => if name = [97] then some [104, NL] else none) [] [[99], [97], [98]] =
      some (⟨[104, NL], [[98]]⟩, 1) :=
  (main_plain _ _ _ _ _ (by decide)).trans (by decide)

/-- The text without what stands in front of each line: everything up to the first `|` and a blank. -/
def removeNumbers (out : List UInt8) : List UInt8 :=
  (lines NL out).flatMap fun l => (l.dropWhile (· ≠ 124)).drop 2

theorem notMem_decimal {c : UInt8} (h : c < 48 ∨ 57 < c) (n : Nat) : c ∉ decimal n := by
  intro hc
  have hd := decimal_digit hc
  grind

theorem nl_notMem_lineNumber (n : Nat) : NL ∉ lineNumber n := by
  have hd : (10 : UInt8) ∉ decimal n := notMem_decimal (by decide) n
  simp [lineNumber, hd, NL]

theorem drop_lineNumber (n : Nat) (l : List UInt8) :
    ((lineNumber n ++ l).dropWhile (· ≠ 124)).drop 2 = l := by
  have hd : (124 : UInt8) ∉ decimal n := notMem_decimal (by decide) n
  have hfront : ∀ x ∈ List.replicate (4 - (decimal n).length) 32 ++ decimal n ++ [32],
      decide (x ≠ 124) = true := by
    intro x hx
    rw [decide_eq_true_eq]
    rintro rfl
    simp [hd] at hx
  have hsplit : lineNumber n ++ l =
      (List.replicate (4 - (decimal n).length) 32 ++ decimal n ++ [32]) ++ 124 :: 32 :: l := by
    simp [lineNumber]
  rw [hsplit, List.dropWhile_append_of_pos hfront, List.dropWhile_cons_of_neg (by simp)]
  rfl

theorem removeNumbers_numbered (text : List UInt8) (k : Nat) :
    removeNumbers (numbered k (lines NL text)) = text := by
  induction text using lines_induction NL generalizing k with
  | nil => rfl
  | last text hne hnl =>
    have hnum : NL ∉ lineNumber k ++ text := by simp [nl_notMem_lineNumber, hnl]
    rw [lines_of_notMem hne hnl, numbered, numbered, List.append_nil, removeNumbers,
      lines_of_notMem (by simp [hne]) hnum, List.flatMap_singleton, drop_lineNumber]
  | line body text hnl ih =>
    have hnum : NL ∉ lineNumber k ++ body := by simp [nl_notMem_lineNumber, hnl]
    have hsplit : numbered k (lines NL (body ++ NL :: text)) =
        lineNumber k ++ body ++ NL :: numbered (k + 1) (lines NL text) := by
      rw [lines_line hnl, numbered]
      simp
    rw [hsplit, removeNumbers, lines_line hnum, List.flatMap_cons, ← removeNumbers, ih, List.append_assoc,
      drop_lineNumber]
    simp

/-- Without numbering the output is the stream. With numbering it is the lines with their numbers
exactly for streams of fewer than `INT_MAX` lines, and the numbers can be taken off again. -/
theorem show_contents_iff (src : List UInt8) :
    showContents src false = some src ∧
      (showContents src true = some (numbered 1 (lines NL src)) ↔
        (lines NL src).length < INT_MAX) ∧
      removeNumbers (numbered 1 (lines NL src)) = src := by
  refine ⟨showContents_plain src, ?_, removeNumbers_numbered src 1⟩
  rw [showContents, showLoop_eq src (by decide)]
  split_ifs with hlen
  · exact iff_of_true rfl (by omega)
  · exact iff_of_false (by simp) (by omega)

theorem show_contents_overflow :
    showContents (List.replicate (2 ^ 31) NL) true = none := by
  have hlines : ∀ n, lines NL (List.replicate n NL) = List.replicate n [NL] := by
    intro n
    induction n with
    | zero => rfl
    | succ n ih =>
      rw [List.replicate_succ, List.replicate_succ, ← ih]
      rfl
  rw [showContents, showLoop_eq _ (by decide), hlines, List.length_replicate, if_neg (by decide)]

end OsProject.CustomCat
