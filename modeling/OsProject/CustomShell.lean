import Mathlib
import OsProject.Fgets
import OsProject.SepRuns

/-! The command loop of `custom_shell`, with `fgets` and `strtok` as the C standard has them. -/

namespace OsProject.CustomShell

def MAX_INPUT : Nat := 1024

def MAX_ARGS : Nat := 64

abbrev Args := List (List UInt8)

def isBlank (c : UInt8) : Bool := c = ' '.toUInt8 ∨ c = '\t'.toUInt8

/-- The separators of `parse_input`. -/
def isSep (c : UInt8) : Bool := isBlank c ∨ c = NL

/-- The loop of `parse_input` with room for `n` more arguments. -/
def parseLoop : Nat → List UInt8 → Args
  | 0, _ => []
  | n + 1, s =>
    match strtok isSep s with
    | none => []
    | some (token, rest) => token :: parseLoop n rest

def parseInput (input : List UInt8) : Args := parseLoop (MAX_ARGS - 1) (string input)

def word (s : String) : List UInt8 := s.toList.map Char.toUInt8

/-- `exit` or `quit`. -/
def leaves (args : Args) : Bool := args.head? = some (word "exit") ∨ args.head? = some (word "quit")

inductive Callee
  | cd
  | pwd
  | help
  | execute
  deriving DecidableEq, Repr

def callee (args : Args) : Callee :=
  if args.head? = some (word "cd") then .cd
  else if args.head? = some (word "pwd") then .pwd
  else if args.head? = some (word "help") then .help
  else .execute

/-- The loop of `main` after `m` calls, on the rest of the input: what is called with which arguments.
The child of `execute` shares the offset of the standard input, which it may read from or put back
when it exits, so what that call leaves of the input is a parameter. -/
def mainLoop (left : Nat → List UInt8 → List UInt8) :
    Nat → Nat → List UInt8 → Option (List (Callee × Args))
  | 0, _, _ => none
  | fuel + 1, m, text =>
    if text = [] then some [] else
    let input := (fgets NL (MAX_INPUT - 1) text).1
    let rest := (fgets NL (MAX_INPUT - 1) text).2
    if input.getD 0 0 = NL then mainLoop left fuel m rest else
    let args := parseInput input
    if args.length = 0 then mainLoop left fuel m rest else
    if leaves args then some [] else
    (mainLoop left fuel (m + 1) (if callee args = .execute then left m rest else rest)).map
      ((callee args, args) :: ·)

/-- The arguments of a line: its newline is left out, and it is split at the runs of blanks. -/
def lineArgs (line : List UInt8) : Args := sepRuns isBlank (line.takeWhile (· ≠ NL))

/-- The commands among the lines or pieces with the arguments `as`: the empty ones are left out, and
nothing follows `exit` or `quit`. -/
def commands (as : List Args) : List Args := (as.filter (· ≠ [])).takeWhile (!leaves ·)

/-- The pieces of a line as `fgets` returns them. -/
def pieces (line : List UInt8) : List (List UInt8) := reads NL (MAX_INPUT - 1) line

/-- The line without its first `k` pieces. -/
def dropPieces (k : Nat) (line : List UInt8) : List UInt8 := line.drop (k * (MAX_INPUT - 1))

/-- The number of the piece in which the first word of the line begins. -/
def firstPiece (line : List UInt8) : Nat := (line.takeWhile isSep).length / (MAX_INPUT - 1)

/-- The words of the line are all in the piece in which the first one begins, they fit in the array
of the arguments, and no byte is NUL. Of an `exit` or `quit` that is not cut the rest of the line does
not matter. -/
def Kept (line : List UInt8) : Prop :=
  lineArgs line = [] ∨
    ((∀ x ∈ dropPieces (firstPiece line + 1) line, isSep x = true) ∧
      (lineArgs line).length < MAX_ARGS ∧ 0 ∉ line) ∨
    leaves (lineArgs line) = true ∧
      leaves (sepRuns isSep ((dropPieces (firstPiece line) line).take (MAX_INPUT - 1))) = true

/-- The lines are kept, up to the first `exit` or `quit`. -/
def AllKept : List (List UInt8) → Prop
  | [] => True
  | line :: ls => Kept line ∧ (leaves (lineArgs line) = true ∨ AllKept ls)

section

variable {line text p : List UInt8} {a : Args} {as bs : List Args}

theorem commands_cons (a : Args) (as : List Args) : commands (a :: as) =
    if a = [] then commands as else if leaves a then [] else a :: commands as := by
  by_cases ha : a = []
  · simp [commands, ha]
  · by_cases hl : leaves a <;> simp [commands, ha, hl]

theorem parseLoop_eq (n : Nat) (s : List UInt8) : parseLoop n s = (sepRuns isSep s).take n := by
  induction n generalizing s with
  | zero => rfl
  | succ n ih =>
    rw [parseLoop]
    cases h : strtok isSep s with
    | none => rw [strtok_none h, List.take_nil]
    | some r => rw [strtok_some h, List.take_succ_cons, ← ih]

theorem parseInput_eq (p : List UInt8) :
    parseInput p = (sepRuns isSep (string p)).take (MAX_ARGS - 1) := parseLoop_eq _ _

theorem lineArgs_eq (h : line ∈ lines NL text) : lineArgs line = sepRuns isSep line := by
  have hsep : ∀ s : List UInt8, NL ∉ s → sepRuns isBlank s = sepRuns isSep s := by
    intro s hs
    refine sepRuns_congr fun x hx => ?_
    have hne : x ≠ NL := fun he => hs (he ▸ hx)
    simp [isSep, hne]
  rcases mem_lines_cases h with ⟨-, hnl⟩ | ⟨body, rfl, hnl⟩
  · have htake : line.takeWhile (· ≠ NL) = line := by
      refine List.takeWhile_eq_self_iff.mpr fun x hx => ?_
      have hne : x ≠ NL := fun he => hnl (he ▸ hx)
      simpa using hne
    rw [lineArgs, htake, hsep line hnl]
  · rw [lineArgs, takeWhile_ne hnl, hsep body hnl, sepRuns_concat (by decide)]

theorem parseInput_newline (h : (fgets NL (MAX_INPUT - 1) text).1.getD 0 0 = NL) :
    parseInput (fgets NL (MAX_INPUT - 1) text).1 = [] := by
  cases text with
  | nil => rfl
  | cons x text =>
    rw [show MAX_INPUT - 1 = 1022 + 1 from rfl, fgets] at h ⊢
    split_ifs at h ⊢ with hx
    · rw [hx]
      exact (by decide : parseInput [NL] = [])
    · exact absurd h hx

theorem mainLoop_eq {left : Nat → List UInt8 → List UInt8} (hleft : ∀ m rest, left m rest = rest)
    {fuel : Nat} (hfuel : text.length < fuel) (m : Nat) : mainLoop left fuel m text =
      some ((commands ((pieces text).map parseInput)).map fun a => (callee a, a)) := by
  induction fuel generalizing text m with
  | zero => omega
  | succ fuel ih =>
    rw [mainLoop]
    by_cases hne : text = []
    · rw [if_pos hne, hne, pieces, reads_nil]
      rfl
    · have hlt : (fgets NL (MAX_INPUT - 1) text).2.length < text.length :=
        length_fgets_lt (by decide) hne
      have hrest := fun m => @ih (fgets NL (MAX_INPUT - 1) text).2 (by omega) m
      rw [if_neg hne, pieces, reads_cons (by decide) hne, List.map_cons, commands_cons]
      simp only [List.length_eq_zero_iff, hleft, ite_self, hrest]
      by_cases hnl : (fgets NL (MAX_INPUT - 1) text).1.getD 0 0 = NL
      · rw [if_pos hnl, if_pos (parseInput_newline hnl)]
        rfl
      · rw [if_neg hnl]
        split_ifs <;> rfl

def found (line : List UInt8) : List Args := ((pieces line).map parseInput).filter (· ≠ [])

theorem commands_pieces (line : List UInt8) (as : List Args) :
    commands ((pieces line).map parseInput ++ as) =
      (found line ++ as.filter (· ≠ [])).takeWhile (!leaves ·) := by
  rw [commands, List.filter_append]
  rfl

theorem parseInput_blank (h : ∀ x ∈ p, isSep x = true) : parseInput p = [] := by
  have hblank : sepRuns isSep (string p) = [] :=
    sepRuns_eq_nil.mpr fun x hx => h x ((List.takeWhile_sublist _).subset hx)
  rw [parseInput_eq, hblank, List.take_nil]

theorem found_blank (h : line ∈ lines NL text) (hblank : lineArgs line = []) : found line = [] := by
  rw [lineArgs_eq h, sepRuns_eq_nil] at hblank
  refine List.filter_eq_nil_iff.mpr fun a ha => ?_
  obtain ⟨p, hp, rfl⟩ := List.mem_map.mp ha
  have hin := List.infix_of_mem_flatten hp
  rw [pieces, flatten_reads (by decide)] at hin
  rw [parseInput_blank fun x hx => hblank x (hin.subset hx)]
  simp

theorem nul_notMem {t : List UInt8} (ht : t ∈ parseInput p) : 0 ∉ t := by
  rw [parseInput_eq] at ht
  intro h0
  have hflat : (0 : UInt8) ∈ (sepRuns isSep (string p)).flatten :=
    List.mem_flatten_of_mem (List.mem_of_mem_take ht) h0
  rw [flatten_sepRuns] at hflat
  have hstring := List.mem_takeWhile_imp (List.mem_of_mem_filter hflat)
  simp at hstring

theorem parsed_nul {ps : List (List UInt8)} {t : List UInt8}
    (ha : a ∈ (ps.map parseInput).filter (· ≠ [])) (ht : t ∈ a) : 0 ∉ t := by
  obtain ⟨p, -, rfl⟩ := List.mem_map.mp (List.mem_of_mem_filter ha)
  exact nul_notMem ht

theorem pieces_line (h : line ∈ lines NL text) :
    pieces line = line.take (MAX_INPUT - 1) :: pieces (line.drop (MAX_INPUT - 1)) := by
  rcases Nat.lt_or_ge (MAX_INPUT - 1) line.length with hlt | hge
  · exact reads_long (by decide) h hlt
  · rw [pieces, reads_short h hge, List.take_of_length_le hge, List.drop_of_length_le hge, pieces,
      reads_nil]

theorem found_line (h : line ∈ lines NL text) : found line =
    if parseInput (line.take (MAX_INPUT - 1)) = [] then found (line.drop (MAX_INPUT - 1))
    else parseInput (line.take (MAX_INPUT - 1)) :: found (line.drop (MAX_INPUT - 1)) := by
  rw [found, pieces_line h, List.map_cons, List.filter_cons]
  by_cases hp : parseInput (line.take (MAX_INPUT - 1)) = []
  · rw [if_neg (by simpa using hp), if_pos hp]
    rfl
  · rw [if_pos (by simpa using hp), if_neg hp]
    rfl

theorem dropPieces_mem_lines {k : Nat} (h : line ∈ lines NL text) (hne : dropPieces k line ≠ []) :
    dropPieces k line ∈ lines NL (dropPieces k line) := by
  rw [dropPieces] at hne ⊢
  generalize k * (MAX_INPUT - 1) = n at hne ⊢
  rcases mem_lines_cases h with ⟨-, hnl⟩ | ⟨body, rfl, hnl⟩
  · rw [lines_of_notMem hne fun hmem => hnl (List.mem_of_mem_drop hmem)]
    exact List.mem_singleton_self _
  · have hlen : n < (body ++ [NL]).length := by
      by_contra hge
      exact hne (List.drop_of_length_le (Nat.le_of_not_lt hge))
    rw [List.length_append, List.length_singleton] at hlen
    rw [List.drop_append_of_le_length (by omega),
      lines_line (fun hmem => hnl (List.mem_of_mem_drop hmem))]
    exact List.mem_cons_self

theorem dropPieces_succ (k : Nat) (line : List UInt8) :
    (dropPieces k line).drop (MAX_INPUT - 1) = dropPieces (k + 1) line := by
  rw [dropPieces, List.drop_drop, dropPieces, Nat.succ_mul]

theorem take_append_dropPieces (k : Nat) (line : List UInt8) : line.take (k * (MAX_INPUT - 1)) ++
    ((dropPieces k line).take (MAX_INPUT - 1) ++ dropPieces (k + 1) line) = line := by
  rw [← dropPieces_succ, List.take_append_drop, dropPieces, List.take_append_drop]

theorem found_dropPieces (h : line ∈ lines NL text) {k : Nat}
    (hbl : ∀ x ∈ line.take (k * (MAX_INPUT - 1)), isSep x = true) :
    found line = found (dropPieces k line) := by
  induction k with
  | zero => rw [dropPieces, Nat.zero_mul, List.drop_zero]
  | succ k ih =>
    rw [Nat.succ_mul, List.take_add] at hbl
    rw [ih fun x hx => hbl x (List.mem_append_left _ hx), ← dropPieces_succ]
    by_cases hne : dropPieces k line = []
    · rw [hne, List.drop_nil]
    · rw [found_line (dropPieces_mem_lines h hne), if_pos]
      exact parseInput_blank fun x hx => hbl x (List.mem_append_right _ hx)

theorem string_takeWhile {r t : List UInt8} (h0 : 0 ∉ (r ++ t).takeWhile (!isSep ·)) :
    (string r).takeWhile (!isSep ·) = r.takeWhile (!isSep ·) := by
  induction r with
  | nil => rfl
  | cons x r ih =>
    by_cases hx : isSep x = true
    · have hne : x ≠ 0 := fun he => absurd hx (by rw [he]; decide)
      simp [string, hx, hne]
    · rw [List.cons_append, List.takeWhile_cons_of_pos (by simpa using hx), List.mem_cons,
        not_or] at h0
      have hstring : string (x :: r) = x :: string r :=
        List.takeWhile_cons_of_pos (by simpa using Ne.symm h0.1)
      rw [hstring, List.takeWhile_cons_of_pos (by simpa using hx), ih h0.2,
        List.takeWhile_cons_of_pos (by simpa using hx)]

/-- The piece in which the first word begins, and what comes behind it. -/
theorem firstPiece_split (hargs : sepRuns isSep line ≠ []) :
    ∃ b c r, (∀ x ∈ b, isSep x = true) ∧ isSep c = false ∧
      (∀ x ∈ line.take (firstPiece line * (MAX_INPUT - 1)), isSep x = true) ∧
      (dropPieces (firstPiece line) line).take (MAX_INPUT - 1) = b ++ c :: r := by
  obtain ⟨c, r, hline⟩ := List.exists_cons_of_ne_nil (l := line.dropWhile isSep) fun hnil => by
    rw [← sepRuns_dropWhile, hnil, sepRuns_nil] at hargs
    exact hargs rfl
  have hc : isSep c = false := by
    have hhead := List.head?_dropWhile_not isSep line
    rw [hline] at hhead
    simpa using hhead
  have hbl : ∀ x ∈ line.takeWhile isSep, isSep x = true := fun x hx => List.mem_takeWhile_imp hx
  have hsplit : line = line.takeWhile isSep ++ c :: r := by
    rw [← hline, List.takeWhile_append_dropWhile]
  have hle := Nat.div_mul_le_self (line.takeWhile isSep).length (MAX_INPUT - 1)
  have hlt := Nat.lt_div_mul_add (a := (line.takeWhile isSep).length) (b := MAX_INPUT - 1) (by decide)
  rw [← firstPiece] at hle hlt
  generalize firstPiece line = k at hle hlt ⊢
  generalize line.takeWhile isSep = bl at hbl hsplit hle hlt
  obtain ⟨m, hm⟩ : ∃ m, MAX_INPUT - 1 - (bl.drop (k * (MAX_INPUT - 1))).length = m + 1 := by
    rw [List.length_drop]
    exact ⟨MAX_INPUT - 1 - (bl.length - k * (MAX_INPUT - 1)) - 1, by omega⟩
  refine ⟨bl.drop (k * (MAX_INPUT - 1)), c, r.take m, fun x hx => hbl x (List.mem_of_mem_drop hx), hc,
    fun x hx => ?_, ?_⟩
  · rw [hsplit, List.take_append_of_le_length hle] at hx
    exact hbl x (List.mem_of_mem_take hx)
  · rw [dropPieces, hsplit, List.drop_append_of_le_length hle, List.take_append, hm,
      List.take_of_length_le (by rw [List.length_drop]; omega), List.take_succ_cons]

/-- Where the first word of the line has no NUL, its piece begins with the same word, for `strtok`
too. -/
theorem found_first (h : line ∈ lines NL text) {w : List UInt8} {ws : Args}
    (hw : sepRuns isSep line = w :: ws) (h0 : 0 ∉ w) :
    let p := (dropPieces (firstPiece line) line).take (MAX_INPUT - 1)
    found line = parseInput p :: found (dropPieces (firstPiece line + 1) line) ∧
      (parseInput p).head? = (sepRuns isSep p).head? := by
  obtain ⟨b, c, r, hb, hc, hbl, hp⟩ := firstPiece_split (by rw [hw]; exact List.cons_ne_nil _ _)
  have hhead : w = c :: (r ++ dropPieces (firstPiece line + 1) line).takeWhile (!isSep ·) := by
    rw [← take_append_dropPieces (firstPiece line) line, sepRuns_of_sep_append hbl, hp,
      List.append_assoc, List.cons_append] at hw
    exact Option.some_inj.mp ((congrArg List.head? hw).symm.trans (head_sepRuns hb hc _))
  rw [hhead, List.mem_cons, not_or] at h0
  have hstring : string (b ++ c :: r) = b ++ c :: string r := by
    rw [string, List.takeWhile_append_of_pos,
      List.takeWhile_cons_of_pos (by simpa using Ne.symm h0.1)]
    · rfl
    · intro x hx
      have hne : x ≠ 0 := fun he => absurd (hb x hx) (by rw [he]; decide)
      simpa using hne
  have hparse : (parseInput (b ++ c :: r)).head? = some (c :: r.takeWhile (!isSep ·)) := by
    rw [parseInput_eq, hstring, List.head?_take, if_neg (by decide), head_sepRuns hb hc,
      string_takeWhile h0.2]
  have hne : dropPieces (firstPiece line) line ≠ [] := fun hnil => by
    rw [hnil, List.take_nil] at hp
    simp at hp
  rw [hp]
  refine ⟨?_, hparse.trans (head_sepRuns hb hc r).symm⟩
  rw [found_dropPieces h hbl, found_line (dropPieces_mem_lines h hne), hp, if_neg,
    dropPieces_succ]
  intro hnil
  rw [hnil] at hparse
  cases hparse

theorem length_parseInput_le (p : List UInt8) :
    (parseInput p).flatten.length ≤ (p.filter (!isSep ·)).length := by
  have htake : (parseInput p).flatten.length ≤ (sepRuns isSep (string p)).flatten.length := by
    rw [parseInput_eq]
    nth_rewrite 2 [← List.take_append_drop (MAX_ARGS - 1) (sepRuns isSep (string p))]
    rw [List.flatten_append, List.length_append]
    exact Nat.le_add_right _ _
  rw [flatten_sepRuns] at htake
  exact htake.trans ((List.takeWhile_sublist _).filter _).length_le

theorem length_found_le (line : List UInt8) :
    ((found line).map fun a => a.flatten.length).sum ≤ (line.filter (!isSep ·)).length := by
  have hall : ∀ ps : List (List UInt8),
      (((ps.map parseInput).filter (· ≠ [])).map fun a => a.flatten.length).sum ≤
        (ps.flatten.filter (!isSep ·)).length := by
    intro ps
    induction ps with
    | nil => simp
    | cons p ps ih =>
      have hp := length_parseInput_le p
      rw [List.map_cons, List.flatten_cons, List.filter_append, List.length_append, List.filter_cons]
      split_ifs
      · rw [List.map_cons, List.sum_cons]
        omega
      · omega
  have hline := hall (pieces line)
  rwa [pieces, flatten_reads (by decide)] at hline

theorem found_single (h : line ∈ lines NL text) (ha : found line = lineArgs line :: as) : as = [] := by
  have hsum := length_found_le line
  rw [ha, List.map_cons, List.sum_cons, lineArgs_eq h, flatten_sepRuns] at hsum
  cases as with
  | nil => rfl
  | cons b bs =>
    obtain ⟨hmem, hne⟩ := List.mem_filter.mp (show b ∈ found line by simp [ha])
    obtain ⟨p, -, rfl⟩ := List.mem_map.mp hmem
    obtain ⟨t, ts, hb⟩ := List.exists_cons_of_ne_nil (by simpa using hne)
    have ht : t ∈ sepRuns isSep (string p) := by
      rw [parseInput_eq] at hb
      exact List.mem_of_mem_take (hb ▸ List.mem_cons_self)
    have hpos := List.length_pos_iff.mpr (ne_nil_of_mem_sepRuns ht)
    rw [List.map_cons, List.sum_cons, hb, List.flatten_cons, List.length_append] at hsum
    omega

theorem not_leaves_of_nul {t : List UInt8} {ts : Args} (h0 : 0 ∈ t) : leaves (t :: ts) = false := by
  have hne : ∀ s : String, 0 ∉ word s → t ≠ word s := fun s hs he => hs (he ▸ h0)
  simp [leaves, hne "exit" (by decide), hne "quit" (by decide)]

theorem nul_mem_of_found_nil (h : line ∈ lines NL text) {w : List UInt8} {ws : Args}
    (hw : lineArgs line = w :: ws) (hf : found line = []) : 0 ∈ w := by
  by_contra h0
  rw [lineArgs_eq h] at hw
  rw [(found_first h hw h0).1] at hf
  cases hf

theorem parseInput_whole (p t : List UInt8) : parseInput p = sepRuns isSep (p ++ t) ↔
    (∀ x ∈ t, isSep x = true) ∧ (sepRuns isSep (p ++ t)).length < MAX_ARGS ∧ 0 ∉ p ++ t := by
  constructor
  · intro h
    have hflat : (parseInput p).flatten = (p ++ t).filter (!isSep ·) := by rw [h, flatten_sepRuns]
    refine ⟨?_, ?_, fun h0 => ?_⟩
    · have hlen := length_parseInput_le p
      rw [hflat, List.filter_append, List.length_append] at hlen
      have hnil : t.filter (!isSep ·) = [] := List.length_eq_zero_iff.mp (by omega)
      simpa using List.filter_eq_nil_iff.mp hnil
    · rw [← h, parseInput_eq]
      exact Nat.lt_of_le_of_lt (List.length_take_le _ _) (by decide)
    · have hmem : (0 : UInt8) ∈ (parseInput p).flatten := by
        rw [hflat]
        exact List.mem_filter.mpr ⟨h0, by decide⟩
      obtain ⟨w, hw, h0w⟩ := List.mem_flatten.mp hmem
      exact nul_notMem hw h0w
  · rintro ⟨ht, hlen, h0⟩
    rw [sepRuns_append_of_sep ht] at hlen ⊢
    rw [parseInput_eq, string_of_notMem fun h => h0 (List.mem_append_left _ h),
      List.take_of_length_le (by rw [MAX_ARGS] at hlen ⊢; omega)]

theorem leaves_congr {a b : Args} (h : a.head? = b.head?) : leaves a = leaves b := by
  rw [leaves, leaves, h]

theorem kept_iff (h : line ∈ lines NL text) (hargs : lineArgs line ≠ []) :
    ((found line).head?.getD [] = lineArgs line ∨
      leaves ((found line).head?.getD []) = true ∧ leaves (lineArgs line) = true) ↔ Kept line := by
  rw [Kept, or_iff_right hargs, lineArgs_eq h] at *
  obtain ⟨w, ws, hw⟩ := List.exists_cons_of_ne_nil hargs
  by_cases h0 : 0 ∈ w
  · have hflat : (0 : UInt8) ∈ line := by
      have hmem := List.mem_flatten_of_mem (List.mem_cons_self (a := w) (l := ws)) h0
      rw [← hw, flatten_sepRuns] at hmem
      exact List.mem_of_mem_filter hmem
    rw [hw, not_leaves_of_nul h0]
    refine iff_of_false ?_ (by simp [hflat])
    rintro (heq | ⟨-, hl⟩)
    · cases hf : found line with
      | nil =>
        rw [hf] at heq
        cases heq
      | cons a bs =>
        rw [hf, List.head?_cons, Option.getD_some] at heq
        have hmem : a ∈ found line := hf ▸ List.mem_cons_self
        exact parsed_nul hmem (heq ▸ List.mem_cons_self) h0
    · cases hl
  · obtain ⟨hfound, hhead⟩ := found_first h hw h0
    obtain ⟨-, -, -, -, -, hbl, -⟩ := firstPiece_split hargs
    have hwhole := (take_append_dropPieces (firstPiece line) line).symm
    have hwords : sepRuns isSep line = sepRuns isSep
        ((dropPieces (firstPiece line) line).take (MAX_INPUT - 1) ++
          dropPieces (firstPiece line + 1) line) := by
      nth_rewrite 1 [hwhole]
      exact sepRuns_of_sep_append hbl _
    have hnul : 0 ∉ line ↔ 0 ∉ (dropPieces (firstPiece line) line).take (MAX_INPUT - 1) ++
        dropPieces (firstPiece line + 1) line := by
      nth_rewrite 1 [hwhole]
      rw [List.mem_append, or_iff_right fun hm => absurd (hbl 0 hm) (by decide)]
    rw [hfound, List.head?_cons, Option.getD_some, hwords, hnul, ← parseInput_whole,
      leaves_congr hhead, and_comm (a := leaves (sepRuns isSep _) = true)]

theorem commands_iff {ls : List (List UInt8)} (h : ∀ l ∈ ls, l ∈ lines NL text) :
    commands ((ls.flatMap pieces).map parseInput) = commands (ls.map lineArgs) ↔ AllKept ls := by
  induction ls with
  | nil => exact iff_of_true rfl trivial
  | cons line ls ih =>
    have hline := h line List.mem_cons_self
    have hrest := ih fun l hl => h l (List.mem_cons_of_mem line hl)
    rw [List.flatMap_cons, List.map_append, List.map_cons, commands_cons, AllKept, commands_pieces]
    by_cases hargs : lineArgs line = []
    · rw [found_blank hline hargs, if_pos hargs, hargs]
      exact hrest.trans (by simp [leaves, Kept, hargs])
    rw [if_neg hargs, ← kept_iff hline hargs]
    cases hf : found line with
    | nil =>
      obtain ⟨w, ws, hw⟩ := List.exists_cons_of_ne_nil hargs
      have h0 := nul_mem_of_found_nil hline hw hf
      rw [hw, not_leaves_of_nul h0, if_neg Bool.false_ne_true]
      refine iff_of_false (fun heq => ?_) (by simp)
      -- the command of the line has a NUL, and those of the pieces have none
      have hmem : w :: ws ∈ (((ls.flatMap pieces).map parseInput).filter (· ≠ [])) :=
        (List.takeWhile_sublist _).subset (heq ▸ List.mem_cons_self)
      exact parsed_nul hmem List.mem_cons_self h0
    | cons a bs =>
      rw [List.cons_append, List.takeWhile_cons, List.head?_cons, Option.getD_some]
      by_cases ha : leaves a = true
      · rw [ha, Bool.not_true, if_neg Bool.false_ne_true]
        by_cases hw : leaves (lineArgs line) = true
        · simp [hw]
        · rw [if_neg hw]
          refine iff_of_false (by simp) ?_
          rintro ⟨rfl | ⟨-, hleaves⟩, -⟩
          · exact hw ha
          · exact hw hleaves
      · rw [if_pos (by simpa using ha)]
        by_cases hw : leaves (lineArgs line) = true
        · rw [if_pos hw]
          refine iff_of_false (by simp) ?_
          rintro ⟨rfl | ⟨hleaves, -⟩, -⟩
          · exact ha hw
          · exact ha hleaves
        · rw [if_neg hw, List.cons.injEq]
          simp only [ha, hw, false_and, or_false, false_or, Bool.false_eq_true]
          refine and_congr_right fun heq => ?_
          rw [heq] at hf
          rw [found_single hline hf]
          exact hrest

structure Small (line : List UInt8) : Prop where
  length : line.length < MAX_INPUT
  args : (lineArgs line).length < MAX_ARGS
  nul : 0 ∉ line

theorem Small.kept (hs : Small line) : Kept line := by
  refine .inr (.inl ⟨fun x hx => ?_, hs.args, hs.nul⟩)
  have hlen := hs.length
  have hle := Nat.le_mul_of_pos_left (MAX_INPUT - 1) (Nat.succ_pos (firstPiece line))
  rw [dropPieces, List.drop_of_length_le (by rw [MAX_INPUT] at hlen hle ⊢; omega)] at hx
  cases hx

theorem allKept_of_small {ls : List (List UInt8)} (hs : ∀ l ∈ ls, Small l) : AllKept ls := by
  induction ls with
  | nil => trivial
  | cons l ls ih =>
    exact ⟨(hs l List.mem_cons_self).kept, .inr (ih fun l' hl => hs l' (List.mem_cons_of_mem l hl))⟩

end

/-- Where `execute` leaves the input as it finds it, the commands that the shell calls are those of
the lines, one for each line that is not blank and up to the first `exit` or `quit`, exactly when each
of these lines has all its arguments in one piece of the input and not too many of them. Small lines
do. -/
theorem custom_shell_iff (left : Nat → List UInt8 → List UInt8) (hleft : ∀ m rest, left m rest = rest)
    (text : List UInt8) (fuel : Nat) (hfuel : text.length < fuel) :
    ∃ calls, mainLoop left fuel 0 text = some calls ∧
      (calls.map Prod.snd = commands ((lines NL text).map lineArgs) ↔ AllKept (lines NL text)) ∧
      ((∀ l ∈ lines NL text, Small l) → AllKept (lines NL text)) := by
  refine ⟨_, mainLoop_eq hleft hfuel 0, ?_, allKept_of_small⟩
  have hpieces : pieces text = (lines NL text).flatMap pieces := reads_eq_flatMap (by decide) text
  rw [List.map_map, hpieces, ← commands_iff fun l hl => hl]
  exact Eq.congr_left (List.map_id _)

theorem custom_shell_small : ∃ calls,
    mainLoop (fun _ rest => rest) 12 0 (word "ls -l\nexit\n") = some calls ∧
      calls.map Prod.snd = [[word "ls", word "-l"]] := by
  obtain ⟨calls, hrun, hiff, hsmall⟩ := custom_shell_iff (fun _ rest => rest) (fun _ _ => rfl)
    (word "ls -l\nexit\n") 12 (by decide)
  refine ⟨calls, hrun, (hiff.mpr (hsmall fun l hl => ?_)).trans (by decide)⟩
  rw [show lines NL (word "ls -l\nexit\n") = [word "ls -l\n", word "exit\n"] by decide] at hl
  simp only [List.mem_cons, List.not_mem_nil, or_false] at hl
  rcases hl with rfl | rfl <;> exact ⟨by decide, by decide, by decide⟩

theorem execute_of_long {t : List UInt8} (h : 4 < t.length) (ts : Args) :
    leaves (t :: ts) = false ∧ callee (t :: ts) = .execute := by
  have hne : ∀ s : String, (word s).length ≤ 4 → t ≠ word s := by
    rintro s hs rfl
    omega
  constructor
  · simp [leaves, hne "exit" (by decide), hne "quit" (by decide)]
  · simp [callee, hne "cd" (by decide), hne "pwd" (by decide), hne "help" (by decide)]

theorem custom_shell_cut :
    commands ((lines NL (List.replicate (MAX_INPUT - 1) 97 ++ [98, 10])).map lineArgs) =
      [[List.replicate (MAX_INPUT - 1) 97 ++ [98]]] ∧
    mainLoop (fun _ rest => rest) (MAX_INPUT + 2) 0 (List.replicate (MAX_INPUT - 1) 97 ++ [98, 10]) =
      some [(.execute, [List.replicate (MAX_INPUT - 1) 97]), (.execute, [[98]])] ∧
    commands ((lines NL (word "nosuch\necho x\n")).map lineArgs) =
      [[word "nosuch"], [word "echo", word "x"]] ∧
    mainLoop (fun m rest => if m = 0 then rest ++ rest else rest) 22 0 (word "nosuch\necho x\n") =
      some [(.execute, [word "nosuch"]), (.execute, [word "echo", word "x"]),
        (.execute, [word "echo", word "x"])] := by
  rw [← and_assoc]
  refine ⟨?_, by decide, by decide⟩
  have ha : (List.replicate (MAX_INPUT - 1) (97 : UInt8)).length = MAX_INPUT - 1 :=
    List.length_replicate
  have hmem : ∀ x ∈ List.replicate (MAX_INPUT - 1) (97 : UInt8), x = 97 := fun x hx =>
    List.eq_of_mem_replicate hx
  generalize List.replicate (MAX_INPUT - 1) (97 : UInt8) = a at *
  have hword : ∀ x ∈ a ++ [98], x ≠ NL ∧ x ≠ 0 ∧ isSep x = false := by
    intro x hx
    rcases List.mem_append.mp hx with hx | hx
    · rw [hmem x hx]
      decide
    · rw [List.mem_singleton.mp hx]
      decide
  have hnl : NL ∉ a ++ [98] := fun h => (hword NL h).1 rfl
  obtain ⟨hlines, hreads⟩ : lines NL (a ++ [98, 10]) = [a ++ [98, 10]] ∧
      pieces (a ++ [98, 10]) = [a, [98, 10]] := reads_two (by decide) ha (by decide) hnl
  have hlong : 4 < a.length := by
    rw [ha]
    decide
  constructor
  · have hargs : lineArgs (a ++ [98, 10]) = [a ++ [98]] := by
      have hsep : sepRuns isSep (a ++ [98] ++ [10]) = [a ++ [98]] := by
        rw [sepRuns_concat (by decide), sepRuns_of_none (by simp) fun x hx => (hword x hx).2.2]
      rw [List.append_assoc] at hsep
      rw [lineArgs_eq (hlines ▸ List.mem_singleton_self _)]
      exact hsep
    have hstay := (execute_of_long (t := a ++ [98]) (by simp; omega) []).1
    rw [hlines, List.map_singleton, hargs, commands_cons, if_neg (by simp), hstay]
    rfl
  · have hfirst : parseInput a = [a] := by
      have ha' : ∀ x ∈ a, x ∈ a ++ [98] := fun x hx => List.mem_append_left _ hx
      rw [parseInput_eq, string_of_notMem fun h => (hword 0 (ha' 0 h)).2.1 rfl,
        sepRuns_of_none (List.length_pos_iff.mp (by omega)) fun x hx => (hword x (ha' x hx)).2.2]
      rfl
    have hsecond : commands ([[98, 10]].map parseInput) = [[[98]]] := by decide
    obtain ⟨hstay, hcallee⟩ := execute_of_long hlong []
    rw [mainLoop_eq (fun _ _ => rfl) (by rw [List.length_append, ha]; decide), hreads, List.map_cons,
      hfirst, commands_cons, if_neg (by simp), hstay,
      if_neg Bool.false_ne_true, List.map_cons, hcallee, hsecond]
    rfl

end OsProject.CustomShell
