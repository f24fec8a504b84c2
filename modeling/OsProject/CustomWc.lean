import OsProject.CustomGrep
import OsProject.FlagArgs
import OsProject.Numeral
import OsProject.SepRuns

/-! The program `custom_wc`. Its counters are `int`s, and a run in which one of them overflows is
`none`. -/

namespace OsProject.CustomWc

open CustomGrep (INT_MAX)

/-- `isspace` in the C locale. -/
def isspace (c : UInt8) : Bool := c == 32 || (9 ≤ c && c ≤ 13)

/-- `n++` for an `int`. -/
def incr (n : Nat) : Option Nat := if n = INT_MAX then none else some (n + 1)

structure Counts where
  lines : Nat
  words : Nat
  chars : Nat
  deriving DecidableEq, Repr

/-- The loop of `count_file`. -/
def countLoop : List UInt8 → Counts → Bool → Option Counts
  | [], k, _ => some k
  | ch :: text, k, inWord => do
    let chars ← incr k.chars
    let lines ← (if ch = NL then incr k.lines else some k.lines)
    if isspace ch then countLoop text ⟨lines, k.words, chars⟩ false
    else if !inWord then
      let words ← incr k.words
      countLoop text ⟨lines, words, chars⟩ true
    else countLoop text ⟨lines, k.words, chars⟩ inWord

/-- `lines`, `words` and `chars` at the end of the stream. -/
def count (text : List UInt8) : Option Counts := countLoop text ⟨0, 0, 0⟩ false

/-- `show_l`, `show_w` and `show_c`. -/
structure Show where
  l : Bool
  w : Bool
  c : Bool
  deriving DecidableEq, Repr

/-- `printf("%d ", n)`. -/
def field (shown : Bool) (n : Nat) : List UInt8 := if shown then decimal n ++ [32] else []

def countFile (f : Show) (text : List UInt8) : Option (List UInt8) :=
  (count text).map fun k => field f.l k.lines ++ field f.w k.words ++ field f.c k.chars

def setLetter (f : Show) (ch : UInt8) : Show :=
  let f := if ch = 108 then { f with l := true } else f
  let f := if ch = 119 then { f with w := true } else f
  if ch = 99 then { f with c := true } else f

/-- The body of the first loop of `main`, which clears the flags for every argument. -/
def readFlags (_ : Show) (arg : List UInt8) : Show := arg.tail.foldl setLetter ⟨false, false, false⟩

def parse (argv : List (List UInt8)) : Show × Nat := flagLoop readFlags ⟨true, true, true⟩ 1 argv.tail

/-- The standard output, and the names given to `perror`. -/
structure Output where
  stdout : List UInt8
  failed : List (List UInt8)
  deriving DecidableEq, Repr

/-- The second loop of `main`. -/
def countFiles (fopen : List UInt8 → Option (List UInt8)) (f : Show) :
    List (List UInt8) → Option Output
  | [] => some ⟨[], []⟩
  | name :: names =>
    match fopen name with
    | none => (countFiles fopen f names).map fun o => ⟨o.stdout, name :: o.failed⟩
    | some text => do
      let out ← countFile f text
      let o ← countFiles fopen f names
      return ⟨out ++ name ++ [NL] ++ o.stdout, o.failed⟩

/-- What `main` does from `i` on with the flags it has read. -/
def run (fopen : List UInt8 → Option (List UInt8)) (stdin : List UInt8) (argv : List (List UInt8))
    (f : Show) (i : Nat) : Option Output :=
  if i = argv.length then (countFile f stdin).map fun out => ⟨out ++ [NL], []⟩
  else countFiles fopen f (argv.drop i)

/-- `fopen` gives the content of a file. The program always returns 0. -/
def main (fopen : List UInt8 → Option (List UInt8)) (stdin : List UInt8) (argv : List (List UInt8)) :
    Option Output := run fopen stdin argv (parse argv).1 (parse argv).2

structure Counts.InRange (k : Counts) : Prop where
  lines_le : k.lines ≤ k.chars
  words_le : k.words ≤ k.chars
  chars_le : k.chars ≤ INT_MAX

theorem incr_of_lt {n : Nat} (h : n < INT_MAX) : incr n = some (n + 1) :=
  if_neg (Nat.ne_of_lt h)

theorem countLoop_cons {k : Counts} (h : k.InRange) (hlt : k.chars < INT_MAX) (ch : UInt8)
    (text : List UInt8) (inWord : Bool) : countLoop (ch :: text) k inWord =
      countLoop text ⟨k.lines + (if ch = NL then 1 else 0),
        k.words + (if isspace ch || inWord then 0 else 1), k.chars + 1⟩ (!isspace ch) := by
  have hlines : (if ch = NL then incr k.lines else some k.lines) =
      some (k.lines + (if ch = NL then 1 else 0)) := by
    split_ifs
    · exact incr_of_lt (Nat.lt_of_le_of_lt h.lines_le hlt)
    · rfl
  have hwords := incr_of_lt (Nat.lt_of_le_of_lt h.words_le hlt)
  rw [countLoop, incr_of_lt hlt, hlines, hwords]
  cases isspace ch <;> cases inWord <;> rfl

theorem countLoop_full {k : Counts} (h : k.chars = INT_MAX) (ch : UInt8) (text : List UInt8)
    (inWord : Bool) : countLoop (ch :: text) k inWord = none := by
  rw [countLoop, incr, if_pos h]
  rfl

theorem countLoop_eq (text : List UInt8) {k : Counts} (h : k.InRange) (inWord : Bool) :
    countLoop text k inWord =
      if k.chars + text.length ≤ INT_MAX then
        some ⟨k.lines + text.count NL, k.words + runStarts isspace inWord text, k.chars + text.length⟩
      else none := by
  induction text generalizing k inWord with
  | nil => exact (if_pos h.chars_le).symm
  | cons ch text ih =>
    rcases Nat.eq_or_lt_of_le h.chars_le with hfull | hlt
    · rw [countLoop_full hfull, if_neg (by rw [List.length_cons]; omega)]
    · have hnext : Counts.InRange ⟨k.lines + (if ch = NL then 1 else 0),
          k.words + (if isspace ch || inWord then 0 else 1), k.chars + 1⟩ := by
        refine ⟨?_, ?_, hlt⟩
        · have hle := h.lines_le
          dsimp only
          split_ifs <;> omega
        · have hle := h.words_le
          dsimp only
          split_ifs <;> omega
      have hlen : k.chars + 1 + text.length = k.chars + (ch :: text).length := by
        rw [List.length_cons]
        omega
      have hlines : k.lines + (if ch = NL then 1 else 0) + text.count NL =
          k.lines + (ch :: text).count NL := by
        rw [List.count_cons]
        simp only [beq_iff_eq]
        omega
      have hwords : k.words + (if isspace ch || inWord then 0 else 1) +
          runStarts isspace (!isspace ch) text =
            k.words + runStarts isspace inWord (ch :: text) := by
        rw [runStarts]
        cases isspace ch <;> cases inWord <;> simp [Nat.add_assoc, Nat.add_comm]
      rw [countLoop_cons h hlt, ih hnext, hlen, hlines, hwords]

theorem count_eq (text : List UInt8) : count text =
    if text.length ≤ INT_MAX then
      some ⟨text.count NL, (sepRuns isspace text).length, text.length⟩
    else none := by
  have heq := countLoop_eq text (k := ⟨0, 0, 0⟩) ⟨Nat.le_refl 0, Nat.le_refl 0, Nat.zero_le _⟩ false
  simp only [Nat.zero_add] at heq
  rw [count, heq, length_sepRuns]

theorem count_of_le {text : List UInt8} (h : text.length ≤ INT_MAX) :
    count text = some ⟨text.count NL, (sepRuns isspace text).length, text.length⟩ := by
  rw [count_eq, if_pos h]

/-- The counts are right exactly for streams of at most `INT_MAX` bytes, and then the counts of two
streams add up, with one word less when a word goes over the seam. -/
theorem count_file_iff (text a b : List UInt8) :
    (count text = some ⟨text.count NL, (sepRuns isspace text).length, text.length⟩ ↔
      text.length ≤ INT_MAX) ∧
    ((∃ ka kb k, count a = some ka ∧ count b = some kb ∧ count (a ++ b) = some k ∧
      k.lines = ka.lines + kb.lines ∧ k.chars = ka.chars + kb.chars ∧
      k.words + (endsRun isspace a && startsRun isspace b).toNat = ka.words + kb.words) ↔
        a.length + b.length ≤ INT_MAX) := by
  constructor
  · rw [count_eq]
    split_ifs with hlen <;> simp [hlen]
  constructor
  · rintro ⟨ka, kb, k, -, -, hk, -⟩
    rw [count_eq, List.length_append] at hk
    by_contra hlen
    rw [if_neg hlen] at hk
    cases hk
  · intro hlen
    have hboth : (a ++ b).length ≤ INT_MAX := by rwa [List.length_append]
    refine ⟨_, _, _, count_of_le (by omega), count_of_le (by omega), count_of_le hboth, ?_, ?_, ?_⟩
    · exact List.count_append
    · exact List.length_append
    · exact length_sepRuns_append isspace a b

theorem count_overflow : count (List.replicate (INT_MAX + 1) 97) = none := by
  rw [count_eq, List.length_replicate, if_neg (by omega)]

end OsProject.CustomWc
