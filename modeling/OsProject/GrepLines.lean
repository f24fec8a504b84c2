import OsProject.GrepMatch
import OsProject.Overwrite
import OsProject.TextLines

/-! The loop of `grep.c` over a file that `read` returns in pieces. The lines that are complete in the
buffer are printed where they match, and what is left is moved to the front. -/

namespace OsProject.Grep

/-- The size of `buf`. -/
def BUFSIZE : Nat := 1024

/-- The distance from `s` to the character. -/
def strchr : List UInt8 → UInt8 → Option Nat
  | [], _ => none
  | x :: s, c => if x = 0 then none else if x = c then some 0 else (strchr s c).map (· + 1)

/-- The bytes that `read` returns when it is asked for `len`. Where there are any, it returns at
least one. -/
def read (rest : List UInt8) (len want : Nat) : List UInt8 := rest.take (min len (max 1 want))

/-- The inner loop with `turns` turns at most. The result is `buf`, `p` and what was printed. -/
def printLines (pattern : List UInt8) : Nat → List UInt8 → Nat → List UInt8 × Nat × List UInt8
  | 0, buf, p => (buf, p, [])
  | turns + 1, buf, p =>
    match strchr (buf.drop p) NL with
    | none => (buf, p, [])
    | some d =>
      let q := p + d
      let buf := buf.set q 0
      let found := matchText pattern (string (buf.drop p)) ≠ 0
      let buf := if found then buf.set q NL else buf
      let out := if found then (buf.drop p).take (q + 1 - p) else []
      let r := printLines pattern turns buf (q + 1)
      (r.1, r.2.1, out ++ r.2.2)

/-- The outer loop. `rest` is what the file still has, and the read number `i` returns at most
`want i` bytes. -/
def grepLoop (pattern : List UInt8) (want : Nat → Nat) (i : Nat) (buf : List UInt8) (m : Nat)
    (rest : List UInt8) : List UInt8 :=
  let chunk := read rest (BUFSIZE - m - 1) (want i)
  if _ : 0 < chunk.length then
    let m' := m + chunk.length
    let buf := (overwrite buf m chunk).set m' 0
    let r := printLines pattern BUFSIZE buf 0
    let m'' := if 0 < m' then m' - r.2.1 else m'
    let buf := if 0 < m' then overwrite r.1 0 ((r.1.drop r.2.1).take m'') else r.1
    r.2.2 ++ grepLoop pattern want (i + 1) buf m'' (rest.drop chunk.length)
  else []
termination_by rest.length
decreasing_by
  have hle : chunk.length ≤ rest.length := List.length_take_le' _ _
  have hlt : rest.length - chunk.length < rest.length := by omega
  rwa [List.length_drop]

/-- What `grep` prints for a file with the content `text`. The buffer still has what the file before
it has left there. -/
def grep (pattern : List UInt8) (want : Nat → Nat) (buf text : List UInt8) : List UInt8 :=
  grepLoop pattern want 0 buf 0 text

/-- The line matches. Its newline does not belong to the text that is matched. -/
def Selected (pattern line : List UInt8) : Prop :=
  matchText pattern (string (line.takeWhile (· ≠ NL))) ≠ 0

instance (pattern line : List UInt8) : Decidable (Selected pattern line) :=
  inferInstanceAs (Decidable (_ ≠ _))

def selection (pattern : List UInt8) (ls : List (List UInt8)) : List UInt8 :=
  (ls.filter fun l => Selected pattern l).flatten

def Whole (line : List UInt8) : Prop :=
  line.length < BUFSIZE ∧ 0 ∉ line ∧ line.getLast? = some NL

instance (line : List UInt8) : Decidable (Whole line) :=
  inferInstanceAs (Decidable (_ ∧ _ ∧ _))

section

variable {pattern body junk s : List UInt8}

theorem strchr_line (h0 : 0 ∉ body) (hnl : NL ∉ body) (s : List UInt8) :
    strchr (body ++ NL :: s) NL = some body.length := by
  induction body with
  | nil => rfl
  | cons x body ih =>
    rw [List.mem_cons, not_or] at h0 hnl
    rw [List.cons_append, strchr, if_neg (Ne.symm h0.1), if_neg (Ne.symm hnl.1), ih h0.2 hnl.2]
    rfl

theorem strchr_some {d : Nat} (h : strchr s NL = some d) :
    ∃ body t, s = body ++ NL :: t ∧ 0 ∉ body ∧ NL ∉ body ∧ body.length = d := by
  induction s generalizing d with
  | nil => cases h
  | cons x s ih =>
    rw [strchr] at h
    split_ifs at h with h0 hx
    · cases h
      exact ⟨[], s, by rw [hx]; rfl, by simp, by simp, rfl⟩
    · rw [Option.map_eq_some_iff] at h
      obtain ⟨d', hd', rfl⟩ := h
      obtain ⟨body, t, rfl, hzero, hnl, rfl⟩ := ih hd'
      exact ⟨x :: body, t, rfl, by simp [hzero, Ne.symm h0], by simp [hnl, Ne.symm hx], rfl⟩

theorem strchr_left {left : List UInt8} (h : strchr (left ++ 0 :: junk) NL = none) :
    strchr left NL = none := by
  cases hs : strchr left NL with
  | none => rfl
  | some d =>
    obtain ⟨body, t, rfl, hzero, hnl, -⟩ := strchr_some hs
    rw [List.append_assoc, List.cons_append, strchr_line hzero hnl] at h
    cases h

def Found (line : List UInt8) : Prop := ∃ body, line = body ++ [NL] ∧ 0 ∉ body ∧ NL ∉ body

theorem selected_line (h0 : 0 ∉ body) (hnl : NL ∉ body) :
    Selected pattern (body ++ [NL]) ↔ matchText pattern body ≠ 0 := by
  rw [Selected, takeWhile_ne hnl, string_of_notMem h0]

theorem drop_set_line {buf t : List UInt8} {p : Nat} {x : UInt8} (h : buf.drop p = body ++ x :: t)
    (y : UInt8) : (buf.set (p + body.length) y).drop p = body ++ y :: t := by
  rw [List.drop_set, if_neg (by omega), h, Nat.add_sub_cancel_left, List.set_append_right _ _ le_rfl,
    Nat.sub_self, List.set_cons_zero]

theorem drop_line {buf t : List UInt8} {p : Nat} {x : UInt8} (h : buf.drop p = body ++ x :: t) :
    buf.drop (p + body.length + 1) = t := by
  rw [Nat.add_assoc, ← List.drop_drop, h, ← List.drop_drop, List.drop_left]
  rfl

theorem printLines_line (pattern : List UInt8) (turns : Nat) {buf t : List UInt8} {p : Nat}
    (h0 : 0 ∉ body) (hnl : NL ∉ body) (hbuf : buf.drop p = body ++ NL :: t) :
    ∃ buf', buf'.length = buf.length ∧
      buf'.drop (p + body.length + 1) = t ∧
      printLines pattern (turns + 1) buf p =
        ((printLines pattern turns buf' (p + body.length + 1)).1,
          (printLines pattern turns buf' (p + body.length + 1)).2.1,
          selection pattern [body ++ [NL]] ++
            (printLines pattern turns buf' (p + body.length + 1)).2.2) := by
  have hzero := drop_set_line hbuf 0
  rw [printLines, hbuf, strchr_line h0 hnl]
  dsimp only
  rw [hzero, string, takeWhile_ne h0]
  by_cases hm : matchText pattern body ≠ 0
  · have hback := drop_set_line hzero NL
    refine ⟨(buf.set (p + body.length) 0).set (p + body.length) NL, by simp, drop_line hback, ?_⟩
    have hsize : p + body.length + 1 - p = (body ++ [NL]).length := by
      rw [List.length_append, List.length_singleton]
      omega
    have hout : (body ++ NL :: t).take (p + body.length + 1 - p) = body ++ [NL] := by
      rw [hsize, List.append_cons body NL t, List.take_left]
    rw [if_pos hm, hback, hout, if_pos hm, selection,
      List.filter_cons_of_pos (by simpa using (selected_line h0 hnl).mpr hm)]
    simp
  · refine ⟨buf.set (p + body.length) 0, by simp, drop_line hzero, ?_⟩
    rw [if_neg hm, if_neg hm, selection,
      List.filter_cons_of_neg (by simpa using fun h => hm ((selected_line h0 hnl).mp h))]
    rfl

theorem line_before_nul {text t : List UInt8} (h : text ++ 0 :: junk = body ++ NL :: t)
    (h0 : 0 ∉ body) : ∃ text', text = body ++ NL :: text' ∧ t = text' ++ 0 :: junk := by
  rcases List.append_eq_append_iff.mp h with ⟨a, hbody, hjunk⟩ | ⟨a, htext, hline⟩
  · cases a with
    | nil => cases hjunk
    | cons x a =>
      cases hjunk
      exact absurd (hbody ▸ by simp) h0
  · cases a with
    | nil => cases hline
    | cons x a =>
      cases hline
      exact ⟨a, htext, rfl⟩

theorem selection_append (pattern : List UInt8) (a b : List (List UInt8)) :
    selection pattern (a ++ b) = selection pattern a ++ selection pattern b := by
  rw [selection, List.filter_append, List.flatten_append, selection, selection]

structure Printed (pattern buf : List UInt8) (p : Nat) (text junk : List UInt8)
    (done : List (List UInt8)) (left : List UInt8) (r : List UInt8 × Nat × List UInt8) : Prop where
  text_eq : text = done.flatten ++ left
  found : ∀ l ∈ done, Found l
  stuck : strchr left NL = none
  size : r.1.length = buf.length
  cursor : r.2.1 = p + done.flatten.length
  kept : r.1.drop r.2.1 = left ++ 0 :: junk
  out : r.2.2 = selection pattern done

theorem printLines_spec (pattern : List UInt8) {turns p : Nat} {buf text : List UInt8}
    (hturns : text.length < turns) (hbuf : buf.drop p = text ++ 0 :: junk) :
    ∃ done left, Printed pattern buf p text junk done left (printLines pattern turns buf p) := by
  induction turns generalizing buf p text with
  | zero => omega
  | succ turns ih =>
    cases hs : strchr (buf.drop p) NL with
    | none =>
      rw [printLines, hs]
      exact ⟨[], text, rfl, by simp, strchr_left (hbuf ▸ hs), rfl, rfl, hbuf, rfl⟩
    | some d =>
      obtain ⟨body, t, hline, h0, hnl, -⟩ := strchr_some hs
      obtain ⟨text', rfl, rfl⟩ := line_before_nul (hbuf.symm.trans hline) h0
      obtain ⟨buf', hsize, hdrop, hturn⟩ := printLines_line pattern turns h0 hnl hline
      rw [List.length_append, List.length_cons] at hturns
      obtain ⟨done, left, hr⟩ := ih (by omega) hdrop
      refine ⟨(body ++ [NL]) :: done, left, ?_⟩
      rw [hturn]
      refine ⟨?_, ?_, hr.stuck, hr.size.trans hsize, ?_, hr.kept, ?_⟩
      · rw [hr.text_eq]
        simp
      · intro l hl
        rcases List.mem_cons.mp hl with rfl | hl
        · exact ⟨body, rfl, h0, hnl⟩
        · exact hr.found l hl
      · rw [hr.cursor, List.flatten_cons, List.length_append, List.length_append]
        simp only [List.length_singleton]
        omega
      · dsimp only
        rw [hr.out, ← selection_append]
        rfl

theorem Found.whole {line : List UInt8} (h : Found line) (hlen : line.length < BUFSIZE) :
    Whole line := by
  obtain ⟨body, rfl, h0, -⟩ := h
  refine ⟨hlen, ?_, by simp⟩
  rw [List.mem_append, not_or]
  exact ⟨h0, by decide⟩

theorem lines_found {done : List (List UInt8)} (h : ∀ l ∈ done, Found l) (text : List UInt8) :
    lines NL (done.flatten ++ text) = done ++ lines NL text := by
  induction done with
  | nil => rfl
  | cons l done ih =>
    obtain ⟨body, rfl, -, hnl⟩ := h l List.mem_cons_self
    rw [List.flatten_cons, List.append_assoc, List.append_assoc, List.singleton_append,
      lines_line hnl, ih fun l hl => h l (List.mem_cons_of_mem _ hl)]
    rfl

def wholeLines (text : List UInt8) : List (List UInt8) := (lines NL text).takeWhile fun l => Whole l

theorem wholeLines_found {done : List (List UInt8)} (h : ∀ l ∈ done, Found l)
    (hlen : done.flatten.length < BUFSIZE) (text : List UInt8) :
    wholeLines (done.flatten ++ text) = done ++ wholeLines text := by
  rw [wholeLines, lines_found h, List.takeWhile_append_of_pos]
  · rfl
  · intro l hl
    have hle : l.length ≤ done.flatten.length := (List.sublist_flatten_of_mem hl).length_le
    exact decide_eq_true ((h l hl).whole (by omega))

theorem wholeLines_stuck {held rest : List UInt8} (hstuck : strchr held NL = none)
    (hend : rest = [] ∨ BUFSIZE ≤ held.length + 1) : wholeLines (held ++ rest) = [] := by
  rw [wholeLines]
  rcases lines_cases NL (held ++ rest) with hnil | ⟨hne, hnl⟩ | ⟨body, t, heq, hnl⟩
  · rw [hnil]
    rfl
  · rw [lines_of_notMem hne hnl, List.takeWhile_cons_of_neg]
    intro hwhole
    exact hnl (List.mem_of_getLast? (of_decide_eq_true hwhole).2.2)
  · rw [heq, lines_line hnl, List.takeWhile_cons_of_neg]
    intro hwhole
    obtain ⟨hlen, h0, -⟩ := of_decide_eq_true hwhole
    rw [List.mem_append, not_or] at h0
    rw [List.length_append, List.length_singleton] at hlen
    -- the newline is in the part of the text that is in the buffer
    rcases List.append_eq_append_iff.mp heq with ⟨a, rfl, hrest⟩ | ⟨a, hheld, hrest⟩
    · rw [List.length_append] at hlen
      rcases hend with rfl | hfull
      · simp at hrest
      · omega
    · cases a with
      | nil =>
        rw [List.append_nil] at hheld
        rcases hend with rfl | hfull
        · simp at hrest
        · rw [hheld] at hfull
          omega
      | cons x a =>
        cases hrest
        rw [hheld, strchr_line h0.1 hnl] at hstuck
        cases hstuck

theorem buffer_filled {buf held : List UInt8} {m : Nat} (hheld : buf.take m = held)
    (chunk : List UInt8) (hroom : m + chunk.length < buf.length) : ∃ junk,
      (overwrite buf m chunk).set (m + chunk.length) 0 = held ++ chunk ++ 0 :: junk := by
  obtain ⟨x, junk, hdrop⟩ := List.exists_cons_of_length_pos (l := buf.drop (m + chunk.length))
    (by rw [List.length_drop]; omega)
  have hlen : m + chunk.length = (held ++ chunk).length := by
    rw [← hheld, List.length_append, List.length_take]
    omega
  refine ⟨junk, ?_⟩
  rw [overwrite, hheld, hdrop, hlen, List.set_append_right _ _ le_rfl, Nat.sub_self,
    List.set_cons_zero]

theorem length_read (rest : List UInt8) (len want : Nat) : (read rest len want).length ≤ len := by
  rw [read, List.length_take]
  omega

theorem read_nil {rest : List UInt8} {len want : Nat} (h : ¬ 0 < (read rest len want).length) :
    rest = [] ∨ len = 0 := by
  rw [read, List.length_take] at h
  rcases Nat.eq_zero_or_pos rest.length with hrest | hrest
  · exact .inl (List.length_eq_zero_iff.mp hrest)
  · omega

theorem append_drop_read (rest : List UInt8) (len want : Nat) :
    read rest len want ++ rest.drop (read rest len want).length = rest := by
  exact List.prefix_iff_eq_append.mp (List.take_prefix _ _)

theorem Printed.moved {buf text : List UInt8} {done : List (List UInt8)} {left : List UInt8}
    {r : List UInt8 × Nat × List UInt8} (h : Printed pattern buf 0 text junk done left r)
    (hsize : buf.length = BUFSIZE) (htext : text.length < BUFSIZE) :
    text.length - r.2.1 = left.length ∧ (r.1.drop r.2.1).take left.length = left ∧
      (overwrite r.1 0 left).length = BUFSIZE ∧ (overwrite r.1 0 left).take left.length = left := by
  have hlen := congrArg List.length h.text_eq
  rw [List.length_append] at hlen
  refine ⟨?_, ?_, ?_, ?_⟩
  · rw [h.cursor]
    omega
  · rw [h.kept, List.take_left]
  · rw [length_overwrite (Nat.zero_le _), h.size, hsize]
    omega
  · rw [overwrite, List.take_zero, List.nil_append, List.take_left]

theorem grepLoop_out {want : Nat → Nat} {i m : Nat} {buf held rest : List UInt8}
    (hsize : buf.length = BUFSIZE) (hmax : m < BUFSIZE) (hheld : buf.take m = held)
    (hstuck : strchr held NL = none) :
    grepLoop pattern want i buf m rest = selection pattern (wholeLines (held ++ rest)) := by
  induction h : rest.length using Nat.strongRecOn generalizing i m buf held rest with
  | ind n ih =>
    subst h
    have hlen : held.length = m := by
      rw [← hheld, List.length_take]
      omega
    have hread := length_read rest (BUFSIZE - m - 1) (want i)
    have hrest := append_drop_read rest (BUFSIZE - m - 1) (want i)
    rw [grepLoop]
    generalize hchunk : read rest (BUFSIZE - m - 1) (want i) = chunk at *
    split_ifs with hpos
    · have hshorter : (rest.drop chunk.length).length < rest.length := by
        have hle := congrArg List.length hrest
        rw [List.length_append] at hle
        omega
      obtain ⟨junk, hfilled⟩ := buffer_filled hheld chunk (by omega)
      have hfits : ((overwrite buf m chunk).set (m + chunk.length) 0).length = BUFSIZE := by
        rw [List.length_set, length_overwrite (by omega), hsize]
        omega
      have htext : (held ++ chunk).length = m + chunk.length := by
        rw [List.length_append, hlen]
      obtain ⟨done, left, hr⟩ := printLines_spec pattern (p := 0)
        (show _ < BUFSIZE by omega) hfilled
      obtain ⟨hcursor, hleft, hsize', hheld'⟩ := hr.moved hfits (by omega)
      generalize hrun : printLines pattern BUFSIZE
        ((overwrite buf m chunk).set (m + chunk.length) 0) 0 = r at *
      rw [htext] at hcursor
      have hdone := congrArg List.length hr.text_eq
      simp only [List.length_append] at hdone htext
      have hnext := ih _ hshorter (i := i + 1) hsize' (by omega) hheld' hr.stuck rfl
      have hall : held ++ rest = done.flatten ++ (left ++ rest.drop chunk.length) := by
        rw [← hrest, ← List.append_assoc, hr.text_eq, List.append_assoc, hrest]
      dsimp only
      rw [if_pos (by omega), if_pos (by omega), hrun, hcursor, hleft, hnext, hr.out, hall,
        wholeLines_found hr.found (by omega), selection_append]
    · rcases read_nil (hchunk ▸ hpos) with hnil | hfull
      · rw [wholeLines_stuck hstuck (.inl hnil)]
        rfl
      · rw [wholeLines_stuck hstuck (.inr (by omega))]
        rfl

theorem grep_out {buf : List UInt8} (hsize : buf.length = BUFSIZE) (want : Nat → Nat)
    (pattern text : List UInt8) :
    grep pattern want buf text = selection pattern (wholeLines text) :=
  grepLoop_out hsize (by decide) rfl rfl

theorem selection_eq_nil {ls : List (List UInt8)} (h : ∀ l ∈ ls, l ≠ []) :
    selection pattern ls = [] ↔ ∀ l ∈ ls, ¬ Selected pattern l := by
  rw [selection, List.flatten_eq_nil_iff]
  constructor
  · intro hnil l hl hsel
    exact h l hl (hnil l (List.mem_filter.mpr ⟨hl, decide_eq_true hsel⟩))
  · intro hnone l hl
    obtain ⟨hmem, hsel⟩ := List.mem_filter.mp hl
    exact absurd (of_decide_eq_true hsel) (hnone l hmem)

end

/-- `grep` prints the matching lines, each once and in order, exactly when no line matches from the
first one on that has no newline, does not fit in the buffer or has a NUL. -/
theorem grep_prints_iff {buf : List UInt8} (hsize : buf.length = BUFSIZE) (want : Nat → Nat)
    (pattern text : List UInt8) :
    grep pattern want buf text = selection pattern (lines NL text) ↔
      ∀ l ∈ (lines NL text).dropWhile (fun l => Whole l), ¬ Selected pattern l := by
  have hsplit : lines NL text = wholeLines text ++ (lines NL text).dropWhile (fun l => Whole l) :=
    List.takeWhile_append_dropWhile.symm
  have hne : ∀ l ∈ (lines NL text).dropWhile (fun l => Whole l), l ≠ [] := fun l hl =>
    ne_nil_of_mem_lines ((List.dropWhile_sublist _).subset hl)
  rw [grep_out hsize, ← selection_eq_nil hne]
  nth_rewrite 1 [hsplit]
  rw [selection_append, List.self_eq_append_right]

theorem grep_prints_two : grep [97] (fun _ => 3) (List.replicate BUFSIZE 0) [97, 98, 10, 99, 10] =
    selection [97] (lines NL [97, 98, 10, 99, 10]) :=
  (grep_prints_iff List.length_replicate _ _ _).mpr (by decide)

theorem grep_last_line : (List.replicate BUFSIZE (0 : UInt8)).length = BUFSIZE ∧
    selection [97] (lines NL [97]) = [97] ∧
    grep [97] (fun _ => 1) (List.replicate BUFSIZE 0) [97] = [] := by
  refine ⟨List.length_replicate, ?_, ?_⟩
  · have hhere : matchhere [97] [97] = 1 := by
      rw [matchhere_one (by decide) (by decide) (by decide) (by decide), matchhere_nil]
      decide
    have hselected : Selected [97] [97] := by
      change matchText [97] [97] ≠ 0
      rw [matchText, if_neg (by decide), search, hhere]
      decide
    rw [show lines NL [97] = [[97]] by decide, selection,
      List.filter_cons_of_pos (by simpa using hselected)]
    rfl
  · rw [grep_out List.length_replicate]
    rfl

end OsProject.Grep
