import OsProject.Printf
import Mathlib.Data.List.GetD

/-! The two loops print the same pieces. -/

namespace OsProject.Printf

/-- The conversions of a format: an integer with its signedness, its base and whether it is `long`. -/
inductive Conv
  | int (sign : Bool) (base : Nat) (long : Bool)
  | ptr
  | chr
  | str
  | pct
  | unknown (c : UInt8)
  deriving DecidableEq

inductive Piece
  | lit (c : UInt8)
  | conv (k : Conv)
  deriving DecidableEq

/-- The conversion behind a `%`, and how many characters it has beyond the first one. -/
def classify (c0 c1 c2 : UInt8) : Conv × Nat :=
  if c0 = ch 'd' then (.int true 10 false, 0)
  else if c0 = ch 'l' ∧ c1 = ch 'd' then (.int true 10 true, 1)
  else if c0 = ch 'l' ∧ c1 = ch 'l' ∧ c2 = ch 'd' then (.int true 10 true, 2)
  else if c0 = ch 'u' then (.int false 10 false, 0)
  else if c0 = ch 'l' ∧ c1 = ch 'u' then (.int false 10 true, 1)
  else if c0 = ch 'l' ∧ c1 = ch 'l' ∧ c2 = ch 'u' then (.int false 10 true, 2)
  else if c0 = ch 'x' then (.int false 16 false, 0)
  else if c0 = ch 'l' ∧ c1 = ch 'x' then (.int false 16 true, 1)
  else if c0 = ch 'l' ∧ c1 = ch 'l' ∧ c2 = ch 'x' then (.int false 16 true, 2)
  else if c0 = ch 'p' then (.ptr, 0)
  else if c0 = ch 'c' then (.chr, 0)
  else if c0 = ch 's' then (.str, 0)
  else if c0 = ch '%' then (.pct, 0)
  else (.unknown c0, 0)

/-- The conversion at the start of a text, with the look-ahead of both loops. -/
def conversion (fmt : List UInt8) : Conv × Nat :=
  classify (fmt.getD 0 0) (fmt.getD 1 0) (if fmt.getD 1 0 ≠ 0 then fmt.getD 2 0 else 0)

/-- The pieces of a format up to its NUL. A `%` at the end is dropped. -/
def parse (fmt : List UInt8) : List Piece :=
  match fmt with
  | [] => []
  | cx :: fmt =>
    if cx = 0 then []
    else if cx ≠ ch '%' then .lit cx :: parse fmt
    else if fmt.getD 0 0 = 0 then []
    else .conv (conversion fmt).1 :: parse (fmt.drop (1 + (conversion fmt).2))
termination_by fmt.length
decreasing_by all_goals simp

def intArg (sign long : Bool) (a : Slot) : BitVec 64 :=
  if long then a else if sign then asInt a else asUint32 a

section

variable (text : Slot → Option (List UInt8)) (digits : List UInt8) (putc : Nat → List UInt8)

def convOut : Conv → List Slot → Printed
  | .int sign base long, ap =>
    (vaArg ap).map fun r => (decimalText digits base (value (intArg sign long r.1) sign), r.2)
  | .ptr, ap => (vaArg ap).map fun r => ([ch '0', ch 'x'] ++ ptrLoop digits 16 r.1, r.2)
  | .chr, ap => (vaArg ap).map fun r => (putc (asUint r.1), r.2)
  | .str, ap => vaString text ap
  | .pct, ap => some ([ch '%'], ap)
  | .unknown c, ap => some ([ch '%', c], ap)

def render : List Piece → List Slot → Printed
  | [], ap => some ([], ap)
  | .lit c :: ps, ap => (render ps ap).map fun rest => (c :: rest.1, rest.2)
  | .conv k :: ps, ap =>
    (convOut text digits putc k ap).bind fun r =>
      (render ps r.2).map fun rest => (r.1 ++ rest.1, rest.2)

end

theorem Kprintf.consputc_toNat (c : UInt8) : Kprintf.consputc c.toNat = [c] := by
  have hone := Kprintf.flatMap_consputc [c]
  rwa [List.flatMap_singleton] at hone

theorem Uprintf.putc_toNat (c : UInt8) : Uprintf.putc c.toNat = [c] := by
  rw [Uprintf.putc, UInt8.ofNat_toNat]

section

variable (text : Slot → Option (List UInt8))

def turn {β : Type} (step : Nat → β) (digits : List UInt8) (putc : Nat → List UInt8) (ap : List Slot)
    (q : Conv × Nat) : Option (List UInt8 × List Slot × β) :=
  (convOut text digits putc q.1 ap).map fun r => (r.1, r.2, step q.2)

theorem Kprintf.convert_eq {c0 : UInt8} (h0 : c0 ≠ 0) (c1 c2 : UInt8) (ap : List Slot) :
    convert text c0 c1 c2 ap = turn text some digits consputc ap (classify c0 c1 c2) := by
  have hdec : ∀ xx sign, printint xx 10 sign = some (decimalText digits 10 (value xx sign)) :=
    fun xx sign => printint_eq xx (by decide) sign
  have hhex : ∀ xx sign, printint xx 16 sign = some (decimalText digits 16 (value xx sign)) :=
    fun xx sign => printint_eq xx (by decide) sign
  rw [convert, classify, if_neg h0]
  simp only [apply_ite (turn text some digits consputc ap), hdec, hhex]
  -- the conditions are the same on both sides
  repeat' refine ite_congr rfl (fun _ => ?_) fun _ => ?_
  all_goals cases ap
  all_goals simp [turn, convOut, vaArg, intArg, printptr, consputc_toNat, Option.map_eq_bind]

theorem Uprintf.convert_eq (c0 c1 c2 : UInt8) (ap : List Slot) :
    convert text c0 c1 c2 ap = turn text id digits putc ap (classify c0 c1 c2) := by
  have hdec : ∀ xx sign, printint xx 10 sign = some (decimalText digits 10 (value xx sign)) :=
    fun xx sign => printint_eq xx (by decide) sign
  have hhex : ∀ xx sign, printint xx 16 sign = some (decimalText digits 16 (value xx sign)) :=
    fun xx sign => printint_eq xx (by decide) sign
  rw [convert, classify]
  simp only [apply_ite (turn text id digits putc ap), hdec, hhex]
  repeat' refine ite_congr rfl (fun _ => ?_) fun _ => ?_
  all_goals cases ap
  all_goals simp [turn, convOut, vaArg, intArg, printptr, putc_toNat, Option.map_eq_bind]

theorem Kprintf.printf_eq (fmt : List UInt8) (ap : List Slot) :
    printf text fmt ap = render text digits consputc (parse fmt) ap := by
  rw [printf]
  fun_induction parse fmt generalizing ap with
  | case1 => rw [loop, render]
  | case2 fmt => rw [loop, if_pos rfl, render]
  | case3 cx fmt h0 hlit ih =>
    rw [loop, if_neg h0, if_pos hlit, ih ap, render, consputc_toNat]
    rfl
  | case4 cx fmt h0 hpct hnul =>
    rw [loop, if_neg h0, if_neg hpct, hnul]
    rfl
  | case5 cx fmt h0 hpct hc0 ih =>
    rw [loop, if_neg h0, if_neg hpct]
    dsimp only
    rw [if_pos hc0, convert_eq text hc0, ← conversion, render, turn, Option.bind_map]
    refine congrArg _ (funext fun r => ?_)
    rw [Function.comp_apply, Option.elim_some, ih r.2]

theorem Uprintf.loop_state {fmt : List UInt8} (h0 : fmt.getD 0 0 ≠ 0) (ap : List Slot) :
    loop text true fmt ap =
      (convert text (fmt.getD 0 0) (fmt.getD 1 0)
        (if fmt.getD 1 0 ≠ 0 then fmt.getD 2 0 else 0) ap).bind fun r =>
        (loop text false (fmt.drop (1 + r.2.2)) r.2.1).map fun rest => (r.1 ++ rest.1, rest.2) := by
  cases fmt with
  | nil => exact absurd rfl h0
  | cons c0 fmt =>
    rw [List.getD_cons_zero] at h0
    rw [loop, if_neg h0, if_neg (by decide)]
    dsimp only
    simp only [if_pos h0, List.getD_cons_zero, List.getD_cons_succ, Nat.add_comm 1, List.drop_succ_cons]

theorem Uprintf.loop_state_nul {fmt : List UInt8} (h0 : fmt.getD 0 0 = 0) (ap : List Slot) :
    loop text true fmt ap = some ([], ap) := by
  cases fmt with
  | nil => rw [loop]
  | cons c0 fmt =>
    rw [List.getD_cons_zero] at h0
    rw [loop, if_pos h0]

theorem Uprintf.vprintf_eq (fmt : List UInt8) (ap : List Slot) :
    vprintf text fmt ap = render text digits putc (parse fmt) ap := by
  rw [vprintf]
  fun_induction parse fmt generalizing ap with
  | case1 => rw [loop, render]
  | case2 fmt => rw [loop, if_pos rfl, render]
  | case3 cx fmt h0 hlit ih =>
    rw [loop, if_neg h0, if_pos rfl, if_neg hlit, ih ap, render, putc_toNat]
    rfl
  | case4 cx fmt h0 hpct hnul =>
    rw [loop, if_neg h0, if_pos rfl, if_pos (not_not.mp hpct), loop_state_nul text hnul, render]
  | case5 cx fmt h0 hpct hc0 ih =>
    rw [loop, if_neg h0, if_pos rfl, if_pos (not_not.mp hpct), loop_state text hc0, convert_eq,
      ← conversion, render, turn, Option.bind_map]
    refine congrArg _ (funext fun r => ?_)
    rw [Function.comp_apply, id, ih r.2]

end

def HexCase (k u : UInt8) : Prop := k = u ∨ 97 ≤ k ∧ k ≤ 102 ∧ u = k - 32

instance (k u : UInt8) : Decidable (HexCase k u) := inferInstanceAs (Decidable (_ ∨ _))

/-- What the kernel prints and what the user library prints, up to the case of hexadecimal digits. -/
abbrev SameText (k u : List UInt8) : Prop := List.Forall₂ HexCase k u

theorem SameText.refl (s : List UInt8) : SameText s s :=
  List.forall₂_same.mpr fun _ _ => .inl rfl

def Conv.takes : Conv → Bool
  | .int _ _ _ | .ptr | .chr | .str => true
  | .pct | .unknown _ => false

/-- The conversions that take an argument, each with the argument it gets. -/
def arguments : List Piece → List Slot → List (Conv × Option Slot)
  | [], _ => []
  | .lit _ :: ps, ap => arguments ps ap
  | .conv k :: ps, ap =>
    if k.takes then (k, ap.head?) :: arguments ps ap.tail else arguments ps ap

/-- There is an argument, and a string for `%s`. -/
def Supplied (text : Slot → Option (List UInt8)) (q : Conv × Option Slot) : Prop :=
  ∃ a, q.2 = some a ∧ (q.1 = .str → a = 0 ∨ (text a).isSome)

def Matching (text : Slot → Option (List UInt8)) (fmt : List UInt8) (ap : List Slot) : Prop :=
  ∀ q ∈ arguments (parse fmt) ap, Supplied text q

def isBackspace (q : Conv × Option Slot) : Bool :=
  q.1 = .chr && q.2.any fun a => asUint a = Kprintf.BACKSPACE

theorem hexCase_digits (d : Nat) :
    HexCase (Kprintf.digits.getD d 0) (Uprintf.digits.getD d 0) := by
  rcases Nat.lt_or_ge d 16 with h | h
  · revert d
    decide
  · rw [List.getD_eq_default _ _ h, List.getD_eq_default _ _ h]
    exact .inl rfl

theorem sameText_decimalText (base : Nat) (v : Int) :
    SameText (decimalText Kprintf.digits base v) (decimalText Uprintf.digits base v) :=
  List.rel_append (SameText.refl _) (forall₂_numeral hexCase_digits base _)

theorem sameText_ptrLoop (n : Nat) (x : BitVec 64) :
    SameText (ptrLoop Kprintf.digits n x) (ptrLoop Uprintf.digits n x) := by
  induction n generalizing x with
  | zero => exact .nil
  | succ n ih => exact .cons (hexCase_digits _) (ih _)

section

variable {text : Slot → Option (List UInt8)}

/-- The results of both versions side by side: the arguments left are the same, the kernel prints two
bytes more for every `BACKSPACE` and the same text when there is none. -/
def Beside (n : Nat) (rest : List Slot) (k u : Printed) : Prop :=
  ∃ ko uo, k = some (ko, rest) ∧ u = some (uo, rest) ∧ ko.length = uo.length + 2 * n ∧
    (n = 0 → SameText ko uo)

theorem Beside.same {k u : List UInt8} (h : SameText k u) (rest : List Slot) :
    Beside 0 rest (some (k, rest)) (some (u, rest)) :=
  ⟨k, u, rfl, rfl, h.length_eq, fun _ => h⟩

theorem convOut_same (text : Slot → Option (List UInt8)) {k : Conv} (hk : k.takes = false)
    (ap : List Slot) :
    Beside 0 ap (convOut text Kprintf.digits Kprintf.consputc k ap)
      (convOut text Uprintf.digits Uprintf.putc k ap) := by
  cases k with
  | pct | unknown => exact .same (SameText.refl _) ap
  | int | ptr | chr | str => simp [Conv.takes] at hk

theorem convOut_beside {k : Conv} {a : Slot} (ha : Supplied text (k, some a)) (hk : k.takes = true)
    (ap : List Slot) :
    Beside (if isBackspace (k, some a) then 1 else 0) ap
      (convOut text Kprintf.digits Kprintf.consputc k (a :: ap))
      (convOut text Uprintf.digits Uprintf.putc k (a :: ap)) := by
  cases k with
  | int sign base long => exact .same (sameText_decimalText base _) ap
  | ptr => exact .same (List.rel_append (SameText.refl _) (sameText_ptrLoop 16 a)) ap
  | chr =>
    by_cases hback : asUint a = Kprintf.BACKSPACE
    · have hone : isBackspace (.chr, some a) = true := by simp [isBackspace, hback]
      rw [hone]
      refine ⟨[8, 32, 8], _, ?_, rfl, rfl, fun h => absurd h (by decide)⟩
      rw [convOut, vaArg, Option.map_some, Kprintf.consputc, if_pos hback]
    · have hnone : isBackspace (.chr, some a) = false := by simp [isBackspace, hback]
      rw [hnone, convOut, vaArg, Option.map_some, Kprintf.consputc, if_neg hback]
      exact .same (SameText.refl _) ap
  | str =>
    obtain ⟨b, hb, hstr⟩ := ha
    rw [← Option.some_inj.mp hb] at hstr
    obtain ⟨s, hs⟩ : ∃ s, vaString text (a :: ap) = some (s, ap) := by
      by_cases hnull : a = 0
      · exact ⟨nullText, by rw [vaString, vaArg, Option.bind_some, if_pos hnull]⟩
      · obtain ⟨s, hs⟩ := Option.isSome_iff_exists.mp ((hstr rfl).resolve_left hnull)
        exact ⟨s, by rw [vaString, vaArg, Option.bind_some, if_neg hnull, hs, Option.map_some]⟩
    rw [convOut, convOut, hs]
    exact .same (SameText.refl s) ap
  | pct | unknown => simp [Conv.takes] at hk

theorem Beside.append {m n : Nat} {ap rest : List Slot} {k u : Printed} (h : Beside m ap k u)
    {f g : List Slot → Printed} (hrest : Beside n rest (f ap) (g ap)) :
    Beside (m + n) rest (k.bind fun r => (f r.2).map fun s => (r.1 ++ s.1, s.2))
      (u.bind fun r => (g r.2).map fun s => (r.1 ++ s.1, s.2)) := by
  obtain ⟨ko, uo, rfl, rfl, hlen, hsame⟩ := h
  obtain ⟨ko', uo', hk, hu, hlen', hsame'⟩ := hrest
  rw [Option.bind_some, Option.bind_some, hk, hu, Option.map_some, Option.map_some]
  refine ⟨ko ++ ko', uo ++ uo', rfl, rfl, ?_, ?_⟩
  · rw [List.length_append, List.length_append, hlen, hlen']
    omega
  · intro hzero
    exact List.rel_append (hsame (by omega)) (hsame' (by omega))

theorem render_beside (ps : List Piece) (ap : List Slot)
    (h : ∀ q ∈ arguments ps ap, Supplied text q) :
    ∃ rest, Beside ((arguments ps ap).countP isBackspace) rest
      (render text Kprintf.digits Kprintf.consputc ps ap)
      (render text Uprintf.digits Uprintf.putc ps ap) := by
  induction ps generalizing ap with
  | nil => exact ⟨ap, .same .nil ap⟩
  | cons p ps ih =>
    cases p with
    | lit c =>
      obtain ⟨rest, ko, uo, hk, hu, hlen, hsame⟩ := ih ap h
      refine ⟨rest, c :: ko, c :: uo, ?_, ?_, ?_, ?_⟩
      · rw [render, hk, Option.map_some]
      · rw [render, hu, Option.map_some]
      · rw [List.length_cons, List.length_cons, hlen, arguments]
        omega
      · exact fun hzero => .cons (.inl rfl) (hsame hzero)
    | conv k =>
      rw [arguments] at h ⊢
      rw [render, render]
      cases hk : k.takes with
      | false =>
        rw [hk, if_neg (by simp)] at h
        obtain ⟨rest, hrest⟩ := ih ap h
        refine ⟨rest, ?_⟩
        have hboth := (convOut_same text hk ap).append hrest
        rwa [Nat.zero_add] at hboth
      | true =>
        rw [hk, if_pos rfl] at h
        obtain ⟨a, ha, hstr⟩ := h _ List.mem_cons_self
        obtain ⟨ap, rfl⟩ := List.head?_eq_some_iff.mp ha
        obtain ⟨rest, hrest⟩ := ih ap fun q hq => h q (List.mem_cons_of_mem _ hq)
        refine ⟨rest, ?_⟩
        have hboth := (convOut_beside ⟨a, rfl, hstr⟩ hk ap).append hrest
        rwa [if_pos rfl, List.head?_cons, List.countP_cons, Nat.add_comm]

end

/-- For matching arguments both print the same text and consume the same arguments exactly when no
`%c` gets the kernel's `BACKSPACE`, which `consputc` turns into three bytes. -/
theorem printf_agree_iff (text : Slot → Option (List UInt8)) (fmt : List UInt8) (ap : List Slot)
    (h : Matching text fmt ap) :
    (∃ k u rest, Kprintf.printf text fmt ap = some (k, rest) ∧
        Uprintf.vprintf text fmt ap = some (u, rest) ∧ SameText k u) ↔
      ∀ a, (.chr, some a) ∈ arguments (parse fmt) ap → asUint a ≠ Kprintf.BACKSPACE := by
  obtain ⟨rest, ko, uo, hk, hu, hlen, hsame⟩ := render_beside (parse fmt) ap h
  rw [Kprintf.printf_eq, Uprintf.vprintf_eq, hk, hu]
  have hcount : (arguments (parse fmt) ap).countP isBackspace = 0 ↔
      ∀ a, (.chr, some a) ∈ arguments (parse fmt) ap → asUint a ≠ Kprintf.BACKSPACE := by
    rw [List.countP_eq_zero]
    constructor
    · intro hnone a ha hback
      exact hnone _ ha (by simp [isBackspace, hback])
    · rintro hnone ⟨k, a⟩ hq hback
      simp only [isBackspace, Bool.and_eq_true, decide_eq_true_eq, Option.any_eq_true] at hback
      obtain ⟨rfl, a, rfl, ha⟩ := hback
      exact hnone a hq ha
  rw [← hcount]
  constructor
  · rintro ⟨k, u, rest', hk', hu', htext⟩
    have hklen := congrArg (fun r => r.1.length) (Option.some_inj.mp hk')
    have hulen := congrArg (fun r => r.1.length) (Option.some_inj.mp hu')
    have heq := htext.length_eq
    dsimp only at hklen hulen
    omega
  · intro hzero
    exact ⟨ko, uo, rest, rfl, rfl, hsame hzero⟩

theorem printf_agree_letter :
    ∃ k u rest, Kprintf.printf (fun _ => none) ("%llx-%lq%c%".toList.map ch) [0xab, 65] =
        some (k, rest) ∧
      Uprintf.vprintf (fun _ => none) ("%llx-%lq%c%".toList.map ch) [0xab, 65] = some (u, rest) ∧
      SameText k u := by
  have hargs : arguments (parse ("%llx-%lq%c%".toList.map ch)) [0xab, 65] =
      [(.int false 16 true, some 0xab), (.chr, some 65)] := by
    simp [parse, conversion, classify, ch, arguments, Conv.takes]
  refine (printf_agree_iff _ _ _ ?_).mpr ?_
  · rw [Matching, hargs]
    simp [Supplied]
  · rw [hargs]
    simp [asUint, Kprintf.BACKSPACE]

theorem printf_differ_backspace :
    Matching (fun _ => none) [ch '%', ch 'c'] [0x100] ∧
      Kprintf.printf (fun _ => none) [ch '%', ch 'c'] [0x100] = some ([8, 32, 8], []) ∧
      Uprintf.vprintf (fun _ => none) [ch '%', ch 'c'] [0x100] = some ([0], []) ∧
      ¬SameText [8, 32, 8] [0] := by
  have hparse : parse [ch '%', ch 'c'] = [.conv .chr] := by
    simp [parse, conversion, classify, ch]
  refine ⟨?_, ?_, ?_, ?_⟩
  · rw [Matching, hparse]
    simp [arguments, Conv.takes, Supplied]
  · rw [Kprintf.printf_eq, hparse]
    rfl
  · rw [Uprintf.vprintf_eq, hparse]
    rfl
  · intro h
    exact absurd h.length_eq (by decide)

end OsProject.Printf
