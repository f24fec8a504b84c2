import OsProject.Numeral
import Mathlib.Tactic.IntervalCases
import Mathlib.Tactic.NormNum

/-! `printint` of the kernel and of the user library. A run that would write outside of `buf` is
`none`. -/

namespace OsProject.Printf

/-- `char buf[20]`. -/
def BUFSZ : Nat := 20

def MINUS : UInt8 := 45
def ZERO : UInt8 := 48

/-- `do { buf[i++] = digits[x % base]; } while((x /= base) != 0);`, with `room` bytes left in `buf`.
The result is what the loop writes, in this order. -/
def digitLoop (digits : List UInt8) (base : Nat) : Nat → Nat → Option (List UInt8)
  | 0, _ => none
  | room + 1, x =>
    let c := digits.getD (x % base) 0
    if x / base ≠ 0 then (digitLoop digits base room (x / base)).map (c :: ·) else some [c]

/-- `if(neg) buf[i++] = '-';` -/
def signLoop (neg : Bool) (buf : List UInt8) : Option (List UInt8) :=
  if neg then if buf.length < BUFSZ then some (buf ++ [MINUS]) else none else some buf

namespace Kprintf

def digits : List UInt8 :=
  [48, 49, 50, 51, 52, 53, 54, 55, 56, 57, 97, 98, 99, 100, 101, 102]

def BACKSPACE : Nat := 0x100

/-- `consputc` of an `int` that is not negative: what the UART gets. -/
def consputc (c : Nat) : List UInt8 := if c = BACKSPACE then [8, 32, 8] else [.ofNat c]

/-- What `printint` leaves in `buf`. The flag `sign` is overwritten in the test. -/
def printintBuf (xx : BitVec 64) (base : Nat) (sign : Bool) : Option (List UInt8) :=
  let sign := sign && decide (xx.toInt < 0)
  let x := if sign then -xx else xx
  (digitLoop digits base BUFSZ x.toNat).bind (signLoop sign)

/-- `while(--i >= 0) consputc(buf[i]);` -/
def printint (xx : BitVec 64) (base : Nat) (sign : Bool) : Option (List UInt8) :=
  (printintBuf xx base sign).map fun buf => buf.reverse.flatMap fun c => consputc c.toNat

end Kprintf

namespace Uprintf

def digits : List UInt8 :=
  [48, 49, 50, 51, 52, 53, 54, 55, 56, 57, 65, 66, 67, 68, 69, 70]

/-- `putc` converts its argument to `char`. -/
def putc (c : Nat) : List UInt8 := [.ofNat c]

def printintBuf (xx : BitVec 64) (base : Nat) (sgn : Bool) : Option (List UInt8) :=
  let (neg, x) := if sgn ∧ xx.toInt < 0 then (true, -xx) else (false, xx)
  (digitLoop digits base BUFSZ x.toNat).bind (signLoop neg)

def printint (xx : BitVec 64) (base : Nat) (sgn : Bool) : Option (List UInt8) :=
  (printintBuf xx base sgn).map fun buf => buf.reverse.flatMap fun c => putc c.toNat

end Uprintf

theorem digitLoop_eq (digits : List UInt8) {base : Nat} (hb : 1 < base) {room x : Nat}
    (hroom : 0 < room) (hx : x < base ^ room) :
    digitLoop digits base room x = some (numeralRev (digits.getD · 0) base x) := by
  induction room generalizing x with
  | zero => omega
  | succ room ih =>
    rw [digitLoop]
    rcases Nat.lt_or_ge x base with hlt | hge
    · rw [Nat.div_eq_of_lt hlt, if_neg (by simp), Nat.mod_eq_of_lt hlt, numeralRev_of_lt _ hlt]
    · have hdiv : 0 < x / base := Nat.div_pos hge (by omega)
      have hrest : x / base < base ^ room := by
        rwa [Nat.div_lt_iff_lt_mul (by omega), ← Nat.pow_succ]
      have hpos : 0 < room := by
        rcases Nat.eq_zero_or_pos room with rfl | hpos
        · rw [Nat.pow_zero] at hrest
          omega
        · exact hpos
      rw [if_pos (by omega), ih hpos hrest, Option.map_some, numeralRev_step hb _ hge]

/-- The number that `printint` is asked to print. -/
def value (xx : BitVec 64) (sign : Bool) : Int := if sign then xx.toInt else xx.toNat

def decimalText (digits : List UInt8) (base : Nat) (v : Int) : List UInt8 :=
  (if v < 0 then [MINUS] else []) ++ numeral (digits.getD · 0) base v.natAbs

theorem signLoop_digitLoop (digits : List UInt8) {base : Nat} (hb : 10 ≤ base) {v : Int}
    (hlo : -2 ^ 63 ≤ v) (hhi : v < 2 ^ 64) :
    (digitLoop digits base BUFSZ v.natAbs).bind (signLoop (decide (v < 0))) =
        some (decimalText digits base v).reverse ∧
      (decimalText digits base v).length ≤ BUFSZ := by
  have hpow : ∀ k, 10 ^ k ≤ base ^ k := fun k => Nat.pow_le_pow_left hb k
  have hfit : v.natAbs < base ^ BUFSZ := by
    have h20 := hpow BUFSZ
    rw [BUFSZ] at h20 ⊢
    omega
  rw [digitLoop_eq digits (by omega) (by decide) hfit, Option.bind_some, signLoop, decimalText]
  by_cases hneg : v < 0
  · have hshort : (numeral (digits.getD · 0) base v.natAbs).length ≤ 19 := by
      rw [length_numeral (by omega) _ (by decide)]
      have h19 := hpow 19
      omega
    rw [numeral, List.length_reverse] at hshort
    rw [decide_eq_true hneg, if_pos rfl, if_pos (by rw [BUFSZ]; omega), if_pos hneg, numeral]
    refine ⟨by simp, ?_⟩
    rw [List.length_append, List.length_reverse, List.length_singleton, BUFSZ]
    omega
  · rw [decide_eq_false hneg, if_neg (by simp), if_neg hneg, List.nil_append]
    refine ⟨by rw [numeral, List.reverse_reverse], ?_⟩
    rwa [length_numeral (by omega) _ (by decide)]

theorem toNat_neg_of_neg {xx : BitVec 64} (h : xx.toInt < 0) : (-xx).toNat = xx.toInt.natAbs := by
  rw [BitVec.toInt_eq_toNat_cond] at h ⊢
  rw [BitVec.toNat_neg]
  have hlt := xx.isLt
  split_ifs at h ⊢ <;> omega

theorem toNat_of_nonneg {xx : BitVec 64} (h : ¬xx.toInt < 0) : xx.toNat = xx.toInt.natAbs := by
  rw [BitVec.toInt_eq_toNat_cond] at h ⊢
  have hlt := xx.isLt
  split_ifs at h ⊢ <;> omega

theorem value_bounds (xx : BitVec 64) (sign : Bool) :
    -2 ^ 63 ≤ value xx sign ∧ value xx sign < 2 ^ 64 := by
  have hlt := xx.isLt
  have hle := BitVec.le_toInt xx
  have hint := BitVec.toInt_lt (x := xx)
  rw [value]
  split_ifs <;> omega

theorem sign_magnitude (xx : BitVec 64) (sign : Bool) :
    (sign && decide (xx.toInt < 0)) = decide (value xx sign < 0) ∧
      (if sign && decide (xx.toInt < 0) then -xx else xx).toNat = (value xx sign).natAbs := by
  cases sign with
  | false =>
    rw [value, if_neg (by simp), Bool.false_and, if_neg (by simp), decide_eq_false (by omega)]
    exact ⟨rfl, by omega⟩
  | true =>
    rw [value, if_pos rfl, Bool.true_and]
    refine ⟨rfl, ?_⟩
    by_cases hneg : xx.toInt < 0
    · rw [decide_eq_true hneg, if_pos rfl, toNat_neg_of_neg hneg]
    · rw [decide_eq_false hneg, if_neg (by simp), toNat_of_nonneg hneg]

theorem Kprintf.printintBuf_eq (xx : BitVec 64) {base : Nat} (hb : 10 ≤ base) (sign : Bool) :
    Kprintf.printintBuf xx base sign =
      some (decimalText Kprintf.digits base (value xx sign)).reverse := by
  have hbounds := value_bounds xx sign
  have hsign := sign_magnitude xx sign
  rw [← (signLoop_digitLoop Kprintf.digits hb hbounds.1 hbounds.2).1, ← hsign.1, ← hsign.2]
  rfl

theorem Uprintf.printintBuf_eq (xx : BitVec 64) {base : Nat} (hb : 10 ≤ base) (sgn : Bool) :
    Uprintf.printintBuf xx base sgn =
      some (decimalText Uprintf.digits base (value xx sgn)).reverse := by
  have hbounds := value_bounds xx sgn
  have hsign := sign_magnitude xx sgn
  rw [← (signLoop_digitLoop Uprintf.digits hb hbounds.1 hbounds.2).1, ← hsign.1, ← hsign.2,
    Uprintf.printintBuf]
  by_cases hneg : sgn = true ∧ xx.toInt < 0
  · simp [hneg]
  · have hfalse : (sgn && decide (xx.toInt < 0)) = false := by simpa using hneg
    rw [if_neg hneg, hfalse]
    rfl

theorem Kprintf.flatMap_consputc (s : List UInt8) :
    (s.flatMap fun c => Kprintf.consputc c.toNat) = s := by
  have hone : ∀ c : UInt8, Kprintf.consputc c.toNat = [c] := by
    intro c
    have hlt := c.toNat_lt
    rw [Kprintf.consputc, if_neg (by rw [Kprintf.BACKSPACE]; omega), UInt8.ofNat_toNat]
  rw [funext hone, List.flatMap_singleton']

theorem Uprintf.flatMap_putc (s : List UInt8) : (s.flatMap fun c => Uprintf.putc c.toNat) = s := by
  have hone : ∀ c : UInt8, Uprintf.putc c.toNat = [c] := by
    intro c
    rw [Uprintf.putc, UInt8.ofNat_toNat]
  rw [funext hone, List.flatMap_singleton']

theorem Kprintf.printint_eq (xx : BitVec 64) {base : Nat} (hb : 10 ≤ base) (sign : Bool) :
    Kprintf.printint xx base sign = some (decimalText Kprintf.digits base (value xx sign)) := by
  rw [Kprintf.printint, Kprintf.printintBuf_eq xx hb, Option.map_some, List.reverse_reverse,
    Kprintf.flatMap_consputc]

theorem Uprintf.printint_eq (xx : BitVec 64) {base : Nat} (hb : 10 ≤ base) (sgn : Bool) :
    Uprintf.printint xx base sgn = some (decimalText Uprintf.digits base (value xx sgn)) := by
  rw [Uprintf.printint, Uprintf.printintBuf_eq xx hb, Option.map_some, List.reverse_reverse,
    Uprintf.flatMap_putc]

def digitValue (digits : List UInt8) (base : Nat) (c : UInt8) : Option Nat :=
  (digits.take base).idxOf? c

/-- An optional `-` and the digits after it. -/
def readInt (digits : List UInt8) (base : Nat) (s : List UInt8) : Option Int :=
  if s.head? = some MINUS then
    (readNumeral (digitValue digits base) base s.tail).map fun x : Nat => -(x : Int)
  else (readNumeral (digitValue digits base) base s).map fun x : Nat => (x : Int)

/-- `s` is the canonical representation of `v`. -/
structure Canonical (digits : List UInt8) (base : Nat) (s : List UInt8) (v : Int) : Prop where
  reads : readInt digits base s = some v
  minus : s.head? = some MINUS ↔ v < 0
  leading : ∀ ds, s = ds ∨ s = MINUS :: ds → ds.head? = some ZERO → ds = [ZERO]

structure Table (digits : List UInt8) (base : Nat) : Prop where
  base_gt : 1 < base
  value : ∀ d < base, digitValue digits base (digits.getD d 0) = some d
  minus : ∀ d < base, digits.getD d 0 ≠ MINUS
  zero : ∀ d < base, digits.getD d 0 = ZERO ↔ d = 0

namespace Table

variable {digits : List UInt8} {base : Nat} (h : Table digits base)

include h

theorem head_ne_minus (x : Nat) : (numeral (digits.getD · 0) base x).head? ≠ some MINUS := by
  intro hhead
  obtain ⟨d, hd, heq⟩ := mem_numeral h.base_gt _ (List.mem_of_mem_head? hhead)
  exact h.minus d hd heq.symm

theorem leading {x : Nat} (hhead : (numeral (digits.getD · 0) base x).head? = some ZERO) :
    numeral (digits.getD · 0) base x = [ZERO] := by
  rcases Nat.eq_zero_or_pos x with rfl | hx
  · have hzero : digits.getD 0 0 = ZERO := (h.zero 0 (by have := h.base_gt; omega)).mpr rfl
    rw [numeral, numeralRev_zero h.base_gt, hzero, List.reverse_singleton]
  · obtain ⟨d, hpos, hd, heq⟩ := head_numeral h.base_gt (digits.getD · 0) hx
    rw [heq, Option.some_inj, h.zero d hd] at hhead
    omega

theorem canonical (v : Int) : Canonical digits base (decimalText digits base v) v := by
  have hread := readNumeral_numeral h.base_gt h.value v.natAbs
  rw [decimalText]
  by_cases hneg : v < 0
  · rw [if_pos hneg, List.singleton_append]
    refine ⟨?_, by simpa using hneg, ?_⟩
    · rw [readInt, List.head?_cons, if_pos rfl, List.tail_cons, hread, Option.map_some]
      congr 1
      omega
    · rintro ds (rfl | heq) hzero
      · rw [List.head?_cons, Option.some_inj] at hzero
        exact absurd hzero (by decide)
      · rw [← (List.cons_inj_right MINUS).mp heq] at hzero ⊢
        exact h.leading hzero
  · rw [if_neg hneg, List.nil_append]
    refine ⟨?_, iff_of_false (h.head_ne_minus _) hneg, ?_⟩
    · rw [readInt, if_neg (h.head_ne_minus _), hread, Option.map_some]
      congr 1
      omega
    · rintro ds (rfl | heq) hzero
      · exact h.leading hzero
      · exact absurd (by rw [heq]; rfl) (h.head_ne_minus v.natAbs)

end Table

theorem Kprintf.table {base : Nat} (hb : base = 10 ∨ base = 16) : Table Kprintf.digits base := by
  rcases hb with rfl | rfl
  · exact ⟨by decide, by decide, by decide, by decide⟩
  · exact ⟨by decide, by decide, by decide, by decide⟩

theorem Uprintf.table {base : Nat} (hb : base = 10 ∨ base = 16) : Table Uprintf.digits base := by
  rcases hb with rfl | rfl
  · exact ⟨by decide, by decide, by decide, by decide⟩
  · exact ⟨by decide, by decide, by decide, by decide⟩

/-- Neither version writes outside of `buf`, and what both print is the canonical representation of
the number, signed or not. -/
theorem printint_canonical (xx : BitVec 64) (base : Nat) (hb : base = 10 ∨ base = 16) (sign : Bool) :
    (∃ buf, Kprintf.printintBuf xx base sign = some buf ∧ buf.length ≤ BUFSZ ∧
      Kprintf.printint xx base sign = some buf.reverse ∧
      Canonical Kprintf.digits base buf.reverse (value xx sign)) ∧
    ∃ buf, Uprintf.printintBuf xx base sign = some buf ∧ buf.length ≤ BUFSZ ∧
      Uprintf.printint xx base sign = some buf.reverse ∧
      Canonical Uprintf.digits base buf.reverse (value xx sign) := by
  have hten : 10 ≤ base := by omega
  have hbounds := value_bounds xx sign
  constructor
  · refine ⟨_, Kprintf.printintBuf_eq xx hten sign, ?_, ?_, ?_⟩
    · rw [List.length_reverse]
      exact (signLoop_digitLoop Kprintf.digits hten hbounds.1 hbounds.2).2
    · rw [List.reverse_reverse, Kprintf.printint_eq xx hten]
    · rw [List.reverse_reverse]
      exact (Kprintf.table hb).canonical _
  · refine ⟨_, Uprintf.printintBuf_eq xx hten sign, ?_, ?_, ?_⟩
    · rw [List.length_reverse]
      exact (signLoop_digitLoop Uprintf.digits hten hbounds.1 hbounds.2).2
    · rw [List.reverse_reverse, Uprintf.printint_eq xx hten]
    · rw [List.reverse_reverse]
      exact (Uprintf.table hb).canonical _

theorem printint_canonical_min :
    (∃ buf, Kprintf.printintBuf (.intMin 64) 10 true = some buf ∧ buf.length ≤ BUFSZ ∧
      Kprintf.printint (.intMin 64) 10 true = some buf.reverse ∧
      Canonical Kprintf.digits 10 buf.reverse (value (.intMin 64) true)) ∧
    ∃ buf, Uprintf.printintBuf (.intMin 64) 10 true = some buf ∧ buf.length ≤ BUFSZ ∧
      Uprintf.printint (.intMin 64) 10 true = some buf.reverse ∧
      Canonical Uprintf.digits 10 buf.reverse (value (.intMin 64) true) :=
  printint_canonical (.intMin 64) 10 (.inl rfl) true

example : (Kprintf.printintBuf (.intMin 64) 10 true).map List.length = some BUFSZ := by decide

end OsProject.Printf
