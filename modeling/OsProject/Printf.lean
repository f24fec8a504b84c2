import OsProject.PrintInt

/-! `printf` of the kernel and `vprintf` of the user library: an index loop that skips ahead, and a
loop with a state. Both are compared with the pieces that a format consists of. -/

namespace OsProject.Printf

def ch (c : Char) : UInt8 := .ofNat c.toNat

abbrev Slot := BitVec 64

/-- The bytes printed and the arguments not consumed, or `none` where the format asks for an argument
or a string that is not there. -/
abbrev Printed := Option (List UInt8 × List Slot)

/-- `va_arg` reads the next slot. -/
def vaArg : List Slot → Option (Slot × List Slot)
  | [] => none
  | a :: ap => some (a, ap)

/-- A slot read as an `int`, and as a `uint32`, converted to `long long`. -/
def asInt (a : Slot) : BitVec 64 := (a.setWidth 32).signExtend 64
def asUint32 (a : Slot) : BitVec 64 := (a.setWidth 32).setWidth 64

/-- A slot read as a `uint`, for `%c`. -/
def asUint (a : Slot) : Nat := (a.setWidth 32).toNat

/-- `for(i = 0; i < 16; i++, x <<= 4)` with `digits[x >> 60]`. -/
def ptrLoop (digits : List UInt8) : Nat → BitVec 64 → List UInt8
  | 0, _ => []
  | n + 1, x => digits.getD (x >>> 60).toNat 0 :: ptrLoop digits n (x <<< 4)

/-- `"(null)"`. -/
def nullText : List UInt8 := "(null)".toList.map ch

section

-- the string that starts at an address, if there is one
variable (text : Slot → Option (List UInt8))

/-- `va_arg(ap, char*)` and the test for 0. -/
def vaString (ap : List Slot) : Option (List UInt8 × List Slot) :=
  (vaArg ap).bind fun r =>
    if r.1 = 0 then some (nullText, r.2) else (text r.1).map fun s => (s, r.2)

namespace Kprintf

def printptr (x : BitVec 64) : List UInt8 :=
  ([ch '0', ch 'x'] ++ ptrLoop digits 16 x).flatMap fun c => consputc c.toNat

/-- What the loop does at a `%`: the bytes, the arguments left, and what is added to `i`, or `none`
for `break`. -/
def convert (c0 c1 c2 : UInt8) (ap : List Slot) :
    Option (List UInt8 × List Slot × Option Nat) :=
  if c0 = ch 'd' then do
    let (a, ap) ← vaArg ap
    return (← printint (asInt a) 10 true, ap, some 0)
  else if c0 = ch 'l' ∧ c1 = ch 'd' then do
    let (a, ap) ← vaArg ap
    return (← printint a 10 true, ap, some 1)
  else if c0 = ch 'l' ∧ c1 = ch 'l' ∧ c2 = ch 'd' then do
    let (a, ap) ← vaArg ap
    return (← printint a 10 true, ap, some 2)
  else if c0 = ch 'u' then do
    let (a, ap) ← vaArg ap
    return (← printint (asUint32 a) 10 false, ap, some 0)
  else if c0 = ch 'l' ∧ c1 = ch 'u' then do
    let (a, ap) ← vaArg ap
    return (← printint a 10 false, ap, some 1)
  else if c0 = ch 'l' ∧ c1 = ch 'l' ∧ c2 = ch 'u' then do
    let (a, ap) ← vaArg ap
    return (← printint a 10 false, ap, some 2)
  else if c0 = ch 'x' then do
    let (a, ap) ← vaArg ap
    return (← printint (asUint32 a) 16 false, ap, some 0)
  else if c0 = ch 'l' ∧ c1 = ch 'x' then do
    let (a, ap) ← vaArg ap
    return (← printint a 16 false, ap, some 1)
  else if c0 = ch 'l' ∧ c1 = ch 'l' ∧ c2 = ch 'x' then do
    let (a, ap) ← vaArg ap
    return (← printint a 16 false, ap, some 2)
  else if c0 = ch 'p' then do
    let (a, ap) ← vaArg ap
    return (printptr a, ap, some 0)
  else if c0 = ch 'c' then do
    let (a, ap) ← vaArg ap
    return (consputc (asUint a), ap, some 0)
  else if c0 = ch 's' then do
    let (s, ap) ← vaString text ap
    return (s.flatMap fun c => consputc c.toNat, ap, some 0)
  else if c0 = ch '%' then some (consputc (ch '%').toNat, ap, some 0)
  else if c0 = 0 then some ([], ap, none)
  else some (consputc (ch '%').toNat ++ consputc c0.toNat, ap, some 0)

/-- The loop, with the format from `i` on. What is behind the list is the terminating NUL. -/
def loop (fmt : List UInt8) (ap : List Slot) : Printed :=
  match fmt with
  | [] => some ([], ap)
  | cx :: fmt =>
    if cx = 0 then some ([], ap)
    else if cx ≠ ch '%' then
      (loop fmt ap).map fun rest => (consputc cx.toNat ++ rest.1, rest.2)
    else
      let c0 := fmt.getD 0 0
      let c1 := if c0 ≠ 0 then fmt.getD 1 0 else 0
      let c2 := if c1 ≠ 0 then fmt.getD 2 0 else 0
      (convert text c0 c1 c2 ap).bind fun r =>
        r.2.2.elim (some (r.1, r.2.1)) fun k =>
          (loop (fmt.drop (1 + k)) r.2.1).map fun rest => (r.1 ++ rest.1, rest.2)
termination_by fmt.length
decreasing_by all_goals simp

/-- The lock around the loop is left out, and so is the result, which is always 0. -/
def printf (fmt : List UInt8) (ap : List Slot) : Printed := loop text fmt ap

end Kprintf

namespace Uprintf

def printptr (x : BitVec 64) : List UInt8 :=
  ([ch '0', ch 'x'] ++ ptrLoop digits 16 x).flatMap fun c => putc c.toNat

/-- What the loop does in the state `'%'`: the bytes, the arguments left, and what is added to `i`. -/
def convert (c0 c1 c2 : UInt8) (ap : List Slot) : Option (List UInt8 × List Slot × Nat) :=
  if c0 = ch 'd' then do
    let (a, ap) ← vaArg ap
    return (← printint (asInt a) 10 true, ap, 0)
  else if c0 = ch 'l' ∧ c1 = ch 'd' then do
    let (a, ap) ← vaArg ap
    return (← printint a 10 true, ap, 1)
  else if c0 = ch 'l' ∧ c1 = ch 'l' ∧ c2 = ch 'd' then do
    let (a, ap) ← vaArg ap
    return (← printint a 10 true, ap, 2)
  else if c0 = ch 'u' then do
    let (a, ap) ← vaArg ap
    return (← printint (asUint32 a) 10 false, ap, 0)
  else if c0 = ch 'l' ∧ c1 = ch 'u' then do
    let (a, ap) ← vaArg ap
    return (← printint a 10 false, ap, 1)
  else if c0 = ch 'l' ∧ c1 = ch 'l' ∧ c2 = ch 'u' then do
    let (a, ap) ← vaArg ap
    return (← printint a 10 false, ap, 2)
  else if c0 = ch 'x' then do
    let (a, ap) ← vaArg ap
    return (← printint (asUint32 a) 16 false, ap, 0)
  else if c0 = ch 'l' ∧ c1 = ch 'x' then do
    let (a, ap) ← vaArg ap
    return (← printint a 16 false, ap, 1)
  else if c0 = ch 'l' ∧ c1 = ch 'l' ∧ c2 = ch 'x' then do
    let (a, ap) ← vaArg ap
    return (← printint a 16 false, ap, 2)
  else if c0 = ch 'p' then do
    let (a, ap) ← vaArg ap
    return (printptr a, ap, 0)
  else if c0 = ch 'c' then do
    let (a, ap) ← vaArg ap
    return (putc (asUint a), ap, 0)
  else if c0 = ch 's' then do
    let (s, ap) ← vaString text ap
    return (s.flatMap fun c => putc c.toNat, ap, 0)
  else if c0 = ch '%' then some (putc (ch '%').toNat, ap, 0)
  else some (putc (ch '%').toNat ++ putc c0.toNat, ap, 0)

/-- The loop, with the format from `i` on; the flag says that `state` is `'%'`. -/
def loop (state : Bool) (fmt : List UInt8) (ap : List Slot) : Printed :=
  match fmt with
  | [] => some ([], ap)
  | c0 :: fmt =>
    if c0 = 0 then some ([], ap)
    else if state = false then
      if c0 = ch '%' then loop true fmt ap
      else (loop false fmt ap).map fun rest => (putc c0.toNat ++ rest.1, rest.2)
    else
      let c1 := if c0 ≠ 0 then fmt.getD 0 0 else 0
      let c2 := if c1 ≠ 0 then fmt.getD 1 0 else 0
      (convert text c0 c1 c2 ap).bind fun r =>
        (loop false (fmt.drop r.2.2) r.2.1).map fun rest => (r.1 ++ rest.1, rest.2)
termination_by fmt.length
decreasing_by all_goals simp

def vprintf (fmt : List UInt8) (ap : List Slot) : Printed := loop text false fmt ap

end Uprintf

end

end OsProject.Printf
