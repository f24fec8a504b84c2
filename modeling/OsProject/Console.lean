import OsProject.ByteField
import OsProject.Circular
import OsProject.Runs

/-! The console of `console.c`: the input interrupt, and reads that may sleep between two
interrupts. A line editor on lists says what the input means. -/

namespace OsProject.Console

def INPUT_BUF_SIZE : Nat := 128

/-- `C(x)`, the control character of a letter. -/
def control (x : Char) : UInt8 := x.toNat.toUInt8 - 64

def newline : UInt8 := 10

def eof : UInt8 := control 'D'

/-- `uart` is what `consputc` has sent. -/
structure Cons where
  buf : Buffer := fun _ => 0
  r : UInt32 := 0
  w : UInt32 := 0
  e : UInt32 := 0
  uart : List UInt8 := []

namespace Cons

variable (s : Cons)

def consputc (c : UInt8) : Cons := { s with uart := s.uart ++ [c] }

/-- `cons.e--` and `consputc(BACKSPACE)`. -/
def erase : Cons := { s with e := s.e - 1, uart := s.uart ++ [8, 32, 8] }

/-- The loop of `C('U')`, for at most as many passes as there are characters after `cons.w`. -/
def killLine : Nat → Cons → Cons
  | 0, s => s
  | k + 1, s =>
    if s.e ≠ s.w ∧ s.buf ((s.e - 1).toNat % INPUT_BUF_SIZE) ≠ newline then killLine k s.erase else s

def store (c : UInt8) : Cons :=
  { s.consputc c with
    buf := Function.update s.buf (s.e.toNat % INPUT_BUF_SIZE) c
    e := s.e + 1 }

/-- The handler of one input character. `procdump` prints and changes nothing here. -/
def consoleintr (c : UInt8) : Cons :=
  if c = control 'P' then s
  else if c = control 'U' then killLine (s.e - s.w).toNat s
  else if c = control 'H' ∨ c = 127 then if s.e ≠ s.w then s.erase else s
  else if c ≠ 0 ∧ (s.e - s.r).toNat < INPUT_BUF_SIZE then
    let c := if c = 13 then newline else c
    let s := s.store c
    if c = newline ∨ c = eof ∨ (s.e - s.r).toNat = INPUT_BUF_SIZE then { s with w := s.e } else s
  else s

def front : UInt8 := s.buf (s.r.toNat % INPUT_BUF_SIZE)

end Cons

/-- A read in progress: what it was asked for, what is left of that, and the bytes at `dst`. A
negative `n` does not enter the loop, as 0 does not. -/
structure Reader where
  target : Nat
  n : Nat
  got : List UInt8 := []
  deriving DecidableEq, Repr

inductive Turn
  | sleeps (rd : Reader)
  | returns (ret : Int) (got : List UInt8)
  deriving DecidableEq, Repr

/-- The loop of `consoleread` until it sleeps or returns. `copyout i` tells whether the byte for
`dst + i` can be stored. -/
def readLoop (killed : Bool) (copyout : Nat → Bool) (target : Nat) :
    Nat → List UInt8 → Cons → Turn × Cons
  | 0, got, s => (.returns target got, s)
  | n + 1, got, s =>
    if s.r = s.w then
      if killed then (.returns (-1) got, s) else (.sleeps ⟨target, n + 1, got⟩, s)
    else
      let c := s.front
      let s' := { s with r := s.r + 1 }
      if c = eof then
        -- a ^D behind some bytes is put back for the next read
        (.returns (target - (n + 1)) got, if n + 1 < target then { s' with r := s'.r - 1 } else s')
      else if copyout got.length = false then (.returns (target - (n + 1)) got, s')
      else if c = newline then (.returns (target - n) (got ++ [c]), s')
      else readLoop killed copyout target n (got ++ [c]) s'

/-- A read that has returned: its size, its return value and the bytes at `dst`. -/
structure Read where
  n : Nat
  ret : Int
  bytes : List UInt8
  deriving DecidableEq, Repr

/-- The editor of the line discipline. Every character given to the console has a number, and
`taken` counts the committed characters that reads have passed. -/
structure Editor where
  typed : Nat := 0
  erased : List (Nat × UInt8) := []
  committed : List (Nat × UInt8) := []
  line : List (Nat × UInt8) := []
  taken : Nat := 0

namespace Editor

def unread (E : Editor) : List (Nat × UInt8) := E.committed.drop E.taken

/-- The character `c` is added to the line; a newline, a ^D or a full buffer commits it. -/
def add (E : Editor) (c : UInt8) : Editor :=
  let line := E.line ++ [(E.typed, c)]
  if c = newline ∨ c = eof ∨ E.unread.length + line.length = INPUT_BUF_SIZE then
    { E with typed := E.typed + 1, committed := E.committed ++ line, line := [] }
  else { E with typed := E.typed + 1, line := line }

def input (E : Editor) (c : UInt8) : Editor :=
  if c = control 'P' then { E with typed := E.typed + 1 }
  else if c = control 'U' then
    { E with typed := E.typed + 1, erased := E.erased ++ E.line, line := [] }
  else if c = control 'H' ∨ c = 127 then
    { E with
      typed := E.typed + 1
      erased := E.erased ++ E.line.getLast?.toList
      line := E.line.dropLast }
  else if c ≠ 0 ∧ E.unread.length + E.line.length < INPUT_BUF_SIZE then
    E.add (if c = 13 then newline else c)
  else { E with typed := E.typed + 1 }

end Editor

/-- The console with the read in progress and the reads that have returned. The editor is run
beside it on the same characters. -/
structure System where
  cons : Cons := {}
  reader : Option Reader := none
  reads : List Read := []
  editor : Editor := {}

/-- A character arrives, a read begins, or the sleeping read goes on. Whether the process has been
killed and which bytes can be stored at `dst` comes with the event. -/
inductive Event
  | consoleintr (c : UInt8)
  | consoleread (n : Int) (killed : Bool) (copyout : Nat → Bool)
  | resume (killed : Bool) (copyout : Nat → Bool)

def System.turn (s : System) (killed : Bool) (copyout : Nat → Bool) (rd : Reader) : System :=
  let (t, cons) := readLoop killed copyout rd.target rd.n rd.got s.cons
  let editor := { s.editor with taken := s.editor.taken + (cons.r - s.cons.r).toNat }
  match t with
  | .sleeps rd => { s with cons := cons, reader := some rd, editor := editor }
  | .returns ret got =>
    { cons := cons, reader := none, reads := s.reads ++ [⟨rd.target, ret, got⟩], editor := editor }

/-- The calls of `consoleread` come one after the other. -/
def consoleStep (s : System) : Event → System
  | .consoleintr c => { s with cons := s.cons.consoleintr c, editor := s.editor.input c }
  | .consoleread n killed copyout =>
    match s.reader with
    | none => s.turn killed copyout ⟨n.toNat, n.toNat, []⟩
    | some _ => s
  | .resume killed copyout =>
    match s.reader with
    | none => s
    | some rd => s.turn killed copyout rd

end OsProject.Console
