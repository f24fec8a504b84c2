import OsProject.FileCalls
import OsProject.Hoare

/-! The parser of `sh.c`. Pointers into the line are positions, and memory for commands does not run
out. -/

namespace OsProject.Shell

structure Line where
  chars : List Char
  nonzero : '\x00' ∉ chars

namespace Line

variable (L : Line)

def es : Nat := L.chars.length

def char (s : Nat) : Char := L.chars.getD s '\x00'

end Line

def whitespace : List Char := [' ', '\t', '\r', '\n', '\x0b']

def symbols : List Char := ['<', '|', '>', '&', ';', '(', ')']

/-- What `gettoken` returns: 0, a symbol, `+` for `>>`, or `a` for a word. -/
inductive Token
  | nul
  | bar
  | lpar
  | rpar
  | semi
  | amp
  | lt
  | gt
  | gtgt
  | word
  deriving DecidableEq, Repr

/-- The panics of the parser, and `endless` for a loop that does not end. -/
inductive Panic
  | leftovers
  | missingFile
  | parseblock
  | missingParen
  | syntaxError
  | tooManyArgs
  | endless
  deriving DecidableEq, Repr

/-- The pointers `q` and `eq` to the first character of a word and behind the last. -/
structure Word where
  q : Nat
  eq : Nat
  deriving DecidableEq, Repr

def MAXARGS : Nat := 10

def O_RDONLY : BitVec 32 := 0x000

structure Redir where
  file : Word
  mode : BitVec 32
  fd : Nat
  deriving DecidableEq, Repr

inductive Cmd
  | exec (argv : List Word)
  | redir (cmd : Cmd) (r : Redir)
  | pipe (left right : Cmd)
  | list (left right : Cmd)
  | back (cmd : Cmd)
  deriving DecidableEq, Repr

/-- The cursor `*ps` is the state. -/
abbrev ParseM := StateT Nat (Except Panic)

section Lexer

variable (L : Line)

/-- `while(s < es && p(*s)) s++`, where `n` is `es - s`. -/
def scan (p : Char → Bool) : Nat → Nat → Nat
  | 0, s => s
  | n + 1, s => if p (L.char s) then scan p n (s + 1) else s

def skip (p : Char → Bool) (s : Nat) : Nat := scan L p (L.es - s) s

def isSpace (c : Char) : Bool := c ∈ whitespace

def isWordChar (c : Char) : Bool := c ∉ whitespace ∧ c ∉ symbols

/-- The token that begins at `q`, and where it ends. -/
def lexeme (q : Nat) : Token × Nat :=
  match L.char q with
  | '\x00' => (.nul, q)
  | '|' => (.bar, q + 1)
  | '(' => (.lpar, q + 1)
  | ')' => (.rpar, q + 1)
  | ';' => (.semi, q + 1)
  | '&' => (.amp, q + 1)
  | '<' => (.lt, q + 1)
  | '>' => if L.char (q + 1) = '>' then (.gtgt, q + 2) else (.gt, q + 1)
  | _ => (.word, skip L isWordChar q)

def gettoken : ParseM (Token × Word) := do
  let q := skip L isSpace (← get)
  let (tok, eq) := lexeme L q
  set (skip L isSpace eq)
  return (tok, ⟨q, eq⟩)

def peek (toks : List Char) : ParseM Bool := do
  let s := skip L isSpace (← get)
  set s
  return L.char s ≠ '\x00' ∧ L.char s ∈ toks

end Lexer

/-- The `switch` of `parseredirs`, which has no default. -/
def redirOf : Token → Word → Option Redir
  | .lt, file => some ⟨file, O_RDONLY, 0⟩
  | .gt, file => some ⟨file, O_WRONLY ||| O_CREATE ||| O_TRUNC, 1⟩
  | .gtgt, file => some ⟨file, O_WRONLY ||| O_CREATE, 1⟩
  | _, _ => none

def wrap (cmd : Cmd) (rs : List Redir) : Cmd := rs.foldl .redir cmd

section Parser

variable (L : Line)

/-- The redirections that are parsed are added to `rs`. -/
def parseredirs : Nat → List Redir → ParseM (List Redir)
  | 0, _ => throw .endless
  | n + 1, rs => do
    if ← peek L ['<', '>'] then
      let (tok, _) ← gettoken L
      let (next, file) ← gettoken L
      if next ≠ .word then throw .missingFile
      parseredirs n (rs ++ (redirOf tok file).toList)
    else return rs

/-- The loop of `parseexec`. Later words still go into the command that `rs` is wrapped around. -/
def parseargs : Nat → List Word → List Redir → ParseM (List Word × List Redir)
  | 0, _, _ => throw .endless
  | n + 1, argv, rs => do
    if ← peek L ['|', ')', '&', ';'] then return (argv, rs)
    let (tok, arg) ← gettoken L
    if tok = .nul then return (argv, rs)
    if tok ≠ .word then throw .syntaxError
    if MAXARGS ≤ argv.length + 1 then throw .tooManyArgs
    let rs ← parseredirs L n rs
    parseargs n (argv ++ [arg]) rs

/-- The loop of `parseline`. -/
def parseback : Nat → Cmd → ParseM Cmd
  | 0, _ => throw .endless
  | n + 1, cmd => do
    if ← peek L ['&'] then
      let _ ← gettoken L
      parseback n (.back cmd)
    else return cmd

mutual

def parseline : Nat → ParseM Cmd
  | 0 => throw .endless
  | n + 1 => do
    let cmd ← parsepipe n
    let cmd ← parseback L n cmd
    if ← peek L [';'] then
      let _ ← gettoken L
      return .list cmd (← parseline n)
    else return cmd

def parsepipe : Nat → ParseM Cmd
  | 0 => throw .endless
  | n + 1 => do
    let cmd ← parseexec n
    if ← peek L ['|'] then
      let _ ← gettoken L
      return .pipe cmd (← parsepipe n)
    else return cmd

def parseexec : Nat → ParseM Cmd
  | 0 => throw .endless
  | n + 1 => do
    if ← peek L ['('] then parseblock n
    else
      let rs ← parseredirs L n []
      let (argv, rs) ← parseargs L n [] rs
      return wrap (.exec argv) rs

def parseblock : Nat → ParseM Cmd
  | 0 => throw .endless
  | n + 1 => do
    if ← peek L ['('] then
      let _ ← gettoken L
      let cmd ← parseline n
      if ← peek L [')'] then
        let _ ← gettoken L
        return wrap cmd (← parseredirs L n [])
      else throw .missingParen
    else throw .parseblock

end

end Parser

def nulterminate : Cmd → (Nat → Char) → Nat → Char
  | .exec argv, buf => argv.foldl (fun buf word => Function.update buf word.eq '\x00') buf
  | .redir cmd r, buf => Function.update (nulterminate cmd buf) r.file.eq '\x00'
  | .pipe left right, buf | .list left right, buf => nulterminate right (nulterminate left buf)
  | .back cmd, buf => nulterminate cmd buf

/-- The command, and the line as `nulterminate` leaves it. -/
def parsecmd (L : Line) : Except Panic (Cmd × (Nat → Char)) := do
  let (cmd, s) ← parseline L (4 * L.es + 4) 0
  let (_, s) ← peek L [] s
  if s ≠ L.es then throw .leftovers
  return (cmd, nulterminate cmd L.char)

end OsProject.Shell
