import Mathlib.Data.List.TakeDrop
import Mathlib.Logic.Function.Basic

/-! The program `custom_cp` over files whose reads and writes may fail or be short at any call. -/

namespace OsProject.CustomCp

/-- `sizeof(buffer)`. -/
def BUFFER : Nat := 4096

/-- How one `read` ends: with an error, or with at most `k + 1` bytes. It returns 0 only at the end of
the file. -/
inductive ReadResult
  | error
  | upTo (k : Nat)
  deriving DecidableEq

/-- How one `write` ends: with an error, or with at most `k` bytes. -/
inductive WriteResult
  | error
  | upTo (k : Nat)
  deriving DecidableEq

inductive Message
  | usage
  | openingSource
  | creatingDestination
  | writing
  | copied
  deriving DecidableEq

/-- What the calls of one run return: the files that the two `open`s find, and how the `read` and the
`write` of each turn end. -/
structure Env where
  openRd : List UInt8 → Option Nat
  openWr : List UInt8 → Option Nat
  reads : Nat → ReadResult
  writes : Nat → WriteResult

/-- The contents of all files, and the offsets of the two descriptors. -/
structure State where
  content : Nat → List UInt8
  roff : Nat
  woff : Nat

/-- The bytes of a `read`, or `none` for -1. -/
def State.read (s : State) (src : Nat) : ReadResult → Option (List UInt8)
  | .error => none
  | .upTo k => some (((s.content src).drop s.roff).take (min (k + 1) BUFFER))

/-- The bytes of `data` that a `write` takes, or `none` for -1. -/
def accepted (data : List UInt8) : WriteResult → Option (List UInt8)
  | .error => none
  | .upTo k => some (data.take k)

/-- The file after `data` has been written at the offset, which is never beyond the end. -/
def State.write (s : State) (dst : Nat) (data : List UInt8) : State :=
  { s with
    content := Function.update s.content dst
      ((s.content dst).take s.woff ++ data ++ (s.content dst).drop (s.woff + data.length))
    woff := s.woff + data.length }

/-- The loop of `main`, from turn `i` on, and whether `write` has failed. -/
def copyLoop (env : Env) (src dst : Nat) : Nat → Nat → State → Option (State × Bool)
  | 0, _, _ => none
  | fuel + 1, i, s =>
    match s.read src (env.reads i) with
    | none => some (s, false)
    | some [] => some (s, false)
    | some buffer =>
      let s := { s with roff := s.roff + buffer.length }
      match accepted buffer (env.writes i) with
      | none => some (s, true)
      | some data =>
        if data.length = buffer.length then copyLoop env src dst fuel (i + 1) (s.write dst data)
        else some (s.write dst data, true)

/-- The exit status, the messages and the files afterwards. Both descriptors start at offset 0, and
`O_TRUNC` has emptied the destination before the first `read`. -/
def main (env : Env) (argv : List (List UInt8)) (content : Nat → List UInt8) :
    Option (Nat × List Message × (Nat → List UInt8)) :=
  match argv with
  | [_, source, destination] =>
    match env.openRd source with
    | none => some (1, [.openingSource], content)
    | some src =>
      match env.openWr destination with
      | none => some (1, [.creatingDestination], content)
      | some dst =>
        let s : State := ⟨Function.update content dst [], 0, 0⟩
        (copyLoop env src dst ((content src).length + 1) 0 s).map fun r =>
          (0, (if r.2 then [.writing] else []) ++ [.copied], r.1.content)
  | _ => some (1, [.usage], content)

/-- From turn `i` on, with `left` bytes to go, every byte is read and written: no call before the last
byte fails, and no `write` is short. -/
inductive Complete (env : Env) : Nat → Nat → Prop
  | done (i : Nat) : Complete env i 0
  | turn {i left k m : Nat} (hleft : 0 < left) (hread : env.reads i = .upTo k)
      (hwrite : env.writes i = .upTo m) (hm : min (min (k + 1) BUFFER) left ≤ m)
      (rest : Complete env (i + 1) (left - min (min (k + 1) BUFFER) left)) : Complete env i left

section

variable {env : Env} {src dst i left : Nat} {s : State} {c : List UInt8}

theorem complete_iff (hleft : 0 < left) : Complete env i left ↔
    ∃ k m, env.reads i = .upTo k ∧ env.writes i = .upTo m ∧ min (min (k + 1) BUFFER) left ≤ m ∧
      Complete env (i + 1) (left - min (min (k + 1) BUFFER) left) := by
  constructor
  · intro h
    cases h with
    | done => omega
    | turn hleft hread hwrite hm rest => exact ⟨_, _, hread, hwrite, hm, rest⟩
  · rintro ⟨k, m, hread, hwrite, hm, rest⟩
    exact .turn hleft hread hwrite hm rest

structure Progress (c : List UInt8) (src dst : Nat) (s : State) : Prop where
  source : s.content src = c
  copied : s.content dst = c.take s.roff
  offset : s.woff = s.roff
  roff_le : s.roff ≤ c.length

theorem Progress.written (h : Progress c src dst s) (r j : Nat) :
    (({ s with roff := r } : State).write dst ((c.drop s.roff).take j)).content dst =
      c.take (s.roff + j) := by
  have hend : (c.take s.roff).drop (s.roff + ((c.drop s.roff).take j).length) = [] :=
    List.drop_eq_nil_of_le (by rw [List.length_take]; omega)
  dsimp only [State.write]
  rw [Function.update_self, h.copied, h.offset, List.take_take, Nat.min_self, hend, List.append_nil,
    List.take_add]

theorem Progress.turn (h : Progress c src dst s) (hne : src ≠ dst) {j : Nat}
    (hj : s.roff + j ≤ c.length) :
    Progress c src dst
      (({ s with roff := s.roff + j } : State).write dst ((c.drop s.roff).take j)) where
  source := by
    dsimp only [State.write]
    rw [Function.update_of_ne hne, h.source]
  copied := h.written (s.roff + j) j
  offset := by
    have hlen : ((c.drop s.roff).take j).length = j := by
      rw [List.length_take, List.length_drop]
      omega
    dsimp only [State.write]
    rw [hlen, h.offset]
  roff_le := hj

section

variable {buffer : List UInt8} (hread : s.read src (env.reads i) = some buffer)
  (hbuf : buffer ≠ [])

include hread hbuf

theorem copyLoop_failed (hw : accepted buffer (env.writes i) = none) (dst fuel : Nat) :
    copyLoop env src dst (fuel + 1) i s = some ({ s with roff := s.roff + buffer.length }, true) := by
  obtain ⟨b, bs, rfl⟩ := List.exists_cons_of_ne_nil hbuf
  simp [copyLoop, hread, hw]

theorem copyLoop_accepted {data : List UInt8} (hw : accepted buffer (env.writes i) = some data)
    (dst fuel : Nat) :
    copyLoop env src dst (fuel + 1) i s =
      if data.length = buffer.length then
        copyLoop env src dst fuel (i + 1)
          (({ s with roff := s.roff + buffer.length } : State).write dst data)
      else some (({ s with roff := s.roff + buffer.length } : State).write dst data, true) := by
  obtain ⟨b, bs, rfl⟩ := List.exists_cons_of_ne_nil hbuf
  simp [copyLoop, hread, hw]

end

theorem copyLoop_spec (hne : src ≠ dst) (h : Progress c src dst s) {fuel : Nat}
    (hfuel : c.length - s.roff < fuel) : ∃ r n, copyLoop env src dst fuel i s = some r ∧
      n ≤ c.length ∧ r.1.content dst = c.take n ∧
      (n = c.length ↔ Complete env i (c.length - s.roff)) := by
  induction fuel generalizing i s with
  | zero => omega
  | succ fuel ih =>
    have hroff := h.roff_le
    rcases Nat.eq_zero_or_pos (c.length - s.roff) with hleft | hleft
    · -- the end of the file, or an error there
      refine ⟨(s, false), s.roff, ?_, hroff, h.copied, ?_⟩
      · have hend : c.drop s.roff = [] := List.drop_eq_nil_of_le (by omega)
        cases hr : env.reads i <;> simp [copyLoop, hr, State.read, h.source, hend]
      · rw [hleft]
        exact iff_of_true (by omega) (.done i)
    · rw [complete_iff hleft]
      cases hr : env.reads i with
      | error =>
        refine ⟨(s, false), s.roff, ?_, hroff, h.copied, iff_of_false (by omega) ?_⟩
        · simp [copyLoop, hr, State.read]
        · rintro ⟨k, m, hk, -⟩
          cases hk
      | upTo k =>
        -- the buffer holds `j` bytes, at least one
        obtain ⟨b, hb, hbpos⟩ : ∃ b, min (k + 1) BUFFER = b ∧ 0 < b :=
          ⟨_, rfl, Nat.lt_min.mpr ⟨Nat.succ_pos k, by decide⟩⟩
        obtain ⟨j, hj⟩ : ∃ j, min b (c.length - s.roff) = j := ⟨_, rfl⟩
        have hjpos : 0 < j := by omega
        have hlen : ((c.drop s.roff).take j).length = j := by
          rw [List.length_take, List.length_drop]
          omega
        have hread : s.read src (env.reads i) = some ((c.drop s.roff).take j) := by
          rw [hr, State.read, h.source, hb, ← hj, ← List.length_drop, ← List.take_eq_take_min]
        have hbuf : (c.drop s.roff).take j ≠ [] := by
          rw [← List.length_pos_iff, hlen]
          exact hjpos
        cases hw : env.writes i with
        | error =>
          refine ⟨_, s.roff, copyLoop_failed hread hbuf (by rw [hw]; rfl) dst fuel, hroff, h.copied,
            iff_of_false (by omega) ?_⟩
          rintro ⟨k, m, -, hm, -⟩
          cases hm
        | upTo m =>
          have haccept : accepted ((c.drop s.roff).take j) (env.writes i) =
              some ((c.drop s.roff).take (min m j)) := by
            rw [hw, accepted, List.take_take]
          have hdata : ((c.drop s.roff).take (min m j)).length = min m j := by
            rw [List.length_take, List.length_drop]
            omega
          rw [copyLoop_accepted hread hbuf haccept dst fuel, hlen, hdata]
          by_cases hm : j ≤ m
          · rw [if_pos (Nat.min_eq_right hm), Nat.min_eq_right hm]
            have hnext : Progress c src dst _ := h.turn hne (show s.roff + j ≤ c.length by omega)
            have hless : c.length - (s.roff + j) < fuel := by omega
            obtain ⟨r, n, hrun, hn, hcopied, hiff⟩ := ih hnext hless (i := i + 1)
            refine ⟨r, n, hrun, hn, hcopied, hiff.trans ?_⟩
            have hrest : c.length - s.roff - j = c.length - (s.roff + j) := by omega
            constructor
            · intro hcomplete
              refine ⟨k, m, rfl, rfl, ?_⟩
              rw [hb, hj, hrest]
              exact ⟨hm, hcomplete⟩
            · rintro ⟨k', m', hk, -, -, hcomplete⟩
              cases hk
              rwa [hb, hj, hrest] at hcomplete
          · rw [if_neg (by omega)]
            refine ⟨_, s.roff + min m j, rfl, by omega, h.written _ _, iff_of_false (by omega) ?_⟩
            rintro ⟨k', m', hk, hm', hle, -⟩
            cases hk
            cases hm'
            rw [hb, hj] at hle
            exact hm hle

/-- The two files of a run that gets past its `open`s. -/
def Opened (env : Env) (argv : List (List UInt8)) (src dst : Nat) : Prop :=
  ∃ prog source destination, argv = [prog, source, destination] ∧ env.openRd source = some src ∧
    env.openWr destination = some dst

theorem Opened.unique {argv : List (List UInt8)} {src' dst' : Nat} (h : Opened env argv src dst)
    (h' : Opened env argv src' dst') : src = src' ∧ dst = dst' := by
  obtain ⟨prog, source, destination, rfl, hsrc, hdst⟩ := h
  obtain ⟨prog', source', destination', heq, hsrc', hdst'⟩ := h'
  cases heq
  rw [hsrc, Option.some_inj] at hsrc'
  rw [hdst, Option.some_inj] at hdst'
  exact ⟨hsrc', hdst'⟩

theorem main_opened {argv : List (List UInt8)} (h : Opened env argv src dst)
    (content : Nat → List UInt8) : main env argv content =
      (copyLoop env src dst ((content src).length + 1) 0 ⟨Function.update content dst [], 0, 0⟩).map
        fun r => (0, (if r.2 then [.writing] else []) ++ [.copied], r.1.content) := by
  obtain ⟨prog, source, destination, rfl, hsrc, hdst⟩ := h
  simp only [main, hsrc, hdst]

theorem main_failed {argv : List (List UInt8)} (h : ∀ src dst, ¬Opened env argv src dst)
    (content : Nat → List UInt8) : ∃ msgs, main env argv content = some (1, msgs, content) := by
  unfold main
  split
  · rename_i prog source destination
    cases hsrc : env.openRd source with
    | none => exact ⟨_, rfl⟩
    | some src =>
      cases hdst : env.openWr destination with
      | none => exact ⟨_, rfl⟩
      | some dst => exact absurd ⟨prog, source, destination, rfl, hsrc, hdst⟩ (h src dst)
  · exact ⟨_, rfl⟩

theorem copyLoop_same (fuel : Nat) (h : s.content src = []) :
    copyLoop env src src (fuel + 1) i s = some (s, false) := by
  cases hr : env.reads i <;> simp [copyLoop, hr, State.read, h]

theorem copyLoop_copies (env : Env) (src dst : Nat) (content : Nat → List UInt8) :
    ∃ r, copyLoop env src dst ((content src).length + 1) 0 ⟨Function.update content dst [], 0, 0⟩ =
        some r ∧
      (r.1.content dst = content src ↔
        content src = [] ∨ src ≠ dst ∧ Complete env 0 (content src).length) := by
  by_cases hne : src = dst
  · subst hne
    refine ⟨_, copyLoop_same _ (Function.update_self _ _ _), ?_⟩
    simp [eq_comm]
  · have hstart : Progress (content src) src dst ⟨Function.update content dst [], 0, 0⟩ :=
      ⟨Function.update_of_ne hne _ _, by simp, rfl, Nat.zero_le _⟩
    obtain ⟨r, n, hrun, hn, hcopied, hiff⟩ := copyLoop_spec hne hstart (Nat.lt_succ_self _)
    refine ⟨r, hrun, ?_⟩
    rw [hcopied, List.take_eq_self_iff]
    constructor
    · intro hle
      exact .inr ⟨hne, hiff.mp (Nat.le_antisymm hn hle)⟩
    · rintro (hnil | ⟨-, hcomplete⟩)
      · rw [hnil]
        exact Nat.zero_le n
      · exact Nat.le_of_eq (hiff.mpr hcomplete).symm

end

/-- Every run ends. It ends with status 0 and a destination that is not a copy exactly when the source
had content and is the destination itself, or some `read` or `write` before the last byte failed or
was short. -/
theorem cp_copies_iff (env : Env) (argv : List (List UInt8)) (content : Nat → List UInt8) :
    (∃ r, main env argv content = some r) ∧
    ((∀ msgs final, main env argv content = some (0, msgs, final) →
        ∃ src dst, Opened env argv src dst ∧ final dst = content src) ↔
      ∀ src dst, Opened env argv src dst →
        content src = [] ∨ src ≠ dst ∧ Complete env 0 (content src).length) := by
  by_cases hopen : ∃ src dst, Opened env argv src dst
  · obtain ⟨src, dst, h⟩ := hopen
    obtain ⟨r, hrun, hiff⟩ := copyLoop_copies env src dst content
    have hmain := main_opened h content
    rw [hrun, Option.map_some] at hmain
    refine ⟨⟨_, hmain⟩, ?_⟩
    constructor
    · intro hall src' dst' h'
      obtain ⟨hs, hd⟩ := h.unique h'
      rw [← hs, ← hd, ← hiff]
      obtain ⟨src'', dst'', h'', hcopy⟩ := hall _ _ hmain
      obtain ⟨hs, hd⟩ := h.unique h''
      rwa [← hs, ← hd] at hcopy
    · intro hall msgs final hzero
      rw [hmain, Option.some_inj, Prod.mk.injEq, Prod.mk.injEq] at hzero
      exact ⟨src, dst, h, by rw [← hzero.2.2, hiff]; exact hall src dst h⟩
  · have hnone : ∀ src dst, ¬Opened env argv src dst := fun src dst h => hopen ⟨src, dst, h⟩
    obtain ⟨msgs, hmain⟩ := main_failed hnone content
    refine ⟨⟨_, hmain⟩, iff_of_true ?_ fun src dst h => absurd h (hnone src dst)⟩
    intro msgs' final hzero
    rw [hmain] at hzero
    simp at hzero

/-- The names `[1]` and `[3]` are the file 1, the name `[2]` is the file 2. -/
def twoFiles (reads : Nat → ReadResult) (writes : Nat → WriteResult) : Env where
  openRd name := if name = [2] then some 2 else some 1
  openWr name := if name = [2] then some 2 else some 1
  reads := reads
  writes := writes

theorem cp_loses_bytes :
    ((main (twoFiles (fun _ => .upTo 9) fun _ => .upTo 9) [[0], [1], [3]] fun _ => [7, 8]).map
      fun r => (r.1, r.2.1, r.2.2 1)) = some (0, [.copied], []) ∧
    ((main (twoFiles (fun i => if i = 0 then .upTo 0 else .error) fun _ => .upTo 9) [[0], [1], [2]]
      fun _ => [7, 8]).map fun r => (r.1, r.2.1, r.2.2 2)) = some (0, [.copied], [7]) ∧
    ((main (twoFiles (fun _ => .upTo 9) fun _ => .upTo 1) [[0], [1], [2]] fun _ => [7, 8]).map
      fun r => (r.1, r.2.1, r.2.2 2)) = some (0, [.writing, .copied], [7]) := by
  decide

end OsProject.CustomCp
