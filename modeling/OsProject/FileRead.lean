import OsProject.ChunkedWrite
import OsProject.Console
import OsProject.Pipe

/-! `fileread` for a pipe, the console and an inode, with the bytes that it stores. -/

namespace OsProject

open Console (Cons Reader)

/-- The second loop of `piperead` with `m` bytes to go. -/
def pipeCopy (dst : Nat → Bool) : Nat → List UInt8 → Pipes.Pipe → Int × List UInt8
  | 0, got, _ => (got.length, got)
  | m + 1, got, pi =>
    if pi.Empty then (got.length, got)
    else if dst got.length then pipeCopy dst m (got ++ [pi.front]) pi.drop
    else (if got = [] then -1 else got.length, got)

/-- `turns` holds what the process finds each time it has the lock: whether it is killed, and the
pipe. Without another turn it sleeps on. -/
def piperead (dst : Nat → Bool) (n : Int) : List (Bool × Pipes.Pipe) → Option (Int × List UInt8)
  | [] => none
  | (killed, pi) :: turns =>
    if pi.Empty ∧ pi.writeopen = true then
      if killed then some (-1, []) else piperead dst n turns
    else some (pipeCopy dst n.toNat [] pi)

def consoleResume (dst : Nat → Bool) : Reader → List (Bool × Cons) → Option (Int × List UInt8)
  | _, [] => none
  | rd, (killed, cons) :: turns =>
    match (Console.readLoop killed dst rd.target rd.n rd.got cons).1 with
    | .returns ret got => some (ret, got)
    | .sleeps rd => consoleResume dst rd turns

def consoleread (dst : Nat → Bool) (n : Int) : List (Bool × Cons) → Option (Int × List UInt8) :=
  consoleResume dst ⟨n.toNat, n.toNat, []⟩

def CONSOLE : Int := 1

/-- `devsw[major].read`, which `consoleinit` sets for the console only. -/
def devRead (major : Int) :
    Option ((Nat → Bool) → Int → List (Bool × Cons) → Option (Int × List UInt8)) :=
  if major = CONSOLE then some consoleread else none

/-- The return value with the bytes stored at `addr`, or nothing while the call sleeps. -/
def fileread (sb : Superblock) (f : Fin NFILE) (dst : Nat → Bool) (n : Int)
    (pipes : List (Bool × Pipes.Pipe)) (turns : List (Bool × Cons)) :
    FsM (Option (Int × List UInt8)) := do
  let s ← get
  if (s.file f).readable = false then return some (-1, [])
  else
    match (s.file f).type with
    | .pipe => return piperead dst n pipes
    | .device =>
      if (s.file f).major < 0 ∨ NDEV ≤ (s.file f).major then return some (-1, [])
      else
        match devRead (s.file f).major with
        | none => return some (-1, [])
        | some read => return read dst n turns
    | .inode =>
      ilock (s.file f).ip
      let (r, got) ← readi sb (s.file f).ip dst (s.file f).off (toUint n)
      setOff f r
      iunlock (s.file f).ip
      return some (r, got)
    | .none => throw .fileread

/-- User memory `u` after the bytes `got` are stored at `addr`. -/
def poke (u : Nat → UInt8) (addr : Nat) (got : List UInt8) (a : Nat) : UInt8 :=
  if addr ≤ a then (got[a - addr]?).getD (u a) else u a

/-- The return value is at most `max n 0`, and no byte outside the buffer changes. -/
def InBuffer (addr : Nat) (n : Int) (r : Int × List UInt8) : Prop :=
  r.1 ≤ max n 0 ∧ ∀ u a, a < addr ∨ addr + n.toNat ≤ a → poke u addr r.2 a = u a

theorem inBuffer_iff {addr : Nat} {n : Int} {r : Int × List UInt8} :
    InBuffer addr n r ↔ r.1 ≤ max n 0 ∧ r.2.length ≤ n.toNat := by
  refine and_congr_right fun _ => ⟨fun h => ?_, fun h u a ha => ?_⟩
  · by_contra hlong
    -- a memory that has another byte behind the buffer
    have hbyte := h (fun _ => r.2[n.toNat] + 1) (addr + n.toNat) (.inr le_rfl)
    rw [poke, if_pos (by omega), Nat.add_sub_cancel_left, List.getElem?_eq_getElem (by omega),
      Option.getD_some] at hbyte
    simp at hbyte
  · rw [poke]
    split_ifs with hle
    · rw [List.getElem?_eq_none (by omega), Option.getD_none]
    · rfl

def Counted (m : Nat) (r : Int × List UInt8) : Prop := r.1 ≤ r.2.length ∧ r.2.length ≤ m

theorem Counted.inBuffer {addr : Nat} {n : Int} {r : Int × List UInt8} (h : Counted n.toNat r) :
    InBuffer addr n r := by
  obtain ⟨hret, hlen⟩ := h
  exact inBuffer_iff.mpr ⟨by omega, hlen⟩

theorem counted_pipeCopy (dst : Nat → Bool) (m : Nat) :
    ∀ (got : List UInt8) (pi : Pipes.Pipe), Counted (got.length + m) (pipeCopy dst m got pi) := by
  induction m with
  | zero =>
    intro got pi
    exact ⟨le_rfl, le_rfl⟩
  | succ m ih =>
    intro got pi
    rw [pipeCopy]
    split_ifs with hempty hdst hnil
    · exact ⟨le_rfl, by simp⟩
    · have hlen : got.length + (m + 1) = (got ++ [pi.front]).length + m := by
        rw [List.length_append, List.length_singleton]
        omega
      rw [hlen]
      exact ih _ _
    · exact ⟨by simp only; omega, by simp⟩
    · exact ⟨le_rfl, by simp⟩

theorem counted_piperead {dst : Nat → Bool} {n : Int} {turns : List (Bool × Pipes.Pipe)}
    {r : Int × List UInt8} (h : piperead dst n turns = some r) : Counted n.toNat r := by
  induction turns with
  | nil => cases h
  | cons turn turns ih =>
    rw [piperead] at h
    split_ifs at h with hwait hkilled
    · cases h
      exact ⟨by simp, by simp⟩
    · exact ih h
    · cases h
      simpa using counted_pipeCopy dst n.toNat [] turn.2

def TurnCounted (target : Nat) : Console.Turn → Prop
  | .returns ret got => Counted target (ret, got)
  | .sleeps rd => rd.target = target ∧ rd.got.length + rd.n = target

theorem turnCounted_readLoop (killed : Bool) (dst : Nat → Bool) {target : Nat} (n : Nat) :
    ∀ (got : List UInt8) (cons : Cons), got.length + n = target →
      TurnCounted target (Console.readLoop killed dst target n got cons).1 := by
  induction n with
  | zero =>
    intro got cons hlen
    exact ⟨by simp only; omega, by simp only; omega⟩
  | succ n ih =>
    intro got cons hlen
    simp only [Console.readLoop]
    split_ifs with hempty hkilled heof hput hdst hnl
    · exact ⟨by simp only; omega, by simp only; omega⟩
    · exact ⟨rfl, hlen⟩
    · exact ⟨by simp only; omega, by simp only; omega⟩
    · exact ⟨by simp only; omega, by simp only; omega⟩
    · exact ⟨by simp only; omega, by simp only; omega⟩
    · exact ⟨by simp; omega, by simp; omega⟩
    · exact ih _ _ (by simp; omega)

theorem counted_consoleResume {dst : Nat → Bool} {turns : List (Bool × Cons)}
    {r : Int × List UInt8} : ∀ {rd : Reader}, rd.got.length + rd.n = rd.target →
    consoleResume dst rd turns = some r → Counted rd.target r := by
  induction turns with
  | nil =>
    intro rd _ h
    cases h
  | cons turn turns ih =>
    intro rd hrd h
    have hturn := turnCounted_readLoop turn.1 dst rd.n rd.got turn.2 hrd
    rw [consoleResume] at h
    cases hres : (Console.readLoop turn.1 dst rd.target rd.n rd.got turn.2).1 with
    | returns ret got =>
      rw [hres] at h hturn
      cases h
      exact hturn
    | sleeps rd' =>
      rw [hres] at h hturn
      obtain ⟨htarget, hlen⟩ := hturn
      rw [← htarget]
      exact ih (hlen.trans htarget.symm) h

theorem counted_consoleread {dst : Nat → Bool} {n : Int} {turns : List (Bool × Cons)}
    {r : Int × List UInt8} (h : consoleread dst n turns = some r) : Counted n.toNat r :=
  counted_consoleResume (by simp) h

theorem toUint_of_nonneg {n : Int} (h : 0 ≤ n) (hlt : n < 2 ^ 31) : toUint n = n.toNat := by
  rw [toUint]
  omega

theorem toUint_of_neg {n : Int} (h : n < 0) (hle : -2 ^ 31 ≤ n) :
    toUint n = 2 ^ 32 - (-n).toNat := by
  rw [toUint]
  omega

theorem readable_of_neg {size off : Nat} {n : Int} (hsize : size < 2 ^ 31) (h : n < 0)
    (hle : -2 ^ 31 ≤ n) :
    readable size off (toUint n) = if (off : Int) < -n then size - off else 0 := by
  rw [readable, toUint_of_neg h hle]
  split_ifs <;> omega

variable {sb : Superblock} {s : Fs} {f : Fin NFILE} {dst : Nat → Bool} {n : Int}
  {pipes : List (Bool × Pipes.Pipe)} {turns : List (Bool × Cons)}

def inodeRead (s : Fs) (f : Fin NFILE) (dst : Nat → Bool) (n : Int) : Int × List UInt8 :=
  let m := readable (s.dinode (s.fileNum f)).size (s.file f).off (toUint n)
  (if storable dst 0 m = m then (m : Int) else -1,
    bytesFrom (byteAt s.dinode s.data (s.fileNum f)) (s.file f).off (storable dst 0 m))

theorem fileread_inode (h : Sys sb s []) (hread : (s.file f).readable = true)
    (htype : (s.file f).type = .inode) (hfree : (s.inode (s.file f).ip).locked = false) :
    wp (fileread sb f dst n pipes turns) (fun r _ => r = some (inodeRead s f dst n))
      (fun _ => False) s := by
  have hpos := holders_pos_of_file (.inl htype)
  have htypes := h.ok.cache.alloc _ hpos
  have hinode := s.lockedAt_inode (s.file f).ip
  have hr := h.ok.ref_pos (.inl hpos)
  simp only [fileread, wp_bind, wp_get, wp_ite, htype]
  refine ⟨fun hno => by simp [hread] at hno, fun _ => ?_⟩
  refine wp_post (ilock_unlocked h.ok hpos hfree) ?_
  rintro _ s' rfl
  have hstored : wp (readi sb (s.file f).ip dst (s.file f).off (toUint n)) _ (fun _ => False)
      (s.lockedAt (s.file f).ip) := readi_stored
    (by rw [hinode]; rfl) (by rw [hinode]; exact htypes)
    (by rw [hinode]; exact h.ok.vol.filled _ htypes) (by rw [toUint]; omega)
  refine wp_post hstored ?_
  rintro r s' ⟨rfl, rfl⟩
  simp only [setOff, iunlock, getInode, modInode, wp_bind, wp_get, wp_modify, wp_pure, wp_ite,
    wp_throw, hinode]
  refine ⟨fun hbad => ?_, fun _ => rfl⟩
  rcases hbad with hbad | hbad
  · cases hbad
  · omega

/-- The reads that overrun their buffer: a negative size that does not wrap when the offset is
added to it, with bytes left in the file and a first byte that can be stored. -/
def Overruns (s : Fs) (f : Fin NFILE) (dst : Nat → Bool) (n : Int) : Prop :=
  (s.file f).readable = true ∧ (s.file f).type = .inode ∧
    (s.inode (s.file f).ip).locked = false ∧ n < 0 ∧ ((s.file f).off : Int) < -n ∧
    (s.file f).off < (s.dinode (s.fileNum f)).size ∧ dst 0 = true

instance (s : Fs) (f : Fin NFILE) (dst : Nat → Bool) (n : Int) : Decidable (Overruns s f dst n) :=
  inferInstanceAs (Decidable (_ ∧ _))

theorem length_inodeRead (s : Fs) (f : Fin NFILE) (dst : Nat → Bool) (n : Int) :
    (inodeRead s f dst n).2.length =
    storable dst 0 (readable (s.dinode (s.fileNum f)).size (s.file f).off (toUint n)) :=
  length_bytesFrom _ _ _

theorem counted_inodeRead (s : Fs) (f : Fin NFILE) (dst : Nat → Bool) (n : Int) :
    Counted (inodeRead s f dst n).2.length (inodeRead s f dst n) := by
  refine ⟨?_, le_rfl⟩
  rw [length_inodeRead, inodeRead]
  simp only
  split_ifs with hall
  · exact_mod_cast hall.ge
  · omega

theorem inBuffer_inodeRead_iff {addr : Nat} (hsize : (s.dinode (s.fileNum f)).size < 2 ^ 31)
    (hle : -2 ^ 31 ≤ n) (hlt : n < 2 ^ 31) :
    InBuffer addr n (inodeRead s f dst n) ↔ ¬ (n < 0 ∧ ((s.file f).off : Int) < -n ∧
      (s.file f).off < (s.dinode (s.fileNum f)).size ∧ dst 0 = true) := by
  have hlen := length_inodeRead s f dst n
  have hbound := storable_le dst 0
    (readable (s.dinode (s.fileNum f)).size (s.file f).off (toUint n))
  by_cases hneg : n < 0
  · rw [readable_of_neg hsize hneg hle] at hlen hbound
    constructor
    · rintro hin ⟨-, hoff, hrest, hdst⟩
      rw [if_pos hoff] at hlen
      have hpos : 0 < storable dst 0 ((s.dinode (s.fileNum f)).size - (s.file f).off) :=
        storable_pos.mpr ⟨by omega, hdst⟩
      have hshort := (inBuffer_iff.mp hin).2
      omega
    · intro hok
      have hzero : (inodeRead s f dst n).2.length = 0 := by
        by_contra hne
        rw [hlen] at hne
        obtain ⟨hm, hdst⟩ := storable_pos.mp (Nat.pos_of_ne_zero hne)
        split_ifs at hm with hoff
        · exact hok ⟨hneg, hoff, by omega, hdst⟩
        · omega
      have hcount := counted_inodeRead s f dst n
      rw [hzero] at hcount
      exact inBuffer_iff.mpr ⟨by have := hcount.1; omega, by omega⟩
  · have hle : readable (s.dinode (s.fileNum f)).size (s.file f).off (toUint n) ≤ n.toNat := by
      rw [toUint_of_nonneg (by omega) hlt, readable]
      split_ifs <;> omega
    refine ⟨fun _ hbad => hneg hbad.1, fun _ => Counted.inBuffer ?_⟩
    exact ⟨(counted_inodeRead s f dst n).1, by omega⟩

theorem fileread_cases {addr : Nat} (h : Sys sb s [])
    (hok : (s.file f).readable = true → (s.file f).type = .inode →
      (s.inode (s.file f).ip).locked = false → InBuffer addr n (inodeRead s f dst n)) :
    wp (fileread sb f dst n pipes turns) (fun r _ => ∀ x, r = some x → InBuffer addr n x)
      (fun _ => True) s := by
  have hfail : ∀ x, some ((-1 : Int), ([] : List UInt8)) = some x → InBuffer addr n x := by
    rintro x ⟨⟩
    exact Counted.inBuffer ⟨by simp, by simp⟩
  by_cases hread : (s.file f).readable = true
  · cases htype : (s.file f).type with
    | none => simp [fileread, htype, hread]
    | pipe =>
      simp only [fileread, wp_bind, wp_get, wp_ite, wp_pure, htype]
      exact ⟨fun _ => hfail, fun _ x hx => (counted_piperead hx).inBuffer⟩
    | device =>
      simp only [fileread, wp_bind, wp_get, wp_ite, wp_pure, htype, devRead]
      refine ⟨fun _ => hfail, fun _ => ⟨fun _ => hfail, fun _ => ?_⟩⟩
      split_ifs
      · exact fun x hx => (counted_consoleread hx).inBuffer
      · exact hfail
    | inode =>
      by_cases hfree : (s.inode (s.file f).ip).locked = false
      · refine wp_mono (fileread_inode h hread htype hfree) ?_ fun _ _ => trivial
        rintro r _ rfl x ⟨⟩
        exact hok hread htype hfree
      · -- the read never gets the lock
        have hlocked : (s.inode (s.file f).ip).locked = true := by simpa using hfree
        simp only [fileread, ilock, getInode, wp_bind, wp_get, wp_ite, wp_pure, wp_throw, htype]
        exact ⟨fun _ => hfail, fun _ => ⟨fun _ => trivial, fun _ => ⟨fun _ => trivial,
          fun hno => absurd hlocked hno⟩⟩⟩
  · simp only [fileread, wp_bind, wp_get, wp_ite, wp_pure]
    exact ⟨fun _ => hfail, fun hno => absurd (by simpa using hread) hno⟩

/-- A read stays in the buffer unless it is one of those of `Overruns`. -/
theorem fileread_inBuffer_iff {addr : Nat} (h : Sys sb s []) (hle : -2 ^ 31 ≤ n)
    (hlt : n < 2 ^ 31) :
    (∀ r s', fileread sb f dst n pipes turns s = .ok (some r, s') → InBuffer addr n r) ↔
      ¬ Overruns s f dst n := by
  have hiff : (s.file f).type = .inode → (InBuffer addr n (inodeRead s f dst n) ↔
      ¬ (n < 0 ∧ ((s.file f).off : Int) < -n ∧
        (s.file f).off < (s.dinode (s.fileNum f)).size ∧ dst 0 = true)) := by
    intro htype
    have htypes := h.ok.cache.alloc _ (holders_pos_of_file (.inl htype))
    have hmax : MAXFILE * BSIZE < 2 ^ 31 := by decide
    exact inBuffer_inodeRead_iff ((h.ok.vol.filled _ htypes).size_le.trans_lt hmax) hle hlt
  constructor
  · rintro hin ⟨hread, htype, hfree, hbad⟩
    have hwp : wp (fileread sb f dst n pipes turns) _ (fun _ => False) s :=
      fileread_inode h hread htype hfree
    obtain ⟨r, s', hrun, rfl⟩ := exists_ok_of_wp hwp
    exact (hiff htype).mp (hin _ _ hrun) hbad
  · intro hok r s' hrun
    have hcases : wp (fileread sb f dst n pipes turns) _ (fun _ => True) s :=
      fileread_cases h fun hread htype hfree =>
        (hiff htype).mpr fun hbad => hok ⟨hread, htype, hfree, hbad⟩
    exact wp_ok hcases hrun r rfl

def rereadCalls : List (Fin NPROC × FsCall) := noteCalls ++ [(0, .open (some [102, 0]) 0)]

theorem fileread_reread : Outcome (fun s => ¬ Overruns s 1 (fun _ => true) 3 ∧
    returned (fileread smallSb 1 (fun _ => true) 3 [] []) s = some (some (3, [7, 7, 7])) ∧
    returned (fileread smallSb 1 (fun _ => true) (-1) [] []) s = some (some (5, [7, 7, 7, 7, 7])))
      (fun _ => False) (rereadCalls.foldl (fsStep smallSb) (.ok smallFs)) := by
  decide +kernel

theorem fileread_negative : ∃ s s', Sys smallSb s [] ∧
    fileread smallSb 1 (fun _ => true) (-1) [] [] s = .ok (some (5, [7, 7, 7, 7, 7]), s') ∧
    ∀ addr, ¬ InBuffer addr (-1) (5, [7, 7, 7, 7, 7]) := by
  obtain ⟨s, -, hsys, -, -, hrun⟩ := exists_of_run sys_smallFs fileread_reread
  obtain ⟨s', hread⟩ := exists_of_returned hrun
  refine ⟨s, s', hsys, hread, fun addr hin => ?_⟩
  exact absurd (inBuffer_iff.mp hin).1 (by decide)

theorem fileread_three : ∃ s s', ¬ Overruns s 1 (fun _ => true) 3 ∧
    fileread smallSb 1 (fun _ => true) 3 [] [] s = .ok (some (3, [7, 7, 7]), s') ∧
    InBuffer 4096 3 (3, [7, 7, 7]) := by
  obtain ⟨s, -, hsys, hok, hrun, -⟩ := exists_of_run sys_smallFs fileread_reread
  obtain ⟨s', hread⟩ := exists_of_returned hrun
  exact ⟨s, s', hok, hread, (fileread_inBuffer_iff hsys (by decide) (by decide)).mpr hok _ _ hread⟩

end OsProject
