import OsProject.Directory

/-! `strncmp` and `strncpy` of `string.c`, and `dirlookup` and `dirlink` as they use them: a name is
the memory at a pointer, which need not be terminated within `DIRSIZ` bytes. The functions are those
of `Directory` at the bytes before the first NUL. -/

namespace OsProject

/-- The memory from a `char *` on. -/
abbrev CString := Nat → UInt8

def CString.tail (p : CString) : CString := fun i => p (i + 1)

def strncmp (p q : CString) : Nat → Int
  | 0 => 0
  | n + 1 =>
    if p 0 ≠ 0 ∧ p 0 = q 0 then strncmp p.tail q.tail n else (p 0).toNat - (q 0).toNat

/-- The second loop of `strncpy`. -/
def zeros : Nat → List UInt8
  | 0 => []
  | n + 1 => 0 :: zeros n

/-- The `n` bytes that `strncpy` writes. -/
def strncpy (t : CString) : Nat → List UInt8
  | 0 => []
  | n + 1 => t 0 :: if t 0 ≠ 0 then strncpy t.tail n else zeros n

/-- At most `n` bytes of a string. -/
def cname (p : CString) (n : Nat) : Name := ((List.range n).map p).takeWhile (· ≠ 0)

theorem cname_succ (p : CString) (n : Nat) :
    cname p (n + 1) = if p 0 ≠ 0 then p 0 :: cname p.tail n else [] := by
  have hmap : (List.range (n + 1)).map p = p 0 :: (List.range n).map p.tail := by
    rw [List.range_succ_eq_map, List.map_cons, List.map_map]
    rfl
  rw [cname, hmap, List.takeWhile_cons]
  by_cases hz : p 0 = 0 <;> simp [hz, cname]

theorem length_cname_le (p : CString) (n : Nat) : (cname p n).length ≤ n := by
  have hle := (List.takeWhile_sublist (l := (List.range n).map p) (· ≠ 0)).length_le
  simpa [cname] using hle

theorem zero_notMem_cname (p : CString) (n : Nat) : 0 ∉ cname p n := by
  intro hmem
  have hne := List.mem_takeWhile_imp hmem
  simp at hne

theorem strncmp_eq_zero_iff {n : Nat} : ∀ {p q : CString},
    strncmp p q n = 0 ↔ cname p n = cname q n := by
  induction n with
  | zero =>
    intro p q
    simp [strncmp, cname]
  | succ n ih =>
    intro p q
    rw [strncmp, cname_succ, cname_succ]
    by_cases hsame : p 0 = q 0
    · by_cases hz : q 0 = 0
      · simp [hsame, hz]
      · simp [hsame, hz, ih]
    · have hne : ((p 0).toNat : Int) - (q 0).toNat ≠ 0 := by
        intro he
        exact hsame (UInt8.toNat_inj.mp (by omega))
      rw [if_neg fun h => hsame h.2]
      refine iff_of_false hne fun he => ?_
      by_cases hp : p 0 = 0
      · by_cases hq : q 0 = 0
        · exact hsame (hp.trans hq.symm)
        · simp [hp, hq] at he
      · by_cases hq : q 0 = 0
        · simp [hp, hq] at he
        · simp [hp, hq, hsame] at he

theorem zeros_eq (n : Nat) : zeros n = List.replicate n 0 := by
  induction n with
  | zero => rfl
  | succ n ih => rw [zeros, ih, List.replicate_succ]

theorem getD_strncpy {n : Nat} : ∀ (t : CString) (i : Nat),
    (strncpy t n).getD i 0 = (cname t n).getD i 0 := by
  induction n with
  | zero =>
    intro t i
    rfl
  | succ n ih =>
    intro t i
    rw [strncpy, cname_succ]
    by_cases hz : t 0 = 0
    · cases i with
      | zero => simp [hz]
      | succ i => simp [hz, zeros_eq]
    · cases i with
      | zero => simp [hz]
      | succ i => simpa [hz] using ih t.tail i

variable (sb : Superblock)

/-- `namecmp(s, t)`. -/
def namecmp (s t : CString) : Int := strncmp s t DIRSIZ

/-- `de.name` in the bytes of a `struct dirent`. -/
def direntName (b : List UInt8) : CString := fun i => b.getD (i + 2) 0

def direntInum (b : List UInt8) : Nat := (b.getD 0 0).toNat + 256 * (b.getD 1 0).toNat

namespace Bytes

def dirScan (dp : Slot) (name : CString) : List Nat → FsM (Option (Nat × Nat))
  | [] => return none
  | off :: offs => do
    let (r, b) ← readi sb dp (fun _ => true) off 16
    if r ≠ 16 then throw .dirlookupRead
    else if direntInum b = 0 then dirScan dp name offs
    else if namecmp name (direntName b) = 0 then return some (off, direntInum b)
    else dirScan dp name offs

/-- The inode comes with the offset for `*poff`. -/
def dirlookup (dp : Slot) (name : CString) : FsM (Option (Slot × Nat)) := do
  let d ← getInode dp
  if d.type ≠ .dir then throw .dirlookupNotDir
  else
    match ← dirScan sb dp name (direntOffs d.size) with
    | some (off, inum) =>
      let ip ← iget inum
      return some (ip, off)
    | none => return none

/-- The bytes of `de` after `strncpy(de.name, name, DIRSIZ)` and `de.inum = inum`, a `ushort`. -/
def newDirent (name : CString) (inum : Nat) : List UInt8 :=
  UInt8.ofNat inum :: UInt8.ofNat (inum / 256) :: strncpy name DIRSIZ

def dirlink (dp : Slot) (name : CString) (inum : Nat) : FsM Int := do
  match ← dirlookup sb dp name with
  | some (ip, _) =>
    iput sb ip
    return -1
  | none =>
    let d ← getInode dp
    let off ← dirFindFree sb dp d.size (direntOffs d.size)
    let r ← writei sb dp (fun i => some ((newDirent name inum).getD i 0)) off 16
    if r ≠ 16 then return -1 else return 0

end Bytes

theorem decodeDirent_inum (b : List UInt8) : (decodeDirent b).inum = direntInum b := rfl

theorem decodeDirent_name (b : List UInt8) :
    (decodeDirent b).name = cname (direntName b) DIRSIZ := by
  have hpad : (List.range DIRSIZ).map (direntName b) = (b.drop 2).take DIRSIZ ++
      List.replicate (DIRSIZ - ((b.drop 2).take DIRSIZ).length) 0 := by
    refine List.ext_getElem (by simp) fun i h1 h2 => ?_
    rw [List.getElem_map, List.getElem_range, direntName, Nat.add_comm i 2]
    by_cases hi : i < ((b.drop 2).take DIRSIZ).length
    · rw [List.getElem_append_left hi, List.getElem_take, List.getElem_drop, List.getD_eq_getElem]
    · rw [List.getElem_append_right (by omega), List.getElem_replicate]
      refine List.getD_eq_default _ _ ?_
      simp at h1 hi
      omega
  have hzeros : ∀ (l : List UInt8) (m : Nat),
      (l ++ List.replicate m 0).takeWhile (· ≠ 0) = l.takeWhile (· ≠ 0) := by
    intro l m
    rw [List.takeWhile_append]
    split_ifs with hall
    · rw [List.takeWhile_replicate]
      have hself := (List.takeWhile_sublist (l := l) (· ≠ 0)).eq_of_length hall
      rw [hself]
      simp
    · rfl
  rw [cname, hpad, hzeros, decodeDirent]

namespace Bytes

theorem dirScan_eq (dp : Slot) (name : CString) (offs : List Nat) :
    dirScan sb dp name offs = OsProject.dirScan sb dp (cname name DIRSIZ) offs := by
  induction offs with
  | nil => rfl
  | cons off offs ih =>
    simp only [dirScan, OsProject.dirScan, readDirent, bind_assoc, ih]
    congr 1
    funext r
    by_cases hr : r.1 = 16
    · simp only [hr, ne_eq, not_true_eq_false, if_false, if_true, pure_bind, decodeDirent_inum,
        decodeDirent_name, namecmp, strncmp_eq_zero_iff]
      simp only [eq_comm]
    · simp only [hr, ne_eq, not_false_eq_true, if_true, if_false]
      rfl

theorem dirlookup_eq (dp : Slot) (name : CString) :
    dirlookup sb dp name = OsProject.dirlookup sb dp (cname name DIRSIZ) := by
  simp only [dirlookup, dirScan_eq, ne_eq, ite_not]
  rfl

theorem newDirent_eq (name : CString) (inum i : Nat) : (newDirent name inum).getD i 0 =
    encodeDirent { inum := inum, name := cname name DIRSIZ } i := by
  match i with
  | 0 => rfl
  | 1 => rfl
  | i + 2 => exact getD_strncpy name i

theorem dirlink_eq (dp : Slot) (name : CString) (inum : Nat) :
    dirlink sb dp name inum = OsProject.dirlink sb dp (cname name DIRSIZ) inum := by
  simp only [dirlink, dirlookup_eq, newDirent_eq, ne_eq, ite_not]
  rfl

end Bytes

end OsProject
