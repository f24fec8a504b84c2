import OsProject.Counting
import OsProject.CreateSpec

/-! The file table and the process table: which of their entries refer to a slot of the inode
table, and the invariant between system calls. -/

namespace OsProject

def Proc.holds (p : Proc) (i : Slot) : Nat := if p.cwd = some i then 1 else 0

def File.holds (f : File) (i : Slot) : Nat :=
  if (f.type = .inode ∨ f.type = .device) ∧ f.ip = i then 1 else 0

def holders (s : Fs) (i : Slot) : Nat :=
  ∑ p, (s.kernel.proc p).holds i + ∑ f, (s.file f).holds i

/-- An entry of the file table is in use, or it refers to nothing. A directory cannot be open for
writing; `kind` gives the types of the inodes in the table. -/
def FileOk (kind : Slot → FileType) (f : File) : Prop :=
  (f.ref = 0 → f.type = .none) ∧ (f.type = .inode → f.writable = true → kind f.ip ≠ .dir)

def ProcOk (p : Proc) : Prop := p.state = .unused ∨ p.state = .zombie → p.cwd = none

def Fs.kindAt (s : Fs) (i : Slot) : FileType := (s.graph (s.inode i).inum).kind

/-- The invariant of the running system, while the current call has the references `held`. -/
structure Sys (sb : Superblock) (s : Fs) (held : List Slot) : Prop where
  ok : FsOk sb s (holders s) held []
  files : ∀ f, FileOk s.kindAt (s.file f)
  procs : ∀ p, ProcOk (s.kernel.proc p)

variable {sb : Superblock} {s s' : Fs} {hold : Slot → Nat} {held held' keep : List Slot}
  {doomed : List Nat} {ip : Slot} {T : Prop} {me : Fin NPROC} {f : Fin NFILE} {g : Graph}

theorem holders_congr (hfile : s'.file = s.file) (hkernel : s'.kernel = s.kernel) :
    holders s' = holders s := by
  funext i
  rw [holders, holders, hfile, hkernel]

theorem holders_pos_of_file (hf : (s.file f).type = .inode ∨ (s.file f).type = .device) :
    0 < holders s (s.file f).ip := by
  have hle := Finset.single_le_sum (f := fun f' => (s.file f').holds (s.file f).ip)
    (fun _ _ => Nat.zero_le _) (Finset.mem_univ f)
  have hone : (s.file f).holds (s.file f).ip = 1 := if_pos ⟨hf, rfl⟩
  simp only [hone] at hle
  rw [holders]
  omega

theorem holders_pos_of_cwd {c : Slot} (hc : (s.kernel.proc me).cwd = some c) :
    0 < holders s c := by
  have hle := Finset.single_le_sum (f := fun p => (s.kernel.proc p).holds c)
    (fun _ _ => Nat.zero_le _) (Finset.mem_univ me)
  have hone : (s.kernel.proc me).holds c = 1 := if_pos hc
  simp only [hone] at hle
  rw [holders]
  omega

theorem Sys.of_reaches (hfiles : ∀ f, FileOk s.kindAt (s.file f))
    (hprocs : ∀ p, ProcOk (s.kernel.proc p))
    (hs : Reaches sb (holders s) keep s s' held [] g) : Sys sb s' held where
  ok := by
    rw [holders_congr hs.kept.file hs.kept.kernel]
    exact hs.ok
  files f := by
    rw [hs.kept.file]
    refine ⟨(hfiles f).1, fun hf hw => ?_⟩
    have hpos := holders_pos_of_file (s := s) (.inl hf)
    rw [Fs.kindAt, (hs.kept.slot _ (.inl hpos)).1, hs.kept.kind _ hpos]
    exact (hfiles f).2 hf hw
  procs := by
    rw [hs.kept.kernel]
    exact hprocs

theorem Sys.reaches (h : Sys sb s held) (hs : Reaches sb (holders s) keep s s' held' [] g) :
    Sys sb s' held' :=
  .of_reaches h.files h.procs hs

theorem Sys.logged (h : Sys sb s held) (l : List Nat) : Sys sb { s with logged := l } held :=
  ⟨h.ok.logged l, h.files, h.procs⟩

theorem FsInv.rehold {hold' : Slot → Nat} {doomed' : List Nat} (h : FsOk sb s hold held doomed)
    (hsum : ∀ i, hold' i + held'.count i = hold i + held.count i)
    (halloc : ∀ i, 0 < hold' i → 0 < hold i ∨ (s.graph (s.inode i).inum).kind ≠ .free)
    (horphan : ∀ i, 0 < hold i → hold' i = 0 → (s.inode i).inum ∈ doomed')
    (hsub : doomed ⊆ doomed') : FsOk sb s hold' held' doomed' := by
  refine ⟨⟨h.cache.unique, h.cache.coherent, fun i => ?_, fun i hpos => ?_, fun n ht hz => ?_⟩,
    h.vol⟩
  · have hr := h.cache.refs i
    have hi := hsum i
    omega
  · rcases halloc i hpos with hold' | hk
    · exact h.cache.alloc i hold'
    · rwa [Fs.graph, graphOf_kind] at hk
  · rcases h.cache.orphan n ht hz with hd | ⟨i, hi, hv, hpos⟩
    · exact .inl (hsub hd)
    · by_cases hz' : hold' i = 0
      · exact .inl (hi ▸ horphan i hpos hz')
      · exact .inr ⟨i, hi, hv, by omega⟩

theorem FsInv.valid_of_orphan (h : FsOk sb s hold held []) (hpos : 0 < hold ip)
    (hz : (s.graph (s.inode ip).inum).nlink = 0) : (s.inode ip).valid = true := by
  have ht := h.cache.alloc ip hpos
  rw [Fs.graph, graphOf_nlink ht] at hz
  rcases h.cache.orphan _ ht hz with hd | ⟨i, hi, hv, hpos'⟩
  · simp at hd
  · rwa [h.cache.unique i ip (h.cache.ref_pos_of_hold hpos') (h.cache.ref_pos_of_hold hpos) hi]
      at hv

theorem holders_setFile (s : Fs) (f : Fin NFILE) (x : File) (i : Slot) :
    holders { s with file := Function.update s.file f x } i + (s.file f).holds i =
      holders s i + x.holds i := by
  have hsum := sum_update_add s.file (fun y => y.holds i) f x
  simp only [holders]
  omega

theorem holders_setProc (s : Fs) (me : Fin NPROC) (p : Proc) (i : Slot) :
    holders { s with kernel := s.kernel.setProc me p } i + (s.kernel.proc me).holds i =
      holders s i + p.holds i := by
  have hsum := sum_update_add s.kernel.proc (fun y => y.holds i) me p
  simp only [holders, Kernel.setProc]
  omega

theorem Sys.setFile (h : Sys sb s held) {x : File}
    (hholds : ∀ i, x.holds i = (s.file f).holds i) (hx : FileOk s.kindAt x) :
    Sys sb { s with file := Function.update s.file f x } held where
  ok := by
    have hsame : holders { s with file := Function.update s.file f x } = holders s := by
      funext i
      have hi := holders_setFile s f x i
      rw [hholds] at hi
      omega
    rw [hsame]
    exact ⟨h.ok.cache, h.ok.vol⟩
  files := (Function.forall_update_iff _ (p := fun _ y => FileOk s.kindAt y)).mpr
    ⟨hx, fun f' _ => h.files f'⟩
  procs := h.procs

theorem File.holds_eq_zero {x : File} (h : x.type = .none) (i : Slot) : x.holds i = 0 := by
  simp [File.holds, h]

theorem File.holds_eq_ite {x : File} (h : x.type = .inode ∨ x.type = .device) (i : Slot) :
    x.holds i = [x.ip].count i := by
  by_cases he : x.ip = i <;> simp [File.holds, h, he]

theorem Proc.holds_eq_ite {p : Proc} {c : Slot} (h : p.cwd = some c) (i : Slot) :
    p.holds i = [c].count i := by
  by_cases he : c = i <;> simp [Proc.holds, h, he]

theorem FsInv.gain {hold' : Slot → Nat} (h : FsOk sb s hold [ip] [])
    (hcount : ∀ i, hold' i = hold i + [ip].count i) (hkind : s.kindAt ip ≠ .free) :
    FsOk sb s hold' [] [] := by
  refine h.rehold (fun i => ?_) (fun i hpos => ?_) (fun i hpos hz => ?_) (List.Subset.refl _)
  · rw [hcount, List.count_nil, Nat.add_zero]
  · by_cases he : i = ip
    · exact .inr (he ▸ hkind)
    · rw [hcount, List.count_cons_of_ne (Ne.symm he), List.count_nil, Nat.add_zero] at hpos
      exact .inl hpos
  · rw [hcount] at hz
    omega

theorem Sys.install (h : Sys sb s [ip]) {x : File} (hfree : (s.file f).type = .none)
    (hx : x.type = .inode ∨ x.type = .device) (hip : x.ip = ip) (hfile : FileOk s.kindAt x)
    (hkind : s.kindAt ip ≠ .free) :
    Sys sb { s with file := Function.update s.file f x } [] where
  ok := by
    have hcount : ∀ i, holders { s with file := Function.update s.file f x } i =
        holders s i + [ip].count i := fun i => by
      have hi := holders_setFile s f x i
      rw [File.holds_eq_zero hfree, File.holds_eq_ite hx, hip] at hi
      omega
    have hok := h.ok.gain hcount hkind
    exact ⟨hok.cache, hok.vol⟩
  files := (Function.forall_update_iff _ (p := fun _ y => FileOk s.kindAt y)).mpr
    ⟨hfile, fun f' _ => h.files f'⟩
  procs := h.procs

theorem FsInv.release {hold' : Slot → Nat} (h : FsOk sb s hold held [])
    (hsum : ∀ i, hold' i + [ip].count i = hold i) :
    FsOk sb s hold' (ip :: held) [(s.inode ip).inum] := by
  refine h.rehold (fun i => ?_) (fun i hi => .inl ?_) (fun i hi hz => ?_) (by simp)
  · have hs := hsum i
    have hc : (ip :: held).count i = [ip].count i + held.count i := by
      rw [← List.count_append, List.singleton_append]
    omega
  · have hs := hsum i
    omega
  · have hs := hsum i
    by_cases he : i = ip
    · simp [he]
    · rw [List.count_cons_of_ne (Ne.symm he), List.count_nil] at hs
      omega

theorem Sys.setKernel (h : Sys sb s held) {k : Kernel}
    (hcwd : ∀ p, (k.proc p).cwd = (s.kernel.proc p).cwd) (hprocs : ∀ p, ProcOk (k.proc p)) :
    Sys sb { s with kernel := k } held where
  ok := by
    have hsame : holders { s with kernel := k } = holders s := by
      funext i
      simp only [holders, Proc.holds, hcwd]
    rw [hsame]
    exact ⟨h.ok.cache, h.ok.vol⟩
  files := h.files
  procs := hprocs

theorem Sys.setFd (h : Sys sb s held) (me : Fin NPROC) (fd : Fin NOFILE) (x : Option (Fin NFILE)) :
    Sys sb (s.setFd me fd x) held := by
  refine h.setKernel (fun p => ?_) fun p => ?_
  · by_cases hp : p = me
    · rw [hp, Kernel.setProc_same]
    · rw [Kernel.setProc_of_ne _ hp]
  · by_cases hp : p = me
    · rw [hp, Kernel.setProc_same]
      exact h.procs me
    · rw [Kernel.setProc_of_ne _ hp]
      exact h.procs p

end OsProject
