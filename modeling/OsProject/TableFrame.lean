import OsProject.FileCalls
import OsProject.Hoare

/-! The functions of `fs.c` that work on blocks, on the contents of an inode and on the entries of a
directory: none of them touches a reference, a lock, an open file or a process. -/

namespace OsProject

def Fs.table (s : Fs) : (Fin NFILE → File) × Kernel × (Slot → Nat × Int × Bool) :=
  (s.file, s.kernel, fun i => ((s.inode i).inum, (s.inode i).ref, (s.inode i).locked))

def Quiet (e : Panic) : Prop := e ≠ .filedup ∧ e ≠ .fileclose

instance : DecidablePred Quiet := fun _ => inferInstanceAs (Decidable (_ ∧ _))

abbrev Still (t : (Fin NFILE → File) × Kernel × (Slot → Nat × Int × Bool)) {α : Type}
    (x : FsM α) : Prop :=
  Maintains (fun s => s.table = t) Quiet x

variable {sb : Superblock} {t : (Fin NFILE → File) × Kernel × (Slot → Nat × Int × Bool)}

section Blocks

theorem logBlock_still (b : Nat) : Still t (logBlock b) := .modify fun _ h => h

theorem getInode_still (ip : Slot) : Still t (getInode ip) := .get_bind fun _ => .pure _

theorem modInode_still (ip : Slot) {f : Inode → Inode}
    (hf : ∀ i, (f i).inum = i.inum ∧ (f i).ref = i.ref ∧ (f i).locked = i.locked) :
    Still t (modInode ip f) := by
  refine .modify fun s h => ?_
  rw [← h]
  unfold Fs.table Fs.setInode
  congr 2
  funext i
  by_cases hi : i = ip
  · subst hi
    obtain ⟨hinum, href, hlocked⟩ := hf (s.inode i)
    simp [hinum, href, hlocked]
  · simp [hi]

theorem setDinode_still (inum : Nat) (d : Dinode) : Still t (setDinode sb inum d) :=
  .bind (.modify fun _ h => h) fun _ => logBlock_still _

theorem iupdate_still (ip : Slot) : Still t (iupdate sb ip) :=
  (getInode_still ip).bind fun _ => setDinode_still _ _

theorem setAddr_still (ip : Slot) (i addr : Nat) : Still t (setAddr ip i addr) :=
  modInode_still ip fun _ => ⟨rfl, rfl, rfl⟩

theorem addNlink_still (ip : Slot) (v : Int) : Still t (addNlink sb ip v) :=
  .bind (modInode_still ip fun _ => ⟨rfl, rfl, rfl⟩) fun _ => iupdate_still ip

theorem bzero_still (b : Nat) : Still t (bzero b) :=
  .bind (.modify fun _ h => h) fun _ => logBlock_still b

theorem balloc_still : Still t (balloc sb) := by
  refine .get_bind fun s => ?_
  split
  · exact .bind (.modify fun _ h => h) fun _ => (logBlock_still _).bind fun _ =>
      (bzero_still _).bind fun _ => .pure _
  · exact .pure _

theorem bfree_still (b : Nat) : Still t (bfree sb b) :=
  .get_bind fun _ => .ite (.throw (by decide))
    (.bind (.modify fun _ h => h) fun _ => logBlock_still _)

end Blocks

section Contents

theorem truncDirect_still (ip : Slot) (i : Nat) : Still t (truncDirect sb ip i) :=
  (getInode_still ip).bind fun _ => .ite (.pure _)
    ((bfree_still _).bind fun _ => setAddr_still ip i 0)

theorem truncEntry_still (a : Block) (j : Nat) : Still t (truncEntry sb a j) :=
  .ite (.pure _) (bfree_still _)

theorem truncIndirect_still (ip : Slot) : Still t (truncIndirect sb ip) :=
  (getInode_still ip).bind fun _ => .ite (.pure _) (.get_bind fun _ =>
    (Maintains.forM (truncEntry_still _) _).bind fun _ => (bfree_still _).bind fun _ =>
      setAddr_still ip _ 0)

theorem itrunc_still (ip : Slot) : Still t (itrunc sb ip) :=
  (Maintains.forM (truncDirect_still ip) _).bind fun _ => (truncIndirect_still ip).bind fun _ =>
    .bind (modInode_still ip fun _ => ⟨rfl, rfl, rfl⟩) fun _ => iupdate_still ip

theorem ifree_still (ip : Slot) : Still t (ifree sb ip) :=
  (getInode_still ip).bind fun _ => .ite (.throw (by decide))
    ((itrunc_still ip).bind fun _ => .bind (modInode_still ip fun _ => ⟨rfl, rfl, rfl⟩) fun _ =>
      (iupdate_still ip).bind fun _ => modInode_still ip fun _ => ⟨rfl, rfl, rfl⟩)

theorem loadAddr_still (ip : Slot) (i : Nat) : Still t (loadAddr sb ip i) :=
  (getInode_still ip).bind fun _ => .ite (balloc_still.bind fun _ => .ite (.pure _)
    ((setAddr_still ip i _).bind fun _ => .pure _)) (.pure _)

theorem loadWord_still (ind j : Nat) : Still t (loadWord sb ind j) :=
  .get_bind fun _ => .ite (balloc_still.bind fun _ => .ite (.pure _)
    (.bind (.modify fun _ h => h) fun _ => (logBlock_still ind).bind fun _ => .pure _)) (.pure _)

theorem bmap_still (ip : Slot) (bn : Nat) : Still t (bmap sb ip bn) :=
  .ite (loadAddr_still ip bn) (.ite ((loadAddr_still ip _).bind fun _ =>
    .ite (.pure _) (loadWord_still _ _)) (.throw (by decide)))

theorem readLoop_still (ip : Slot) (dst : Nat → Bool) (fuel off n tot : Nat) (acc : List UInt8) :
    Still t (readLoop sb ip dst fuel off n tot acc) := by
  induction fuel generalizing off tot acc with
  | zero => exact .pure _
  | succ fuel ih =>
    exact .ite ((bmap_still ip _).bind fun _ => .ite (.pure _) (.get_bind fun _ =>
      .ite (ih _ _ _) (.pure _))) (.pure _)

theorem readi_still (ip : Slot) (dst : Nat → Bool) (off n : Nat) : Still t (readi sb ip dst off n) :=
  (getInode_still ip).bind fun _ => .ite (.pure _) (readLoop_still ip dst _ _ _ _ _)

theorem copyIn_still (src : Nat → Option UInt8) (b o tot m : Nat) :
    Still t (copyIn src b o tot m) :=
  .bind (.modify fun _ h => h) fun _ => .pure _

theorem writeLoop_still (ip : Slot) (src : Nat → Option UInt8) (fuel off n tot : Nat) :
    Still t (writeLoop sb ip src fuel off n tot) := by
  induction fuel generalizing off tot with
  | zero => exact .pure _
  | succ fuel ih =>
    exact .ite ((bmap_still ip _).bind fun _ => .ite (.pure _) ((copyIn_still src _ _ _ _).bind
      fun _ => .ite ((logBlock_still _).bind fun _ => ih _ _) (.pure _))) (.pure _)

theorem writei_still (ip : Slot) (src : Nat → Option UInt8) (off n : Nat) :
    Still t (writei sb ip src off n) :=
  (getInode_still ip).bind fun _ => .ite (.pure _) (.ite (.pure _)
    ((writeLoop_still ip src _ _ _ _).bind fun _ =>
      .bind (modInode_still ip fun _ => ⟨rfl, rfl, rfl⟩) fun _ =>
        (iupdate_still ip).bind fun _ => .pure _))

end Contents

section Entries

theorem readDirent_still (dp : Slot) {e : Panic} (he : Quiet e) (off : Nat) :
    Still t (readDirent sb dp e off) :=
  (readi_still dp _ off 16).bind fun _ => .ite (.pure _) (.throw he)

theorem writeDirent_still (dp : Slot) (de : Dirent) (off : Nat) : Still t (writeDirent sb dp de off) :=
  writei_still dp _ off 16

theorem dirScan_still (dp : Slot) (name : Name) (offs : List Nat) :
    Still t (dirScan sb dp name offs) := by
  induction offs with
  | nil => exact .pure _
  | cons off offs ih =>
    exact (readDirent_still dp (by decide) off).bind fun _ => .ite ih (.ite (.pure _) ih)

theorem dirFindFree_still (dp : Slot) (size : Nat) (offs : List Nat) :
    Still t (dirFindFree sb dp size offs) := by
  induction offs with
  | nil => exact .pure _
  | cons off offs ih => exact (readDirent_still dp (by decide) off).bind fun _ => .ite (.pure _) ih

theorem dirEmptyFrom_still (dp : Slot) (offs : List Nat) : Still t (dirEmptyFrom sb dp offs) := by
  induction offs with
  | nil => exact .pure _
  | cons off offs ih => exact (readDirent_still dp (by decide) off).bind fun _ => .ite ih (.pure _)

theorem isdirempty_still (dp : Slot) : Still t (isdirempty sb dp) :=
  (getInode_still dp).bind fun _ => dirEmptyFrom_still dp _

end Entries

end OsProject
