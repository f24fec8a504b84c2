import OsProject.ExecRefs
import OsProject.Runs

/-! Runs of the system calls from the start of the first process: the counts of the open files and
of the inode table are exact after every call. -/

namespace OsProject.Calls

variable {sb : Superblock} {n : Int} {w : World} {me : Fin NPROC}

theorem syscall_ok (call : Syscall) (h : Settled n w) (halive : (w.fs.kernel.proc me).Alive) :
    wp (syscall sb me call) (fun _ w' => Settled n w') Calm w := by
  have hsettled : ∀ {x : WorldM Int}, wp x (fun _ w' =>
      WorldOk ⟨w.fs.kernel, w.fs.kernel, n⟩ [] [] [] w') Calm w →
      wp x (fun _ w' => Settled n w') Calm w :=
    fun hx => wp_post hx fun _ _ h' => h'.settled
  cases call with
  | link old new => exact hsettled (sysLink_ok rfl old new h)
  | unlink path => exact hsettled (sysUnlink_ok rfl path h)
  | «open» path omode => exact sysOpen_ok path omode h halive
  | mkdir path => exact hsettled (sysCreate_ok rfl path _ _ _ h)
  | mknod path major minor => exact hsettled (sysCreate_ok rfl path _ _ _ h)
  | chdir path => exact sysChdir_ok path h halive
  | dup fd => exact sysDup_ok fd h halive
  | close fd => exact sysClose_ok fd h halive
  | pipe page copyoutOk => exact sysPipe_ok page copyoutOk h halive
  | exec L phys space path argv => exact sysExec_ok L phys space path argv h
  | fork mem => exact sysFork_ok mem h halive
  | exit status => exact sysExit_ok status h halive
  | wait copyoutOk => exact sysWait_ok copyoutOk h

def Ends (P : World → Prop) (E : CallPanic → Prop) : Except CallPanic World → Prop
  | .ok w => P w
  | .error e => E e

theorem Ends.imp {P Q : World → Prop} {E F : CallPanic → Prop} {r : Except CallPanic World}
    (h : Ends P E r) (hP : ∀ w, P w → Q w) (hE : ∀ e, E e → F e) : Ends Q F r := by
  cases r with
  | ok w => exact hP w h
  | error e => exact hE e h

theorem callStep_settled {r : Except CallPanic World} (e : Fin NPROC × Syscall)
    (h : Ends (Settled n) Calm r) : Ends (Settled n) Calm (callStep sb r e) := by
  cases r with
  | error p => exact h
  | ok w =>
    rw [callStep]
    split_ifs with halive
    · have hcall : wp (syscall sb e.1 e.2) (fun _ => Settled n) Calm w := syscall_ok e.2 h halive
      cases hx : syscall sb e.1 e.2 w with
      | ok r =>
        have hr := wp_ok hcall hx
        exact hr
      | error p =>
        have hp := wp_error hcall hx
        exact hp
    · exact h

def initProc : Proc := { state := .running, pid := 1, cwd := some 0 }

/-- The state in which the first process starts, on any volume: it is in slot 0, its directory is
the root, and nothing else is open. -/
def boot (dinode : Nat → Dinode) (bitmap : Nat → Bool) (data : Nat → Block) (n : Int) : World where
  fs :=
    { dinode := dinode
      bitmap := bitmap
      data := data
      inode := fun i => if i = 0 then { inum := ROOTINO, ref := 1 } else {}
      kernel :=
        { proc := fun p => if p = 0 then initProc else {}
          nextpid := 2 } }
  outstanding := n

theorem referrers_boot (dinode : Nat → Dinode) (bitmap : Nat → Bool) (data : Nat → Block) (n : Int)
    (i : Slot) : referrers (boot dinode bitmap data n).fs.kernel (boot dinode bitmap data n).fs.file i =
      if i = 0 then 1 else 0 := by
  have hcwd : ∀ p, ((boot dinode bitmap data n).fs.kernel.proc p).holds i =
      if p = 0 then (if i = 0 then 1 else 0) else 0 := by
    intro p
    by_cases hp : p = 0
    · simp [boot, initProc, hp, Proc.holds, eq_comm]
    · simp [boot, hp, Proc.holds]
  have hfile : ∀ f, ((boot dinode bitmap data n).fs.file f).holds i = 0 := by
    intro f
    simp [boot, File.holds]
  simp only [referrers, hcwd, hfile, Finset.sum_ite_eq', Finset.mem_univ, if_true,
    Finset.sum_const_zero, add_zero]

theorem settled_boot (dinode : Nat → Dinode) (bitmap : Nat → Bool) (data : Nat → Block) (n : Int) :
    Settled n (boot dinode bitmap data n) := by
  have hproc : ∀ p, ((boot dinode bitmap data n).fs.kernel.proc p).ofile = fun _ => none := by
    intro p
    show Proc.ofile (if p = 0 then _ else _) = _
    split_ifs <;> rfl
  have hinode : ∀ i : Slot, 0 < ((boot dinode bitmap data n).fs.inode i).ref → i = 0 := by
    intro i hi
    by_contra hne
    have hi' : 0 < (if i = 0 then ({ inum := ROOTINO, ref := 1 } : Inode) else {}).ref := hi
    rw [if_neg hne] at hi'
    exact absurd hi' (by decide)
  refine ⟨rfl, ⟨rfl, rfl, fun i j hi hj _ => ?_, fun i => ?_, fun i => ?_⟩, fun f => ?_, fun f _ => rfl,
    ⟨?_, ?_, ?_⟩, fun p hp => ⟨?_, fun fd => by rw [hproc]⟩, rfl⟩
  · rw [hinode i hi, hinode j hj]
  · show ((boot dinode bitmap data n).fs.inode i).ref =
      (referrers (boot dinode bitmap data n).fs.kernel (boot dinode bitmap data n).fs.file i : Int) + _
    rw [referrers_boot]
    by_cases hi : i = 0
    · simp [boot, hi]
    · simp [boot, hi]
  · show (if i = 0 then ({ inum := ROOTINO, ref := 1 } : Inode) else {}).locked = true ↔ _
    split_ifs <;> simp
  · show (0 : Int) = (∑ p, opens _ f : Nat) + _
    simp [opens, hproc]
  · rintro f g pi writable ⟨htype, -⟩
    cases htype
  · intro pi
    refine ⟨fun h => Bool.noConfusion h, ?_⟩
    rintro ⟨f, writable, htype, -⟩
    cases htype
  · intro pi ends hpi
    cases hpi
  · have hp' : ¬ (if p = 0 then initProc else {}).Alive := hp
    show (if p = 0 then initProc else {}).cwd = none
    split_ifs at hp' ⊢
    · exact absurd (by decide) hp'
    · rfl

/-- The counts of the open files, and the pipes with the ends that are open. -/
structure FilesExact (w : World) : Prop where
  refs : ∀ f, (w.fs.file f).ref = descriptors w.fs.kernel f
  closed : ∀ f, (w.fs.file f).ref = 0 → (w.fs.file f).type = .none
  live : ∀ pi, (w.pipe pi).isSome ↔ ∃ f writable, IsEnd w f pi writable
  flags : ∀ pi ends, w.pipe pi = some ends →
    ∀ writable, ends.isOpen writable = true ↔ ∃ f, IsEnd w f pi writable

/-- The references of the inode table, with no lock held and `n` transactions open. -/
structure InodesBalanced (n : Int) (w : World) : Prop where
  unique : ∀ i j, 0 < (w.fs.inode i).ref → 0 < (w.fs.inode j).ref →
    (w.fs.inode i).inum = (w.fs.inode j).inum → i = j
  refs : ∀ i, (w.fs.inode i).ref = referrers w.fs.kernel w.fs.file i
  unlocked : ∀ i, (w.fs.inode i).locked = false
  outstanding : w.outstanding = n

theorem Settled.filesExact (h : Settled n w) : FilesExact w := by
  refine ⟨fun f => ?_, h.closed, h.pipes.live, h.pipes.flags⟩
  rw [h.refs f, List.count_nil, Nat.cast_zero, add_zero]

theorem Settled.inodesBalanced (h : Settled n w) : InodesBalanced n w := by
  refine ⟨h.slots.unique, fun i => ?_, fun i => ?_, h.outstanding⟩
  · rw [h.slots.refs i, List.count_nil, Nat.cast_zero, add_zero]
    rfl
  · have hi := h.slots.locked i
    cases hl : (w.fs.inode i).locked with
    | false => rfl
    | true => exact absurd (hi.mp hl) List.not_mem_nil

theorem always_boot {P : World → Prop} {E : CallPanic → Prop} (hP : ∀ w, Settled n w → P w)
    (hE : ∀ e, Calm e → E e) (dinode : Nat → Dinode) (bitmap : Nat → Bool) (data : Nat → Block)
    (es : List (Fin NPROC × Syscall)) :
    Always (callStep sb) (Ends P E) (.ok (boot dinode bitmap data n)) es := by
  have hboot : Ends (Settled n) Calm (.ok (boot dinode bitmap data n)) :=
    settled_boot dinode bitmap data n
  exact always_of_inv (fun _ e h => callStep_settled e h) (fun _ h => h.imp hP hE) hboot es

theorem file_refs_exact (sb : Superblock) (dinode : Nat → Dinode) (bitmap : Nat → Bool)
    (data : Nat → Block) (n : Int) (es : List (Fin NPROC × Syscall)) :
    Always (callStep sb) (Ends FilesExact Calm) (.ok (boot dinode bitmap data n)) es :=
  always_boot (fun _ h => h.filesExact) (fun _ he => he) dinode bitmap data es

theorem inode_refs_balanced (sb : Superblock) (dinode : Nat → Dinode) (bitmap : Nat → Bool)
    (data : Nat → Block) (n : Int) (es : List (Fin NPROC × Syscall)) :
    Always (callStep sb) (Ends (InodesBalanced n) fun _ => True) (.ok (boot dinode bitmap data n)) es :=
  always_boot (fun _ h => h.inodesBalanced) (fun _ _ => trivial) dinode bitmap data es

end OsProject.Calls
