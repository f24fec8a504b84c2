import OsProject.ProcessRefs

/-! `exec.c` and the references of the call: a program is loaded with the inode locked, and on every
path the lock, the reference and the transaction are given back. -/

namespace OsProject.Calls

open Vm (Machine KernelM KernelPanic onPhys)

variable {sb : Superblock} {o : Outside} {held locks : List Slot} {n : Int} {m : Machine}
  {ip : Slot} {α : Type} {L : Vm.Layout}

structure Loading (o : Outside) (held locks : List Slot) (n : Int) (m : Machine) : Prop where
  slots : Held o held locks m.fs
  outstanding : m.outstanding = n

abbrev Mild (e : KernelPanic) : Prop := Calm (ofKernel e)

abbrev Loads (o : Outside) (held locks : List Slot) (n : Int) (x : KernelM α) : Prop :=
  Maintains (Loading o held locks n) Mild x

theorem onPhys_loads (x : Vm.VmM α) : Loads o held locks n (onPhys x) := by
  intro m h
  rw [onPhys, wp_zoom]
  unfold wp
  split
  · exact ⟨h.slots, h.outstanding⟩
  · trivial

theorem onFs_loads {x : FsM α} (hx : ∀ t, Still t x) : Loads o held locks n (Vm.onFs x) := by
  intro m h
  rw [Vm.onFs, wp_zoom]
  exact wp_post (h.slots.still (hx _)) fun _ _ hs => ⟨hs, h.outstanding⟩

theorem readKernel_loads (off k : Nat) : Loads o held locks n (Vm.readKernel sb ip off k) :=
  onFs_loads fun _ => readi_still ip _ off k

theorem loadPages_loads (pagetable va offset sz turns i : Nat) :
    Loads o held locks n (Vm.loadPages sb pagetable va ip offset sz turns i) := by
  induction turns generalizing i with
  | zero => exact .ite (.throw trivial) (.pure _)
  | succ turns ih =>
    refine .ite ((onPhys_loads _).bind fun pa => ?_) (.pure _)
    refine .ite (.throw trivial) ?_
    exact (readKernel_loads _ _).bind fun r => (onPhys_loads _).bind fun _ =>
      .ite (.pure _) (ih _)

theorem loadseg_loads (pagetable va offset sz : Nat) :
    Loads o held locks n (Vm.loadseg sb pagetable va ip offset sz) := by
  rw [Vm.loadseg]
  exact loadPages_loads _ _ _ _ _ _

theorem loadSegment_loads (pagetable off sz : Nat) :
    Loads o held locks n (Vm.loadSegment L sb pagetable ip off sz) := by
  refine (readKernel_loads _ _).bind fun r => .ite (.pure _) ?_
  dsimp only
  generalize Vm.ProgHdr.ofBytes r.2 = ph
  generalize (ph.vaddr + ph.memsz) % 2 ^ 64 = top
  refine .ite (.pure _) (.ite (.pure _) (.ite (.pure _) (.ite (.pure _) ?_)))
  refine (onPhys_loads _).bind fun sz1 => .ite (.pure _) ?_
  exact (loadseg_loads _ _ _ _).bind fun r => .ite (.pure _) (.pure _)

theorem loadSegments_loads (pagetable count off sz : Nat) :
    Loads o held locks n (Vm.loadSegments L sb pagetable ip count off sz) := by
  induction count generalizing off sz with
  | zero => exact .pure _
  | succ count ih => exact (loadSegment_loads _ _ _).bind fun r => .ite (ih _ _) (.pure _)

theorem pushArgs_loads (p : Vm.AddrSpace) (pagetable stackbase : Nat) (argv : List (List UInt8))
    (sp : Nat) (ustack : List Nat) :
    Loads o held locks n (Vm.pushArgs L p pagetable stackbase argv sp ustack) := by
  induction argv generalizing sp ustack with
  | nil => exact .pure _
  | cons arg argv ih =>
    unfold Vm.pushArgs
    refine .ite (.pure _) ?_
    dsimp only
    exact .ite (.pure _) ((onPhys_loads _).bind fun r => .ite (.pure _) (ih _ _))

theorem buildStack_loads (p : Vm.AddrSpace) (pagetable sz : Nat) (argv : List (List UInt8)) :
    Loads o held locks n (Vm.buildStack L p pagetable sz argv) := by
  refine (onPhys_loads _).bind fun sz1 => .ite (.pure _) ?_
  dsimp only
  generalize Vm.sub64 sz1 (Vm.USERSTACK * Vm.PGSIZE) = stackbase
  generalize Vm.uvmclear pagetable _ = clear
  refine (onPhys_loads clear).bind fun _ => (pushArgs_loads p pagetable _ argv sz1 []).bind ?_
  rintro (_ | ⟨sp, ustack⟩)
  · exact .pure _
  · exact .ite (.pure _) ((onPhys_loads _).bind fun r => .ite (.pure _) (.pure _))

theorem getProc_loads (me : Fin NPROC) : Loads o held locks n (Vm.getProc me) :=
  .get_bind fun _ => .pure _

theorem modProc_loads (me : Fin NPROC) (f : Vm.Process → Vm.Process) :
    Loads o held locks n (Vm.modProc me f) :=
  .modify fun _ h => ⟨h.slots, h.outstanding⟩

theorem execCommit_loads (me : Fin NPROC) (path : List UInt8) (pagetable sz sp entry : Nat) :
    Loads o held locks n (Vm.execCommit L me path pagetable sz sp entry) :=
  (getProc_loads me).bind fun _ => (onPhys_loads _).bind fun _ =>
    (modProc_loads me _).bind fun _ => (onPhys_loads _).bind fun _ => (onPhys_loads _).bind fun _ =>
      onPhys_loads _

section Kexec

variable {me : Fin NPROC} (hcwd : ∀ d, (o.kernel.proc me).cwd = some d → 0 < o.hold d)

theorem beginOp_loads (h : Loading o held locks n m) :
    wp Vm.beginOp (fun _ m' => Loading o held locks (n + 1) m') Mild m :=
  ⟨h.slots, congrArg (· + 1) h.outstanding⟩

theorem endOp_loads (h : Loading o held locks (n + 1) m) :
    wp Vm.endOp (fun _ m' => Loading o held locks n m') Mild m := by
  refine ⟨h.slots.of_table rfl, ?_⟩
  show m.outstanding - 1 = n
  rw [h.outstanding, Int.add_sub_cancel]

theorem onFs_loading {x : FsM α} {held' locks' : α → List Slot} (h : Loading o held locks n m)
    (hx : wp x (fun a s => Held o (held' a) (locks' a) s) Quiet m.fs) :
    wp (Vm.onFs x) (fun a m' => Loading o (held' a) (locks' a) n m') Mild m := by
  rw [Vm.onFs, wp_zoom]
  exact wp_post hx fun _ _ hs => ⟨hs, h.outstanding⟩

theorem iunlockput_loads (h : Loading o [ip] [ip] n m) :
    wp (Vm.onFs (iunlockput sb ip)) (fun _ m' => Loading o [] [] n m') Mild m :=
  onFs_loading h (iunlockput_held h.slots (mem_locks_cons (List.not_mem_nil)))

theorem execBad_loads (pagetable : Option Nat) (sz : Nat) (h : Loading o [ip] [ip] (n + 1) m) :
    wp (Vm.execBad L sb pagetable sz (some ip)) (fun _ m' => Loading o [] [] n m') Mild m := by
  unfold Vm.execBad
  refine wp_seq (onPhys_loads _ m h) fun _ m1 h1 => ?_
  refine wp_seq (iunlockput_loads h1) fun _ m2 h2 => ?_
  exact wp_seq (endOp_loads h2) fun _ _ h3 => h3

theorem execBad_none_loads (pagetable : Option Nat) (sz : Nat) :
    Loads o held locks n (Vm.execBad L sb pagetable sz none) :=
  (onPhys_loads _).bind fun _ => .pure _

include hcwd in
theorem kexec_loads (path : List UInt8) (argv : List (List UInt8)) (h : Loading o [] [] n m) :
    wp (Vm.kexec L sb me path argv) (fun _ m' => Loading o [] [] n m') Mild m := by
  rw [Vm.kexec]
  refine wp_seq (beginOp_loads h) fun _ m1 h1 => ?_
  refine wp_seq (onFs_loading h1 (namei_held hcwd path h1.slots)) ?_
  rintro (_ | ip) m2 h2
  · exact wp_seq (endOp_loads h2) fun _ _ h3 => h3
  · refine wp_seq (onFs_loading h2 (wp_post (ilock_held h2.slots) fun _ _ hs => hs.2))
      fun _ m3 h3 => ?_
    refine wp_seq (readKernel_loads _ _ m3 h3) fun r m4 h4 => ?_
    dsimp only
    split_ifs
    · exact execBad_loads _ _ h4
    · exact execBad_loads _ _ h4
    refine wp_seq (getProc_loads me m4 h4) fun p m5 h5 => ?_
    refine wp_seq (onPhys_loads _ m5 h5) ?_
    rintro (_ | pagetable) m6 h6
    · exact execBad_loads _ _ h6
    · refine wp_seq (loadSegments_loads _ _ _ _ m6 h6) ?_
      rintro ⟨ok, sz⟩ m7 h7
      cases ok with
      | false =>
        show wp (Vm.execBad L sb (some pagetable) sz (some ip)) _ _ _
        exact execBad_loads _ _ h7
      | true =>
        refine wp_seq (iunlockput_loads h7) fun _ m8 h8 => ?_
        refine wp_seq (endOp_loads h8) fun _ m9 h9 => ?_
        refine wp_seq (buildStack_loads _ _ _ _ m9 h9) ?_
        rintro ⟨sz, _ | ⟨sp, argc⟩⟩ m' h'
        · exact execBad_none_loads _ _ m' h'
        · exact wp_seq (execCommit_loads _ _ _ _ _ _ m' h') fun _ _ h'' => h''

end Kexec

theorem sysExec_ok {me : Fin NPROC} {w : World} {n : Int} (L : Vm.Layout) (phys : Vm.Phys)
    (space : Fin NPROC → Vm.Process) (path : List UInt8) (argv : List (List UInt8))
    (h : Settled n w) : wp (sysExec sb L me phys space path argv) (fun _ w' => Settled n w') Calm w := by
  rw [sysExec, wp_zoom]
  refine wp_post (kexec_loads (WorldOk.hold_cwd h rfl) path argv ⟨h.slots, h.outstanding⟩) ?_
  intro _ m hm
  have hw : WorldOk ⟨w.fs.kernel, w.fs.kernel, n⟩ [] [] [] { w with fs := m.fs } :=
    WorldOk.table h hm.slots
  exact WorldOk.settled ⟨hw.kernel, hw.slots, hw.refs, hw.closed,
    ⟨hw.pipes.one, hw.pipes.live, hw.pipes.flags⟩, hw.idle, hm.outstanding⟩

end OsProject.Calls
