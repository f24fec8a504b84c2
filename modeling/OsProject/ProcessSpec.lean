import OsProject.FileSpec

/-! The system calls that change the directories of processes: `chdir`, `fork`, `exit` and `wait`. -/

namespace OsProject

variable {sb : Superblock} {s s' : Fs} {held : List Slot} {ip : Slot} {T : Prop}
  {me p : Fin NPROC} {k : Kernel}

def Proc.Alive (p : Proc) : Prop := p.state ≠ .unused ∧ p.state ≠ .zombie

instance (p : Proc) : Decidable p.Alive := inferInstanceAs (Decidable (_ ∧ _))

theorem procOk_of_alive {x : Proc} (h : x.Alive) : ProcOk x := fun hx =>
  (hx.elim h.1 h.2).elim

theorem Sys.enter (h : Sys sb s [ip]) (hnone : (s.kernel.proc p).cwd = none)
    (hothers : ∀ q, q ≠ p → (k.proc q).cwd = (s.kernel.proc q).cwd)
    (hcwd : (k.proc p).cwd = some ip) (hprocs : ∀ q, ProcOk (k.proc q))
    (hkind : s.kindAt ip ≠ .free) : Sys sb { s with kernel := k } [] where
  ok := by
    have hcount : ∀ i, holders { s with kernel := k } i = holders s i + [ip].count i := fun i => by
      have hsum := sum_add_of_eq_off (f := fun q => (k.proc q).holds i)
        (g := fun q => (s.kernel.proc q).holds i) p fun q hq => by
          simp only [Proc.holds, hothers q hq]
      have hp : (k.proc p).holds i = [ip].count i := Proc.holds_eq_ite hcwd i
      have hz : (s.kernel.proc p).holds i = 0 := by simp [Proc.holds, hnone]
      simp only [holders] at hsum ⊢
      omega
    have hok := h.ok.gain hcount hkind
    exact ⟨hok.cache, hok.vol⟩
  files := h.files
  procs := hprocs

theorem Sys.setCwd_none (h : Sys sb s held)
    (hs : Reaches sb (holders (s.setCwd me none)) held s s' held [] s'.graph) :
    Sys sb (s'.setCwd me none) held := by
  have hfiles : ∀ f, FileOk (s.setCwd me none).kindAt ((s.setCwd me none).file f) := h.files
  have hprocs : ∀ p, ProcOk ((s.setCwd me none).kernel.proc p) :=
    (Function.forall_update_iff _ (p := fun _ y => ProcOk y)).mpr
      ⟨fun _ => rfl, fun q _ => h.procs q⟩
  have hs' : Reaches sb (holders (s.setCwd me none)) held (s.setCwd me none)
      (s'.setCwd me none) held [] s'.graph := by
    refine ⟨⟨hs.ok.cache, hs.ok.vol⟩, ⟨hs.kept.file, ?_, hs.kept.slot, hs.kept.kind⟩, rfl⟩
    simp only [Fs.setCwd, hs.kept.kernel]
  exact .of_reaches hfiles hprocs hs'

theorem putCwd_spec (h : Sys sb s held) (hheld : ∀ c, (s.kernel.proc me).cwd = some c → c ∉ held) :
    wp (putCwd sb me) (fun _ s' => Sys sb (s'.setCwd me none) held ∧ s.graph.Drops s'.graph ∧
      Kept (holders (s.setCwd me none)) held s s') (Err T) s := by
  simp only [putCwd, wp_bind, wp_get]
  cases hc : (s.kernel.proc me).cwd with
  | none => simp [Err]
  | some c =>
    have hpos := holders_pos_of_cwd hc
    have hsum : ∀ i, holders (s.setCwd me none) i + [c].count i = holders s i := fun i => by
      have hi := holders_setProc s me { s.kernel.proc me with cwd := none } i
      rwa [Proc.holds_eq_ite hc, Proc.holds, if_neg (by simp), Nat.add_zero] at hi
    have hkind : (s.graph (s.inode c).inum).kind ≠ .free := by
      rw [Fs.graph, graphOf_kind]
      exact h.ok.cache.alloc c hpos
    refine wp_post (iput_last (h.ok.release hsum) (List.Perm.refl _) (hheld c hc) fun hz =>
      h.ok.valid_of_orphan hpos hz) ?_
    intro _ s1 hs1
    refine ⟨h.setCwd_none ⟨hs1.ok, hs1.kept, rfl⟩, ?_, hs1.kept⟩
    rw [hs1.graph]
    exact Graph.drops_ite _ hkind

theorem Sys.setCwd_some (h : Sys sb (s.setCwd me none) [ip])
    (halive : (s.kernel.proc me).Alive) (hkind : s.kindAt ip ≠ .free) :
    Sys sb (s.setCwd me (some ip)) [] := by
  have henter := h.enter (k := (s.setCwd me (some ip)).kernel) (p := me) (by simp [Fs.setCwd])
    (fun q hq => ?_) (by simp [Fs.setCwd]) (fun q => ?_) hkind
  · exact henter
  · simp only [Fs.setCwd, Kernel.setProc_of_ne _ hq]
  · by_cases hq : q = me
    · rw [hq, Fs.setCwd, Kernel.setProc_same]
      exact procOk_of_alive halive
    · have hp := h.procs q
      rw [Fs.setCwd, Kernel.setProc_of_ne _ hq] at hp ⊢
      exact hp

theorem chdirTo_spec (h : Sys sb s [ip]) (halive : (s.kernel.proc me).Alive)
    (hv : (s.inode ip).valid = true) :
    wp (putCwd sb me) (fun _ s' => Sys sb (s'.setCwd me (some ip)) [] ∧
      s.graph.Drops s'.graph) (Err T) s := by
  by_cases hself : (s.kernel.proc me).cwd = some ip
  · -- The process stays where it is, and one of the two references goes.
    simp only [putCwd, wp_bind, wp_get, hself]
    refine wp_post (iput_keep h.ok (List.Perm.refl _) (by simp)) ?_
    intro _ s1 hs1
    have hsame : s1.setCwd me (some ip) = s1 := by
      rw [← hself, ← hs1.kept.kernel]
      simp [Fs.setCwd, Kernel.setProc]
    rw [hsame, hs1.graph]
    exact ⟨h.reaches hs1, .refl⟩
  · refine wp_post (putCwd_spec h fun c hc hmem => ?_) ?_
    · rw [List.mem_singleton.mp hmem] at hc
      exact hself hc
    · rintro _ s1 ⟨h1, hdrops, hkept⟩
      have hv1 := (hkept.slot ip (.inr (by simp))).2 hv
      obtain ⟨hkind, -, hty⟩ := h1.ok.slot_node (.inr (by simp : ip ∈ [ip])) hv1
      refine ⟨h1.setCwd_some (by rwa [hkept.kernel]) fun hfree => hty ?_, hdrops⟩
      rw [← hkind]
      exact hfree

theorem sysChdir_spec (path : Option (List UInt8)) (h : Sys sb s [])
    (halive : (s.kernel.proc me).Alive) (hT : ¬ NoDangling s.graph → T) :
    wp (sysChdir sb me path) (fun _ s' => Sys sb s' [] ∧ s.graph.Drops s'.graph) (Err T) s := by
  have hcwd : ∀ c, (s.kernel.proc me).cwd = some c → 0 < holders s c := fun _ =>
    holders_pos_of_cwd
  have hsame : ∀ {s' : Fs}, Reaches sb (holders s) [] s s' [] [] s.graph →
      Sys sb { s' with logged := [] } [] ∧ s.graph.Drops ({ s' with logged := [] } : Fs).graph :=
    fun hs => ⟨h.reaches (hs.logged []), by rw [(hs.logged []).graph]; exact .refl⟩
  cases hp : argstr path with
  | none =>
    simp only [sysChdir, beginOp_fs, endOp_fs, hp, wp_bind, wp_pure, wp_modify]
    exact hsame (.refl h.ok)
  | some p =>
    simp only [sysChdir, liftM_fs, beginOp_fs, endOp_fs, hp, wp_bind, wp_pure]
    refine wp_post (namei_spec h.ok (by simp) hT hcwd) ?_
    rintro r s1 (⟨rfl, hs1⟩ | ⟨ip, rfl, hs1, hfree, -⟩)
    · simp only [wp_bind, wp_modify, wp_pure]
      exact hsame hs1
    simp only [wp_bind]
    have hmem : 0 < holders s ip ∨ ip ∈ [ip] := .inr (by simp)
    refine wp_post (ilock_spec hs1.ok hmem (by rwa [hs1.graph])) ?_
    rintro _ s2 ⟨hs2, hv2, -, -⟩
    have hs02 := hs1.same (hs2.mono (List.nil_subset _)) (List.Subset.refl _)
    simp only [getInode, wp_bind, wp_get, wp_pure, wp_ite, wp_modify]
    refine ⟨fun _ => ?_, fun _ => ?_⟩
    · refine wp_post (iunlockput_keep hs2.ok (List.Perm.refl _) (by simp)) ?_
      exact fun _ s3 hs3 => hsame (hs02.same hs3 (List.Subset.refl _))
    · refine wp_post (iunlock_spec hs2.ok hmem) ?_
      intro _ s3 hs3
      have hs03 := hs02.same (hs3.mono (List.nil_subset _)) (List.Subset.refl _)
      refine wp_post (chdirTo_spec (h.reaches hs03) (by rwa [hs03.kept.kernel])
        ((hs3.kept.slot ip hmem).2 hv2)) ?_
      rintro _ s4 ⟨h4, hdrops⟩
      rw [hs03.graph] at hdrops
      exact ⟨h4.logged [], hdrops⟩

theorem closeFd_spec (fd : Fin NOFILE) (h : Sys sb s []) :
    wp (closeFd sb me fd) (fun _ s' => Sys sb s' [] ∧ s.graph.Drops s'.graph) (Err T) s := by
  simp only [closeFd, liftM_fs, getFs, dropFd, wp_bind, wp_get]
  cases hf : (s.kernel.proc me).ofile fd with
  | none => exact ⟨h, .refl⟩
  | some f =>
    simp only [wp_bind, wp_modify]
    refine wp_post (fileclose_spec h) ?_
    exact fun _ s1 hs1 => ⟨hs1.1.setFd me fd none, hs1.2.1⟩

theorem Kernel.reparent_same (k : Kernel) (me i : Fin NPROC) :
    ((k.reparent me).proc i).cwd = (k.proc i).cwd ∧
      ((k.reparent me).proc i).ofile = (k.proc i).ofile ∧
      ((k.reparent me).proc i).state = (k.proc i).state := by
  simp only [Kernel.reparent]
  split_ifs <;> exact ⟨rfl, rfl, rfl⟩

theorem Sys.setExit (h : Sys sb (s.setCwd me none) []) (status : Int) :
    Sys sb { s with kernel := exited s.kernel me status } [] := by
  obtain ⟨k, hk⟩ : ∃ k, k = exited s.kernel me status := ⟨_, rfl⟩
  have hset : Sys sb { s.setCwd me none with kernel := k } [] := by
    refine h.setKernel (fun p => ?_) fun p => ?_
    · by_cases hp : p = me
      · rw [hk, hp, exited, Kernel.setProc_same, Fs.setCwd, Kernel.setProc_same]
        rfl
      · rw [hk, exited, Kernel.setProc_of_ne _ hp, Fs.setCwd, Kernel.setProc_of_ne _ hp]
        exact (s.kernel.reparent_same me p).1
    · by_cases hp : p = me
      · rw [hk, hp, exited, Kernel.setProc_same]
        exact fun _ => rfl
      · have hok := h.procs p
        rw [Fs.setCwd, Kernel.setProc_of_ne _ hp] at hok
        rw [hk, exited, Kernel.setProc_of_ne _ hp, ProcOk, (s.kernel.reparent_same me p).1,
          (s.kernel.reparent_same me p).2.2]
        exact hok
  rw [← hk]
  exact hset

theorem sysExit_spec (status : Int) (h : Sys sb s []) :
    wp (sysExit sb me status) (fun _ s' => Sys sb s' [] ∧ s.graph.Drops s'.graph) (Err T) s := by
  simp only [sysExit, liftM_fs, beginOp_fs, endOp_fs, wp_ite, wp_throw, wp_bind, wp_pure, wp_modify]
  refine ⟨fun _ => by simp [Err], fun _ => ?_⟩
  refine wp_post (wp_forM (I := fun _ t => Sys sb t [] ∧ s.graph.Drops t.graph) ?_ ⟨h, .refl⟩) ?_
  · rintro fd l t ⟨ht, hdrops⟩
    refine wp_post (closeFd_spec fd ht) ?_
    exact fun _ u hu => ⟨hu.1, hdrops.trans hu.2⟩
  · rintro _ s1 ⟨h1, hdrops1⟩
    refine wp_post (putCwd_spec h1 (by simp)) ?_
    rintro _ s2 ⟨h2, hdrops2, -⟩
    exact ⟨(h2.setExit status).logged [], hdrops1.trans hdrops2⟩

theorem sysWait_spec (copyoutOk : Bool) (h : Sys sb s []) :
    wp (sysWait me copyoutOk) (fun _ s' => Sys sb s' [] ∧ s'.graph = s.graph) (Err T) s := by
  simp only [sysWait, wp_bind, wp_get]
  cases hz : zombieChild s.kernel me with
  | none =>
    simp only [wp_ite, wp_pure, wp_throw]
    exact ⟨fun _ => ⟨h, trivial⟩, fun _ => by simp [Err]⟩
  | some i =>
    have hi : (s.kernel.proc i).parent = some me ∧ (s.kernel.proc i).state = .zombie := by
      simpa using List.find?_some hz
    have hnone : (s.kernel.proc i).cwd = none := h.procs i (.inr hi.2)
    simp only [wp_ite, wp_bind, wp_modify, wp_pure]
    refine ⟨fun _ => ⟨h.setKernel (fun p => ?_) fun p => ?_, rfl⟩, fun _ => ⟨h, trivial⟩⟩
    · by_cases hp : p = i
      · rw [hp, Kernel.setProc_same]
        rfl
      · rw [Kernel.setProc_of_ne _ hp]
    · by_cases hp : p = i
      · rw [hp, Kernel.setProc_same]
        exact fun _ => hnone
      · rw [Kernel.setProc_of_ne _ hp]
        exact h.procs p

theorem kfork_cases (k : Kernel) (me : Fin NPROC) (mem : ForkMem) (hme : (k.proc me).Alive) :
    ((kfork k me mem).2.2 = none ∧ ∀ p, ((kfork k me mem).1.proc p).cwd = (k.proc p).cwd ∧
      ((kfork k me mem).1.proc p).state = (k.proc p).state ∧
      ((kfork k me mem).1.proc p).ofile = (k.proc p).ofile) ∨
    ((kfork k me mem).2.2 ≠ none ∧ ∃ i, (k.proc i).state = .unused ∧
      (kfork k me mem).1.proc i = forkChild k me i ∧
      ∀ p, p ≠ i → (kfork k me mem).1.proc p = k.proc p) := by
  cases hi : unusedSlot k with
  | none =>
    refine .inl ?_
    simp [kfork, allocproc, hi]
  | some i =>
    have hunused : (k.proc i).state = .unused := by simpa using List.find?_some hi
    have hne : me ≠ i := by
      rintro rfl
      exact hme.1 hunused
    have hfail : ∀ {k' : Kernel} {x : Proc}, k'.proc = k.proc → x.cwd = (k.proc i).cwd →
        x.state = .unused → x.ofile = (k.proc i).ofile →
        ∀ p, ((k'.setProc i x).proc p).cwd = (k.proc p).cwd ∧
          ((k'.setProc i x).proc p).state = (k.proc p).state ∧
          ((k'.setProc i x).proc p).ofile = (k.proc p).ofile := by
      intro k' x hk hcwd hstate hofile p
      by_cases hp : p = i
      · rw [hp, Kernel.setProc_same, hcwd, hstate, hofile, hunused]
        exact ⟨rfl, rfl, rfl⟩
      · rw [Kernel.setProc_of_ne _ hp, hk]
        exact ⟨rfl, rfl, rfl⟩
    cases hp : mem.page with
    | none =>
      simp only [kfork, allocproc, hi, hp]
      exact .inl ⟨trivial, hfail rfl rfl rfl rfl⟩
    | some frame =>
      cases ht : mem.pagetableOk with
      | false =>
        simp only [kfork, allocproc, hi, hp, ht, Bool.false_eq_true, if_false]
        exact .inl ⟨trivial, hfail rfl rfl rfl rfl⟩
      | true =>
        cases hc : mem.uvmcopyOk with
        | false =>
          simp only [kfork, allocproc, hi, hp, ht, hc, if_true, Bool.false_eq_true, if_false,
            Kernel.setProc_same, Kernel.setProc_setProc]
          exact .inl ⟨trivial, hfail rfl rfl rfl rfl⟩
        | true =>
          simp only [kfork, allocproc, hi, hp, ht, hc, if_true, Kernel.setProc_setProc]
          refine .inr ⟨by simp, i, hunused, ?_, fun p hpi => ?_⟩
          · rw [Kernel.setProc_same, Kernel.setProc_same, Kernel.setProc_of_ne _ hne]
            rfl
          · rw [Kernel.setProc_of_ne _ hpi]

theorem filedups_spec {l : List (Fin NOFILE)} {files : Fin NOFILE → Option (Fin NFILE)}
    (h : Sys sb s []) :
    wp (forM l fun fd =>
      match files fd with
      | some f => filedup f
      | none => pure ()) (fun _ s' => Sys sb s' [] ∧ s'.graph = s.graph ∧ s'.kernel = s.kernel)
      (Err T) s := by
  refine wp_forM (I := fun _ t => Sys sb t [] ∧ t.graph = s.graph ∧ t.kernel = s.kernel) ?_
    ⟨h, rfl, rfl⟩
  rintro fd l t ⟨ht, hg, hk⟩
  cases hf : files fd with
  | none => exact ⟨ht, hg, hk⟩
  | some f =>
    refine wp_post (filedup_spec ht) ?_
    exact fun _ u hu => ⟨hu.1, hu.2.1.trans hg, hu.2.2.1.trans hk⟩

theorem sysFork_spec (mem : ForkMem) (h : Sys sb s []) (halive : (s.kernel.proc me).Alive) :
    wp (sysFork me mem) (fun _ s' => Sys sb s' [] ∧ s'.graph = s.graph) (Err T) s := by
  simp only [sysFork, wp_bind, wp_get]
  rcases kfork_cases s.kernel me mem halive with ⟨hnone, hsame⟩ | ⟨hsome, i, hunused, hchild, hoff⟩
  · rcases hk : kfork s.kernel me mem with ⟨k, pid, none | line⟩
    · rw [hk] at hsame
      simp only [wp_bind, wp_set, wp_pure]
      refine ⟨h.setKernel (fun p => (hsame p).1) fun p => ?_, rfl⟩
      rw [ProcOk, (hsame p).1, (hsame p).2.1]
      exact h.procs p
    · rw [hk] at hnone
      exact absurd hnone (by simp)
  · rcases hk : kfork s.kernel me mem with ⟨k, pid, none | line⟩
    · rw [hk] at hsome
      exact absurd rfl hsome
    · rw [hk] at hchild hoff
      have hcwd : (k.proc i).cwd = (s.kernel.proc me).cwd := by
        rw [hchild]
        rfl
      have hi : (k.proc i).Alive := by
        rw [hchild]
        exact ⟨by simp [forkChild, copyProc], by simp [forkChild, copyProc]⟩
      refine wp_seq (filedups_spec h) ?_
      rintro _ s1 ⟨h1, hg1, hk1⟩
      cases hc : (s.kernel.proc me).cwd with
      | none => simp [Err]
      | some c =>
        have hc1 : (s1.kernel.proc me).cwd = some c := by rw [hk1, hc]
        have hpos := holders_pos_of_cwd hc1
        simp only [wp_bind, wp_modify, wp_pure]
        refine wp_post (idup_spec h1.ok hpos) ?_
        rintro _ s2 ⟨rfl, hs2, hnum⟩
        have hkernel : s2.kernel = s.kernel := hs2.kept.kernel.trans hk1
        refine ⟨(h1.reaches hs2).enter (p := i) ?_ (fun q hq => ?_) (by rw [hcwd, hc])
          (fun q => ?_) ?_, hs2.graph.trans hg1⟩
        · rw [hkernel]
          exact h.procs i (.inl hunused)
        · rw [hkernel, hoff q hq]
        · by_cases hq : q = i
          · rw [hq]
            exact procOk_of_alive hi
          · rw [hoff q hq]
            exact h.procs q
        · rw [Fs.kindAt, hs2.graph, hnum, Fs.graph, graphOf_kind]
          exact h1.ok.cache.alloc _ hpos

end OsProject
