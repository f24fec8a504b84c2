import OsProject.Holders

/-! The system calls on open files: `open`, `close`, `dup`, `read`, `write` and `fstat`. -/

namespace OsProject

variable {sb : Superblock} {s s' : Fs} {hold : Slot → Nat} {held keep : List Slot}
  {doomed : List Nat} {ip : Slot} {T : Prop} {me : Fin NPROC} {f : Fin NFILE} {g : Graph}

theorem filealloc_spec : wp filealloc (fun r s' => (r = none ∧ s' = s) ∨
    ∃ f, r = some f ∧ (s.file f).ref = 0 ∧
      s' = { s with file := Function.update s.file f { s.file f with ref := 1 } }) (Err T) s := by
  simp only [filealloc, wp_bind, wp_get]
  cases hf : (List.finRange NFILE).find? fun f => (s.file f).ref = 0 with
  | none => simp
  | some f =>
    have hz : (s.file f).ref = 0 := by simpa using List.find?_some hf
    simp only [wp_bind, wp_modify, wp_pure]
    exact .inr ⟨f, rfl, hz, rfl⟩

theorem fdalloc_spec : wp (fdalloc me f) (fun r s' => (r = none ∧ s' = s) ∨
    ∃ fd, r = some fd ∧ s' = s.setFd me fd (some f)) (Err T) s := by
  simp only [fdalloc, wp_bind, wp_get]
  cases hf : (List.finRange NOFILE).find? fun fd => (s.kernel.proc me).ofile fd = none with
  | none => simp
  | some fd =>
    simp only [wp_bind, wp_modify, wp_pure]
    exact .inr ⟨fd, rfl, rfl⟩

theorem filedup_spec (h : Sys sb s held) :
    wp (filedup f) (fun _ s' => Sys sb s' held ∧ s'.graph = s.graph ∧ s'.kernel = s.kernel ∧
      s'.inode = s.inode) (Err T) s := by
  simp only [filedup, wp_bind, wp_get, wp_ite, wp_throw, wp_modify]
  refine ⟨fun _ => by simp [Err], fun hpos => ⟨h.setFile (fun _ => rfl) ?_, rfl, trivial, trivial⟩⟩
  refine ⟨fun hz => ?_, (h.files f).2⟩
  simp only at hz
  omega

theorem fileclose_spec (h : Sys sb s []) :
    wp (fileclose sb f) (fun _ s' => Sys sb s' [] ∧ s.graph.Drops s'.graph ∧
      s'.kernel = s.kernel) (Err T) s := by
  have hidle (hno : ¬ ((s.file f).type = .inode ∨ (s.file f).type = .device)) :
      Sys sb { s with file := Function.update s.file f { s.file f with ref := 0, type := .none } }
        [] ∧ s.graph.Drops s.graph ∧ s.kernel = s.kernel := by
    refine ⟨h.setFile (fun i => ?_) ⟨fun _ => rfl, fun hf => by simp at hf⟩, .refl, rfl⟩
    rw [File.holds_eq_zero rfl, File.holds, if_neg fun hc => hno hc.1]
  simp only [fileclose, liftM_fs, getFs, setFile, wp_bind, wp_get, wp_ite, wp_throw, wp_modify]
  refine ⟨fun _ => by simp [Err], fun hpos => ⟨fun hmore => ?_, fun hlast =>
    ⟨fun hpipe => hidle (by simp [hpipe]), fun _ => ⟨fun hino => ?_, hidle⟩⟩⟩⟩
  · refine ⟨h.setFile (fun _ => rfl) ⟨fun hz => ?_, (h.files f).2⟩, .refl, trivial⟩
    simp only at hz
    omega
  · -- The file no longer counts as a holder; the call gives its reference back.
    let s1 : Fs :=
      { s with file := Function.update s.file f { s.file f with ref := 0, type := .none } }
    have hsum : ∀ i, holders s1 i + [(s.file f).ip].count i = holders s i := fun i => by
      have hi := holders_setFile s f { s.file f with ref := 0, type := .none } i
      rwa [File.holds_eq_zero (x := { s.file f with ref := 0, type := .none }) rfl,
        File.holds_eq_ite hino, Nat.add_zero] at hi
    have hpos' := holders_pos_of_file hino
    have hok := h.ok.release hsum
    have hok1 : FsOk sb s1 (holders s1) [(s.file f).ip] [(s1.inode (s.file f).ip).inum] :=
      ⟨hok.cache, hok.vol⟩
    have hkind : (s.graph (s.inode (s.file f).ip).inum).kind ≠ .free := by
      rw [Fs.graph, graphOf_kind]
      exact h.ok.cache.alloc _ hpos'
    have hfiles : ∀ f', FileOk s1.kindAt (s1.file f') :=
      (Function.forall_update_iff _ (p := fun _ y => FileOk s.kindAt y)).mpr
        ⟨⟨fun _ => rfl, fun hf => by simp at hf⟩, fun f' _ => h.files f'⟩
    simp only [beginOp_fs, endOp_fs, wp_pure]
    refine wp_post (iput_last hok1 (List.Perm.refl _) (by simp) fun hz =>
      h.ok.valid_of_orphan hpos' hz) ?_
    intro _ s2 hs2
    refine ⟨(Sys.of_reaches hfiles h.procs hs2).logged [], ?_, hs2.kept.kernel⟩
    have hdrops := Graph.drops_ite (holders s1 (s.file f).ip = 0) hkind
    have hgraph : ({ s2 with logged := [] } : Fs).graph = _ := hs2.graph
    rw [hgraph]
    exact hdrops

theorem Truncated.reaches {d : Dinode} (ht : Truncated sb ip s d s')
    (h : FsOk sb s hold held doomed) (hr : 0 < (s.inode ip).ref)
    (hv : (s.inode ip).valid = true) (hdir : (s.inode ip).type ≠ .dir) :
    Reaches sb hold keep s s' held doomed s.graph := by
  have hok := ht.fsOk h hr hv
  obtain ⟨hco, hty⟩ := h.cache.coherent ip hr hv
  obtain ⟨a, hd⟩ := ht.inode
  have hgraph : s'.graph = s.graph := by
    obtain ⟨bm, l, rfl⟩ := ht.state
    have htype : d.type = (s.dinode (s.inode ip).inum).type := by rw [hd, ← hco]
    have hlink : d.nlink = (s.dinode (s.inode ip).inum).nlink := by rw [hd, ← hco]
    have hnd : (s.dinode (s.inode ip).inum).type ≠ .dir := by rwa [← hco]
    funext m
    by_cases hm : m = (s.inode ip).inum
    · subst hm
      refine graphOf_congr ?_ ?_ (fun hdir' => absurd hdir' hnd) fun hdir' => absurd hdir' hnd
      · simp only [Function.update_self, htype]
      · simp only [Function.update_self, hlink]
    · exact graphOf_update_of_ne hm
  refine ⟨hok, ?_, hgraph⟩
  refine ⟨?_, ?_, fun i _ => ?_, fun i _ => by rw [hgraph]⟩
  all_goals obtain ⟨bm, l, rfl⟩ := ht.state
  · rfl
  · rfl
  · by_cases he : i = ip <;> simp [he]

theorem fileclose_reserved (h : Sys sb s held) (href : (s.file f).ref = 1)
    (hnone : (s.file f).type = .none) :
    wp (fileclose sb f) (fun _ s' => Sys sb s' held ∧ s'.graph = s.graph) (Err T) s := by
  simp only [fileclose, liftM_fs, getFs, setFile, href, hnone, wp_bind, wp_get, wp_ite, wp_throw,
    wp_modify, wp_pure]
  refine ⟨by omega, fun _ => ⟨by omega, fun _ => ⟨fun hc => by simp at hc, fun _ =>
    ⟨fun hc => by simp at hc, fun _ => ⟨?_, rfl⟩⟩⟩⟩⟩
  refine h.setFile (fun i => ?_) ⟨fun _ => rfl, fun hf => by simp at hf⟩
  rw [File.holds_eq_zero rfl, File.holds_eq_zero hnone]

theorem itrunc_file (h : Sys sb s held) (hi : 0 < holders s ip ∨ ip ∈ held)
    (hv : (s.inode ip).valid = true) (hdir : (s.inode ip).type ≠ .dir) :
    wp (itrunc sb ip) (fun _ s' => Reaches sb (holders s) held s s' held [] s.graph) (Err T) s := by
  have hr := h.ok.ref_pos hi
  refine wp_post (itrunc_spec h.ok hr hv) ?_
  rintro _ s' ⟨d, ht⟩
  exact ht.reaches h.ok hr hv hdir

theorem openFile_spec {omode : BitVec 32} {fd : Fin NOFILE} (h : Sys sb s [ip])
    (hv : (s.inode ip).valid = true)
    (hdir : (s.inode ip).type = .dir → omode &&& O_WRONLY = 0 ∧ omode &&& O_RDWR = 0)
    (href : (s.file f).ref = 1) (hnone : (s.file f).type = .none) :
    wp (openFile sb ip (s.inode ip) omode f fd)
      (fun _ s' => Sys sb s' [] ∧ s'.graph = s.graph) (Err T) s := by
  obtain ⟨hkind, -, hty⟩ := h.ok.slot_node (.inr (by simp : ip ∈ [ip])) hv
  obtain ⟨x, hx⟩ : ∃ x, x = opened (s.inode ip) ip omode (s.file f) := ⟨_, rfl⟩
  have htype : x.type = .inode ∨ x.type = .device := by
    by_cases hd : (s.inode ip).type = .device <;> simp [hx, opened, hd]
  have hxip : x.ip = ip := by rw [hx]; rfl
  have hok : FileOk s.kindAt x := by
    refine ⟨fun hz => by simp [hx, opened, href] at hz, fun _ hw hk => ?_⟩
    have hd := hdir (hkind ▸ hxip ▸ hk)
    simp [hx, opened, hd] at hw
  have h1 := h.install hnone htype hxip hok fun hz => hty (hkind ▸ hz)
  obtain ⟨s1, hs1⟩ : ∃ s1, s1 = { s with file := Function.update s.file f x } := ⟨_, rfl⟩
  rw [← hs1] at h1
  have hpos : 0 < holders s1 ip := by
    have hf : s1.file f = x := by simp [hs1]
    have hp := holders_pos_of_file (s := s1) (f := f) (by rwa [hf])
    rwa [hf, hxip] at hp
  have hinode : s1.inode = s.inode := by rw [hs1]
  have hgraph : s1.graph = s.graph := by rw [hs1]; rfl
  simp only [openFile, liftM_fs, getFs, setFile, endOp_fs, wp_bind, wp_get, wp_modify, wp_pure, wp_ite,
    ← hx, ← hs1]
  have hdone : ∀ {t : Fs}, Sys sb t [] → t.graph = s.graph → 0 < holders t ip →
      wp (iunlock ip) (fun _ u => Sys sb { u with logged := [] } [] ∧
        ({ u with logged := [] } : Fs).graph = s.graph) (Err T) t := by
    intro t ht hg hp
    refine wp_post (iunlock_spec ht.ok (.inl hp)) ?_
    exact fun _ u hu => ⟨(ht.reaches hu).logged [], hu.graph.trans hg⟩
  refine ⟨fun ht => ?_, fun _ => hdone h1 hgraph hpos⟩
  refine wp_post (itrunc_file h1 (.inl hpos) (by rwa [hinode]) (by simp [hinode, ht.2])) ?_
  intro _ t hr
  refine hdone (h1.reaches hr) (hr.graph.trans hgraph) ?_
  rwa [holders_congr hr.kept.file hr.kept.kernel]

theorem openBad_spec (h : Sys sb s [ip]) :
    wp (openBad sb ip) (fun _ s' => Sys sb s' [] ∧ s'.graph = s.graph) (Err T) s := by
  simp only [openBad, liftM_fs, endOp_fs, wp_bind, wp_modify, wp_pure]
  refine wp_post (iunlockput_keep h.ok (List.Perm.refl _) (by simp)) ?_
  exact fun _ s1 hs1 => ⟨(h.reaches hs1).logged [], hs1.graph⟩

theorem openInode_spec {omode : BitVec 32} (h : Sys sb s [ip]) (hv : (s.inode ip).valid = true)
    (hdir : (s.inode ip).type = .dir → omode &&& O_WRONLY = 0 ∧ omode &&& O_RDWR = 0) :
    wp (openInode sb me ip omode) (fun _ s' => Sys sb s' [] ∧ s'.graph = s.graph) (Err T) s := by
  simp only [openInode, liftM_fs, getInode, wp_bind, wp_get, wp_pure, wp_ite]
  refine ⟨fun _ => openBad_spec h, fun _ => ?_⟩
  refine wp_post filealloc_spec ?_
  rintro r s1 (⟨rfl, rfl⟩ | ⟨f, rfl, hz, rfl⟩)
  · exact openBad_spec h
  have hnone : (s.file f).type = .none := (h.files f).1 hz
  have h1 : Sys sb { s with file := Function.update s.file f { s.file f with ref := 1 } } [ip] := by
    refine h.setFile (fun _ => rfl) ⟨fun hz' => hnone, fun hf => ?_⟩
    simp [hnone] at hf
  refine wp_seq fdalloc_spec ?_
  rintro r s2 (⟨rfl, rfl⟩ | ⟨fd, rfl, rfl⟩)
  · refine wp_seq (fileclose_reserved h1 (by simp) (by simpa using hnone)) ?_
    rintro _ t ⟨ht, hg⟩
    exact hg ▸ openBad_spec ht
  · have h2 := h1.setFd me fd (some f)
    refine openFile_spec h2 hv hdir ?_ ?_
    · simp [Fs.setFd]
    · simpa [Fs.setFd] using hnone

theorem sysOpen_spec (path : Option (List UInt8)) (omode : BitVec 32) (h : Sys sb s [])
    (hT : ¬ NoDangling s.graph → T) :
    wp (sysOpen sb me path omode) (fun _ s' => Sys sb s' [] ∧ Effect s.graph (fun g =>
      omode &&& O_CREATE ≠ 0 ∧ ∃ p, argstr path = some p ∧ createEdit s me p .file g) s'.graph)
      (Err T) s := by
  have hcwd : ∀ c, (s.kernel.proc me).cwd = some c → 0 < holders s c := fun _ =>
    holders_pos_of_cwd
  cases hp : argstr path with
  | none =>
    simp only [sysOpen, hp, wp_pure]
    exact ⟨h, .none .refl⟩
  | some p =>
    simp only [sysOpen, hp, liftM_fs, beginOp_fs, endOp_fs, wp_bind, wp_pure, wp_ite]
    refine ⟨fun hcreate => ?_, fun _ => ?_⟩
    · refine wp_post (create_spec hp (by decide) h.ok hT hcwd) ?_
      rintro r s1 (⟨rfl, hs1⟩ | ⟨ip, g', rfl, hs1, hv, hfile, g1, hg1, hdrops⟩)
      · simp only [wp_bind, wp_modify, wp_pure]
        exact ⟨h.reaches (hs1.logged []), .same hs1.graph⟩
      · refine wp_post (openInode_spec (h.reaches hs1) hv fun hd => absurd hd (hfile rfl)) ?_
        rintro _ s2 ⟨h2, hg2⟩
        refine ⟨h2, g1, hg1.imp_right fun hedit => ⟨hcreate, p, rfl, hedit⟩, ?_⟩
        rw [hg2, hs1.graph]
        exact hdrops
    · refine wp_post (namei_spec h.ok (by simp) hT hcwd) ?_
      rintro r s1 (⟨rfl, hs1⟩ | ⟨ip, rfl, hs1, hfree, -⟩)
      · simp only [wp_bind, wp_modify, wp_pure]
        exact ⟨h.reaches (hs1.logged []), .same hs1.graph⟩
      refine wp_seq (ilock_spec hs1.ok (.inr (by simp)) (by rwa [hs1.graph])) ?_
      rintro _ s2 ⟨hs2, hv2, -, -⟩
      have hs02 := hs1.same (hs2.mono (List.nil_subset _)) (List.Subset.refl _)
      simp only [getInode, wp_bind, wp_get, wp_pure, wp_ite]
      refine ⟨fun _ => ?_, fun hmode => ?_⟩
      · refine wp_post (openBad_spec (h.reaches hs02)) ?_
        rintro _ s3 ⟨h3, hg3⟩
        exact ⟨h3, .same (hg3.trans hs02.graph)⟩
      · refine wp_post (openInode_spec (h.reaches hs02) hv2 fun hd => ?_) ?_
        · have hz : omode = 0 := by
            by_contra hne
            exact hmode ⟨hd, hne⟩
          simp [hz]
        · rintro _ s3 ⟨h3, hg3⟩
          exact ⟨h3, .same (hg3.trans hs02.graph)⟩

theorem sysDup_spec (fd : Int) (h : Sys sb s []) :
    wp (sysDup me fd) (fun _ s' => Sys sb s' [] ∧ s'.graph = s.graph) (Err T) s := by
  simp only [sysDup, wp_bind, wp_get]
  cases hf : argfd s me fd with
  | none => exact ⟨h, rfl⟩
  | some x =>
    refine wp_seq fdalloc_spec ?_
    rintro r s1 (⟨rfl, rfl⟩ | ⟨fd', rfl, rfl⟩)
    · exact ⟨h, rfl⟩
    · simp only [wp_bind, wp_pure]
      refine wp_post (filedup_spec (h.setFd me fd' (some x.2))) ?_
      exact fun _ s2 hs2 => ⟨hs2.1, hs2.2.1⟩

theorem sysClose_spec (fd : Int) (h : Sys sb s []) :
    wp (sysClose sb me fd) (fun _ s' => Sys sb s' [] ∧ s.graph.Drops s'.graph) (Err T) s := by
  simp only [sysClose, liftM_fs, getFs, dropFd, wp_bind, wp_get]
  cases hf : argfd s me fd with
  | none => exact ⟨h, .refl⟩
  | some x =>
    simp only [wp_bind, wp_modify, wp_pure]
    refine wp_post (fileclose_spec (h.setFd me x.1 none)) ?_
    exact fun _ s1 hs1 => ⟨hs1.1, hs1.2.1⟩

theorem ilock_file (h : Sys sb s [])
    (hf : (s.file f).type = .inode ∨ (s.file f).type = .device) :
    wp (ilock (s.file f).ip) (fun _ s' => Reaches sb (holders s) [] s s' [] [] s.graph ∧
      (s'.inode (s.file f).ip).valid = true) (Err T) s := by
  have hpos := holders_pos_of_file hf
  refine wp_post (ilock_spec h.ok (.inl hpos) fun hfree => ?_) ?_
  · rw [Fs.graph, graphOf_kind] at hfree
    exact absurd hfree (h.ok.cache.alloc _ hpos)
  · exact fun _ s' hs => ⟨hs.1, hs.2.1⟩

theorem sysFstat_spec (fd : Int) (copyoutOk : Bool) (h : Sys sb s []) :
    wp (sysFstat me fd copyoutOk) (fun _ s' => Sys sb s' [] ∧ s'.graph = s.graph) (Err T) s := by
  simp only [sysFstat, wp_bind, wp_get]
  cases hf : argfd s me fd with
  | none => exact ⟨h, rfl⟩
  | some x =>
    simp only [wp_ite, wp_bind, wp_pure]
    refine ⟨fun htype => ?_, fun _ => ⟨h, trivial⟩⟩
    refine wp_post (ilock_file h htype) ?_
    rintro _ s1 ⟨hs1, -⟩
    have hpos := holders_pos_of_file htype
    refine wp_post (iunlock_spec hs1.ok (.inl hpos)) ?_
    intro _ s2 hs2
    have hs02 := hs1.same hs2 (List.Subset.refl _)
    exact ⟨fun _ => ⟨h.reaches hs02, hs02.graph⟩, fun _ => ⟨h.reaches hs02, hs02.graph⟩⟩

theorem setOff_spec (r : Int) (h : Sys sb s [])
    (hf : (s.file f).type = .inode ∨ (s.file f).type = .device) :
    wp (setOff f r) (fun _ s' => wp (iunlock (s.file f).ip) (fun _ s' => Sys sb s' [] ∧
      s'.graph = s.graph ∧ s'.file f = { s.file f with off := (s'.file f).off }) (Err T) s')
      (Err T) s := by
  simp only [setOff, wp_modify]
  obtain ⟨x, hx⟩ : ∃ x : File, x = { s.file f with
    off := if 0 < r then (s.file f).off + r.toNat else (s.file f).off } := ⟨_, rfl⟩
  obtain ⟨s1, hs1⟩ : ∃ s1, s1 = { s with file := Function.update s.file f x } := ⟨_, rfl⟩
  rw [← hx, ← hs1]
  have h1 : Sys sb s1 [] := by
    rw [hs1]
    refine h.setFile (fun _ => ?_) ?_
    · rw [hx]
      rfl
    · rw [hx]
      exact h.files f
  have hfile : s1.file f = x := by simp [hs1]
  have hpos : 0 < holders s1 (s.file f).ip := by
    have hp := holders_pos_of_file (s := s1) (f := f) (by rw [hfile, hx]; exact hf)
    rwa [hfile, hx] at hp
  have hgraph : s1.graph = s.graph := by rw [hs1]; rfl
  refine wp_post (iunlock_spec h1.ok (.inl hpos)) ?_
  intro _ s2 hs2
  refine ⟨h1.reaches hs2, hs2.graph.trans hgraph, ?_⟩
  rw [hs2.kept.file, hfile, hx]

theorem sysRead_spec (fd n : Int) (dst : Nat → Bool) (dev : Int) (h : Sys sb s []) :
    wp (sysRead sb me fd n dst dev) (fun _ s' => Sys sb s' [] ∧ s'.graph = s.graph) (Err T) s := by
  simp only [sysRead, wp_bind, wp_get]
  cases hf : argfd s me fd with
  | none => exact ⟨h, rfl⟩
  | some x =>
    simp only [wp_ite, wp_pure]
    refine ⟨fun _ => ⟨h, trivial⟩, fun _ => ?_⟩
    cases htype : (s.file x.2).type with
    | none => simp [Err]
    | pipe => exact ⟨h, rfl⟩
    | device =>
      simp only [wp_ite, wp_pure]
      exact ⟨fun _ => ⟨h, trivial⟩, fun _ => ⟨h, trivial⟩⟩
    | inode =>
      have hpos := holders_pos_of_file (.inl htype)
      refine wp_seq (ilock_file h (.inl htype)) ?_
      rintro _ s1 ⟨hs1, hv1⟩
      have hn : toUint n < 2 ^ 32 := by
        rw [toUint]
        omega
      refine wp_seq (readi_spec hs1.ok (hs1.ok.ref_pos (.inl hpos)) hv1 hn) ?_
      rintro r s2 ⟨rfl, -⟩
      have htype1 : (s2.file x.2).type = .inode := by rwa [hs1.kept.file]
      have hip : (s2.file x.2).ip = (s.file x.2).ip := by rw [hs1.kept.file]
      rw [← hip]
      refine wp_seq (setOff_spec r.1 (h.reaches hs1) (.inl htype1)) ?_
      intro _ s3 hs3
      refine wp_seq hs3 ?_
      exact fun _ s4 hs4 => ⟨hs4.1, hs4.2.1.trans hs1.graph⟩

theorem writeMax_lt : writeMax < 2 ^ 32 := by decide

theorem writeChunk_spec {src : Nat → Option UInt8} {n : Nat} (h : Sys sb s [])
    (hf : (s.file f).type = .inode) (hw : (s.file f).writable = true) (hn : n ≤ writeMax) :
    wp (writeChunk sb f src n) (fun _ s' => Sys sb s' [] ∧ s'.graph = s.graph ∧
      s'.file f = { s.file f with off := (s'.file f).off }) (Err T) s := by
  simp only [writeChunk, beginOp, endOp, wp_bind, wp_get, wp_pure, wp_modify]
  have hpos := holders_pos_of_file (.inl hf)
  refine wp_post (ilock_file h (.inl hf)) ?_
  rintro _ s1 ⟨hs1, hv1⟩
  have hdir : (s1.inode (s.file f).ip).type ≠ .dir := by
    rw [← (hs1.ok.slot_node (.inl hpos) hv1).1, (hs1.kept.slot _ (.inl hpos)).1, hs1.graph]
    exact (h.files f).2 hf hw
  refine wp_post (writei_file hs1.ok (.inl hpos) hv1 (Nat.lt_of_le_of_lt hn writeMax_lt) hdir) ?_
  intro r s2 hs2
  have hs02 := hs1.same hs2 (List.Subset.refl _)
  have hfile : s2.file f = s.file f := by rw [hs02.kept.file]
  rw [← hfile] at hf ⊢
  refine wp_post (setOff_spec r (h.reaches hs02) (.inl hf)) ?_
  intro _ s3 hs3
  refine wp_post hs3 ?_
  exact fun _ s4 hs4 => ⟨hs4.1.logged [], hs4.2.1.trans hs02.graph, hs4.2.2⟩

theorem writeChunks_spec {src : Nat → Option UInt8} (fuel n i : Nat) (h : Sys sb s [])
    (hf : (s.file f).type = .inode) (hw : (s.file f).writable = true) :
    wp (writeChunks sb f src fuel n i) (fun _ s' => Sys sb s' [] ∧ s'.graph = s.graph)
      (Err T) s := by
  induction fuel generalizing s i with
  | zero => exact ⟨h, rfl⟩
  | succ fuel ih =>
    simp only [writeChunks, wp_ite, wp_bind, wp_pure]
    refine ⟨fun _ => ?_, fun _ => ⟨h, trivial⟩⟩
    refine wp_post (writeChunk_spec h hf hw (Nat.min_le_right _ _)) ?_
    rintro _ s1 ⟨h1, hg1, hfile⟩
    refine ⟨fun _ => ?_, fun _ => ⟨h1, hg1⟩⟩
    refine wp_post (ih (i + min (n - i) writeMax) h1 ?_ ?_) ?_
    · rw [hfile]
      exact hf
    · rw [hfile]
      exact hw
    · exact fun _ s2 hs2 => ⟨hs2.1, hs2.2.trans hg1⟩

theorem sysWrite_spec (fd n : Int) (src : Nat → Option UInt8) (dev : Int) (h : Sys sb s []) :
    wp (sysWrite sb me fd n src dev) (fun _ s' => Sys sb s' [] ∧ s'.graph = s.graph)
      (Err T) s := by
  simp only [sysWrite, wp_bind, wp_get]
  cases hf : argfd s me fd with
  | none => exact ⟨h, rfl⟩
  | some x =>
    simp only [wp_ite, wp_pure]
    refine ⟨fun _ => ⟨h, trivial⟩, fun hw => ?_⟩
    cases htype : (s.file x.2).type with
    | none => simp [Err]
    | pipe => exact ⟨h, rfl⟩
    | device =>
      simp only [wp_ite, wp_pure]
      exact ⟨fun _ => ⟨h, trivial⟩, fun _ => ⟨h, trivial⟩⟩
    | inode =>
      simp only [wp_bind, wp_ite, wp_pure]
      refine wp_post (writeChunks_spec n.toNat n.toNat 0 h htype (by simpa using hw)) ?_
      exact fun _ s1 hs1 => ⟨fun _ => hs1, fun _ => hs1⟩

end OsProject
