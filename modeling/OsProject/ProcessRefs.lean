import OsProject.DescriptorRefs

/-! The calls that change processes: `chdir`, `exec`, `fork`, `exit` and `wait`. -/

namespace OsProject.Calls

variable {sb : Superblock} {c : Frame} {held locks : List Slot} {loose : List (Fin NFILE)}
  {w : World} {ip : Slot} {me : Fin NPROC} {f : Fin NFILE} {k : Kernel} {n : Int}

section Directory

def withCwd (k : Kernel) (me : Fin NPROC) (d : Option Slot) : Kernel :=
  k.setProc me { k.proc me with cwd := d }

theorem holds_withCwd (k : Kernel) (me : Fin NPROC) (d : Option Slot) (i : Slot) :
    ∑ p, ((withCwd k me d).proc p).holds i + (k.proc me).cwd.toList.count i =
      ∑ p, (k.proc p).holds i + d.toList.count i := by
  have hcount : ∀ (p : Proc), p.holds i = p.cwd.toList.count i := by
    intro p
    cases hp : p.cwd with
    | none => simp [Proc.holds, hp]
    | some d => exact Proc.holds_eq_ite hp i
  have hproc := holds_setProc k me { k.proc me with cwd := d } i
  rw [hcount (k.proc me), hcount { k.proc me with cwd := d }] at hproc
  exact hproc

theorem descriptors_withCwd (k : Kernel) (me : Fin NPROC) (d : Option Slot) (f : Fin NFILE) :
    descriptors (withCwd k me d) f = descriptors k f := by
  have hproc := descriptors_setProc k me { k.proc me with cwd := d } f
  have hsame : opens { k.proc me with cwd := d } f = opens (k.proc me) f := rfl
  rw [hsame] at hproc
  exact Nat.add_right_cancel hproc

theorem putCwd_ok (h : WorldOk ⟨k, k, n⟩ held locks loose w) (halive : (k.proc me).Alive) :
    wp (onFs (putCwd sb me))
      (fun _ w' => WorldOk ⟨k, withCwd k me none, n⟩ held locks loose w') Calm w := by
  have hkernel : w.fs.kernel = k := h.kernel
  rw [wp_onFs, putCwd, wp_bind, wp_get, hkernel]
  cases hd : (k.proc me).cwd with
  | none => exact (by decide : Quiet .kerneltrap)
  | some d =>
    have hfree : WorldOk ⟨k, withCwd k me none, n⟩ (d :: held) locks loose w := by
      refine h.recount (fun i => ?_) (fun f => ?_) ?_
      · have hi := holds_withCwd k me none i
        rw [hd, Option.toList_some, Option.toList_none, List.count_nil, Nat.add_zero] at hi
        rw [← List.singleton_append, List.count_append, ← Nat.add_assoc, hi]
      · rw [descriptors_withCwd]
      · exact idle_setProc h.idle fun hdead => absurd halive hdead
    have hput : wp (onFs (iput sb d)) _ Calm w := hfree.iput
    rwa [wp_onFs] at hput

theorem sysChdir_ok (path : Option (List UInt8)) (h : Settled n w)
    (halive : (w.fs.kernel.proc me).Alive) :
    wp (sysChdir sb me path) (fun _ w' => Settled n w') Calm w := by
  have hbad : ∀ {w'}, WorldOk (Frame.inOp ⟨w.fs.kernel, w.fs.kernel, n⟩) [] [] [] w' →
      wp (do endOp; return (-1 : Int)) (fun _ w' => Settled n w') Calm w' := fun h' =>
    wp_post (h'.endOp_return _) fun _ _ h2 => h2.settled
  rw [sysChdir]
  refine wp_seq h.beginOp fun _ w1 h1 => ?_
  split
  · exact hbad h1
  · refine wp_seq (h1.namei rfl _) ?_
    rintro (_ | ip) w2 h2
    · exact hbad h2
    · refine wp_seq h2.ilock ?_
      rintro - w3 ⟨hip, h3⟩
      refine wp_seq (h3.still (getInode_still ip)) fun i w4 h4 => ?_
      split_ifs
      · exact wp_seq (h4.iunlockput hip) fun _ w5 h5 => hbad h5
      · refine wp_seq (h4.iunlock hip) fun _ w5 h5 => ?_
        refine wp_seq (putCwd_ok h5 halive) fun _ w6 h6 => ?_
        replace h6 : WorldOk (Frame.inOp ⟨w.fs.kernel, withCwd w.fs.kernel me none, n⟩) [ip] [] []
          w6 := h6
        refine wp_seq h6.endOp fun _ w7 h7 => ?_
        rw [wp_bind, liftM_world, wp_onFs, wp_modify]
        -- the reference to the new directory is that of the process now
        have hset : WorldOk ⟨withCwd w.fs.kernel me (some ip), withCwd w.fs.kernel me (some ip), n⟩
            [] [] [] { w7 with fs := { w7.fs with kernel := withCwd w.fs.kernel me (some ip) } } := by
          refine h7.setKernel rfl (fun j => ?_) (fun f => ?_) ?_
          · have hj := holds_withCwd w.fs.kernel me none j
            have hj' := holds_withCwd w.fs.kernel me (some ip) j
            simp only [Option.toList_none, Option.toList_some, List.count_nil,
              Nat.add_zero] at hj hj' ⊢
            omega
          · show descriptors (withCwd w.fs.kernel me (some ip)) f + _ =
              descriptors (withCwd w.fs.kernel me none) f + _
            rw [descriptors_withCwd, descriptors_withCwd]
          · exact idle_setProc h.idle fun hdead => absurd halive hdead
        have hkernel : w7.fs.kernel = w.fs.kernel := h7.kernel
        have hsame : w7.fs.setCwd me (some ip) =
            { w7.fs with kernel := withCwd w.fs.kernel me (some ip) } := by
          rw [← hkernel]
          rfl
        rw [hsame]
        exact hset.settled

end Directory

section Exit

structure Closing (n : Int) (me : Fin NPROC) (l : List (Fin NOFILE)) (w : World) : Prop where
  settled : Settled n w
  alive : (w.fs.kernel.proc me).Alive
  closed : ∀ fd, fd ∉ l → (w.fs.kernel.proc me).ofile fd = none

theorem closeFd_ok (fd : Fin NOFILE) (l : List (Fin NOFILE)) (h : Closing n me (fd :: l) w) :
    wp (closeFd sb me fd) (fun _ w' => Closing n me l w') Calm w := by
  obtain ⟨hw, halive, hclosed⟩ := h
  rw [closeFd, wp_bind, wp_getFs]
  cases hfd : (w.fs.kernel.proc me).ofile fd with
  | none =>
    refine ⟨hw, halive, fun j hj => ?_⟩
    by_cases hjfd : j = fd
    · rw [hjfd, hfd]
    · exact hclosed j (by simp [hjfd, hj])
  | some f =>
    have hfree : WorldOk ⟨w.fs.kernel, setOfile w.fs.kernel me fd none, n⟩ [] [] [f] w := by
      refine WorldOk.recount hw (fun i => ?_) (fun g => ?_) ?_
      · rw [holds_setOfile]
      · have hg := descriptors_setOfile w.fs.kernel me fd none g
        rw [hfd, Option.toList_some, Option.toList_none, List.count_nil, Nat.add_zero] at hg
        rw [hg, List.count_nil, Nat.add_zero]
      · exact idle_setProc hw.idle fun hdead => absurd halive hdead
    refine wp_seq (fileclose_ok hfree) fun _ w1 h1 => ?_
    rw [liftM_world, wp_onFs, dropFd, wp_modify]
    have hkernel : w1.fs.kernel = w.fs.kernel := h1.kernel
    have hset : WorldOk ⟨setOfile w.fs.kernel me fd none, setOfile w.fs.kernel me fd none, n⟩
        [] [] [] { w1 with fs := { w1.fs with kernel := setOfile w.fs.kernel me fd none } } :=
      h1.setKernel rfl (fun _ => rfl) (fun _ => rfl) h1.idle
    have hsame : w1.fs.setFd me fd none =
        { w1.fs with kernel := setOfile w.fs.kernel me fd none } := by
      rw [← hkernel]
      rfl
    rw [hsame]
    refine ⟨hset.settled, alive_setOfile fd none halive, fun j hj => ?_⟩
    by_cases hjfd : j = fd
    · rw [hjfd]
      exact ofile_setOfile_self none
    · exact (ofile_setOfile_of_ne none hjfd).trans (hclosed j (by simp [hjfd, hj]))

theorem exited_self (k : Kernel) (me : Fin NPROC) (status : Int) :
    ((exited k me status).proc me).cwd = none ∧
      ((exited k me status).proc me).ofile = fun _ => none := by
  rw [exited, Kernel.setProc_same]
  exact ⟨rfl, rfl⟩

theorem exited_of_ne (status : Int) {p : Fin NPROC} (hp : p ≠ me) :
    (exited k me status).proc p = (k.reparent me).proc p := Kernel.setProc_of_ne _ hp _

theorem exited_ok (status : Int)
    (h : WorldOk ⟨k, withCwd k me none, n⟩ [] [] [] w)
    (hclosed : ∀ fd, (k.proc me).ofile fd = none) :
    WorldOk ⟨exited k me status, exited k me status, n⟩ [] [] []
      { w with fs := { w.fs with kernel := exited k me status } } := by
  have hcwd : ∀ p, ((exited k me status).proc p).cwd = ((withCwd k me none).proc p).cwd := by
    intro p
    by_cases hp : p = me
    · rw [hp, (exited_self k me status).1, withCwd, Kernel.setProc_same]
    · rw [exited_of_ne status hp, withCwd, Kernel.setProc_of_ne _ hp]
      exact (k.reparent_same me p).1
  have hofile : ∀ p, ((exited k me status).proc p).ofile = ((withCwd k me none).proc p).ofile := by
    intro p
    by_cases hp : p = me
    · rw [hp, (exited_self k me status).2, withCwd, Kernel.setProc_same]
      exact (funext hclosed).symm
    · rw [exited_of_ne status hp, withCwd, Kernel.setProc_of_ne _ hp]
      exact (k.reparent_same me p).2.1
  refine h.setKernel rfl (fun i => ?_) (fun f => ?_) fun p => ?_
  · simp only [Proc.holds, hcwd]
  · simp only [descriptors, opens, hofile]
  · intro hdead
    by_cases hp : p = me
    · rw [hp, (exited_self k me status).1, (exited_self k me status).2]
      exact ⟨rfl, fun _ => rfl⟩
    · have hidle := h.idle p
      rw [hcwd, hofile]
      refine hidle fun halive => hdead ?_
      rw [exited_of_ne status hp, Proc.Alive, (k.reparent_same me p).2.2]
      rwa [withCwd, Kernel.setProc_of_ne _ hp] at halive

theorem sysExit_ok (status : Int) (h : Settled n w) (halive : (w.fs.kernel.proc me).Alive) :
    wp (sysExit sb me status) (fun _ w' => Settled n w') Calm w := by
  rw [sysExit]
  split_ifs
  · exact (by decide : Quiet .initExiting)
  · rw [wp_bind]
    have hstart : Closing n me (List.finRange NOFILE) w :=
      ⟨h, halive, fun fd hfd => absurd (List.mem_finRange fd) hfd⟩
    refine wp_post (wp_forM (I := Closing n me) (fun fd l w' h' => closeFd_ok fd l h') hstart)
      fun _ w1 h1 => ?_
    obtain ⟨hw1, halive1, hclosed⟩ := h1
    refine wp_seq hw1.beginOp fun _ w2 h2 => ?_
    refine wp_seq (putCwd_ok h2 halive1) fun _ w3 h3 => ?_
    replace h3 : WorldOk (Frame.inOp ⟨w1.fs.kernel, withCwd w1.fs.kernel me none, n⟩) [] [] [] w3 :=
      h3
    refine wp_seq h3.endOp fun _ w4 h4 => ?_
    have hkernel : w4.fs.kernel = w1.fs.kernel := h4.kernel
    rw [wp_bind, liftM_world, wp_onFs, wp_modify, hkernel]
    exact (exited_ok status h4 fun fd => hclosed fd (by simp)).settled

end Exit

section Wait

theorem sysWait_ok (copyoutOk : Bool) (h : Settled n w) :
    wp (onFs (sysWait me copyoutOk)) (fun _ w' => Settled n w') Calm w := by
  rw [wp_onFs, sysWait, wp_bind, wp_get]
  cases hz : zombieChild w.fs.kernel me with
  | none =>
    show wp (if _ then _ else _) _ _ _
    split_ifs
    · exact h
    · exact (by decide : Quiet .stuck)
  | some i =>
    have hi : (w.fs.kernel.proc i).parent = some me ∧ (w.fs.kernel.proc i).state = .zombie := by
      simpa using List.find?_some hz
    show wp (if copyoutOk = true then _ else _) _ _ _
    split_ifs
    · rw [wp_bind, wp_modify]
      have hproc : ∀ p, ((w.fs.kernel.setProc i (freeproc (w.fs.kernel.proc i))).proc p).cwd =
            (w.fs.kernel.proc p).cwd ∧
          ((w.fs.kernel.setProc i (freeproc (w.fs.kernel.proc i))).proc p).ofile =
            (w.fs.kernel.proc p).ofile := by
        intro p
        by_cases hp : p = i
        · rw [hp, Kernel.setProc_same]
          exact ⟨rfl, rfl⟩
        · rw [Kernel.setProc_of_ne _ hp]
          exact ⟨rfl, rfl⟩
      have hidle := h.idle i fun halive => halive.2 hi.2
      have hset : WorldOk ⟨w.fs.kernel.setProc i (freeproc (w.fs.kernel.proc i)),
          w.fs.kernel.setProc i (freeproc (w.fs.kernel.proc i)), n⟩ [] [] []
          { w with fs := { w.fs with
            kernel := w.fs.kernel.setProc i (freeproc (w.fs.kernel.proc i)) } } := by
        refine WorldOk.setKernel h rfl (fun j => ?_) (fun f => ?_) ?_
        · simp only [Proc.holds, (hproc _).1]
        · simp only [descriptors, opens, (hproc _).2]
        · exact idle_setProc h.idle fun _ => hidle
      exact hset.settled
    · exact h

end Wait

section Fork

theorem filedups_ok {files : Fin NOFILE → Option (Fin NFILE)} (h : WorldOk c held locks [] w)
    (hpos : ∀ fd f, files fd = some f → 0 < descriptors c.counted f) :
    wp (forM (List.finRange NOFILE) fun fd =>
        match files fd with
        | some f => filedup f
        | none => pure ())
      (fun _ s => ∃ loose, (∀ f, loose.count f = ∑ fd, (files fd).toList.count f) ∧
        WorldOk c held locks loose { w with fs := s }) Quiet w.fs := by
  -- what has been taken, and what the rest of the descriptors will take
  refine wp_post (wp_forM (I := fun l s => ∃ loose,
    (∀ f, loose.count f + (l.map fun fd => (files fd).toList.count f).sum =
      ∑ fd, (files fd).toList.count f) ∧
    WorldOk c held locks loose { w with fs := s }) ?_ ?_) ?_
  · rintro fd l s ⟨loose, hcount, hs⟩
    cases hfd : files fd with
    | none =>
      refine ⟨loose, fun f => ?_, hs⟩
      have hf := hcount f
      rwa [List.map_cons, List.sum_cons, hfd, Option.toList_none, List.count_nil, Nat.zero_add] at hf
    | some f =>
      refine wp_post (filedup_ok hs (hpos fd f hfd)) fun _ s' hs' => ?_
      refine ⟨f :: loose, fun g => ?_, hs'⟩
      have hg := hcount g
      rw [List.map_cons, List.sum_cons, hfd, Option.toList_some, ← Nat.add_assoc,
        ← List.count_append] at hg
      rw [← hg, List.perm_append_comm.count_eq, List.singleton_append]
  · refine ⟨[], fun f => ?_, h⟩
    rw [List.count_nil, Nat.zero_add, Fin.sum_univ_def]
  · rintro - s ⟨loose, hcount, hs⟩
    exact ⟨loose, fun f => by simpa using hcount f, hs⟩

theorem opens_eq_sum (p : Proc) (f : Fin NFILE) :
    opens p f = ∑ fd, (p.ofile fd).toList.count f := by
  refine Finset.sum_congr rfl fun fd _ => ?_
  cases p.ofile fd with
  | none => rfl
  | some g => simp [List.count_singleton]

theorem sysFork_ok (mem : ForkMem) (h : Settled n w) (halive : (w.fs.kernel.proc me).Alive) :
    wp (onFs (sysFork me mem)) (fun _ w' => Settled n w') Calm w := by
  rw [wp_onFs, sysFork, wp_bind, wp_get]
  rcases kfork_cases w.fs.kernel me mem halive with ⟨hnone, hsame⟩ | ⟨hsome, i, hunused, hchild, hoff⟩
  · rcases hk : kfork w.fs.kernel me mem with ⟨k, pid, none | line⟩
    · rw [hk] at hsame
      dsimp only at hsame
      have hset : WorldOk ⟨k, k, n⟩ [] [] [] { w with fs := { w.fs with kernel := k } } := by
        refine WorldOk.setKernel h rfl (fun j => ?_) (fun f => ?_) fun p hdead => ?_
        · simp only [Proc.holds, (hsame _).1]
        · simp only [descriptors, opens, (hsame _).2.2]
        · rw [(hsame p).1, (hsame p).2.2]
          refine h.idle p fun hp => hdead ?_
          rwa [Proc.Alive, (hsame p).2.1]
      exact hset.settled
    · rw [hk] at hnone
      cases hnone
  · rcases hk : kfork w.fs.kernel me mem with ⟨k, pid, none | line⟩
    · rw [hk] at hsome
      exact absurd rfl hsome
    · rw [hk] at hchild hoff
      have hidle : (w.fs.kernel.proc i).cwd = none ∧ ∀ fd, (w.fs.kernel.proc i).ofile fd = none :=
        h.idle i fun hi => hi.1 hunused
      have hcwd : (k.proc i).cwd = (w.fs.kernel.proc me).cwd := by
        rw [hchild]
        rfl
      -- the slot had no descriptors, so the child has those of its parent
      have hofile : (k.proc i).ofile = (w.fs.kernel.proc me).ofile := by
        rw [hchild]
        funext fd
        show (if ((w.fs.kernel.proc me).ofile fd).isSome then _ else (w.fs.kernel.proc i).ofile fd) = _
        split_ifs with hfd
        · rfl
        · rw [hidle.2 fd]
          exact (Option.not_isSome_iff_eq_none.mp hfd).symm
      refine wp_seq (filedups_ok h fun fd f hfd => descriptors_pos hfd) ?_
      rintro - s1 ⟨loose, hcount, h1⟩
      cases hd : (w.fs.kernel.proc me).cwd with
      | none => exact (by decide : Quiet .kerneltrap)
      | some d =>
        have hkernel : s1.kernel = w.fs.kernel := h1.kernel
        have hcwd1 : (s1.kernel.proc me).cwd = some d := by rw [hkernel, hd]
        have hhold := h1.hold_cwd rfl d hcwd1
        refine wp_seq (idup_held (.inl hhold) h1.slots) ?_
        rintro - s2 ⟨-, hs2⟩
        have h2 := h1.table hs2
        have hset : WorldOk ⟨k, k, n⟩ [] [] []
            { w with fs := { s2 with kernel := k } } := by
          refine WorldOk.setKernel h2 rfl (fun j => ?_) (fun f => ?_) fun p hdead => ?_
          · have hsum := sum_add_of_eq_off (f := fun p => (w.fs.kernel.proc p).holds j)
              (g := fun p => (k.proc p).holds j) i fun p hp => by rw [hoff p hp]
            have hnew : (k.proc i).holds j = [d].count j := Proc.holds_eq_ite (hcwd.trans hd) j
            have hold : (w.fs.kernel.proc i).holds j = 0 := by simp [Proc.holds, hidle.1]
            show ∑ p, (k.proc p).holds j + 0 = ∑ p, (w.fs.kernel.proc p).holds j + [d].count j
            omega
          · have hsum := sum_add_of_eq_off (f := fun p => opens (w.fs.kernel.proc p) f)
              (g := fun p => opens (k.proc p) f) i fun p hp => by rw [hoff p hp]
            have hnew : opens (k.proc i) f = loose.count f := by
              rw [hcount, ← opens_eq_sum]
              simp only [opens, hofile]
            have hold : opens (w.fs.kernel.proc i) f = 0 := by simp [opens, hidle.2]
            show ∑ p, opens (k.proc p) f + 0 = ∑ p, opens (w.fs.kernel.proc p) f + loose.count f
            omega
          · by_cases hp : p = i
            · refine absurd ?_ hdead
              show (k.proc p).Alive
              rw [hp, hchild]
              exact ⟨by simp [forkChild, copyProc], by simp [forkChild, copyProc]⟩
            · have hpi := hoff p hp
              rw [hpi] at hdead ⊢
              exact h.idle p hdead
        exact hset.settled

end Fork

end OsProject.Calls
