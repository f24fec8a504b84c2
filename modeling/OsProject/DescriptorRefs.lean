import OsProject.FileRefs

/-! The calls that make descriptors of inodes, and those that copy and drop descriptors. -/

namespace OsProject.Calls

variable {sb : Superblock} {c : Frame} {held locks : List Slot} {loose : List (Fin NFILE)}
  {w : World} {ip : Slot} {me : Fin NPROC} {f : Fin NFILE} {k : Kernel} {n : Int}

section Open

theorem openBad_ok (h : WorldOk (Frame.inOp ⟨k, k, n⟩) [ip] [ip] [] w) :
    wp (openBad sb ip) (fun _ w' => Settled n w') Calm w := by
  rw [openBad]
  refine wp_seq (h.iunlockput (by simp)) fun _ w1 h1 => ?_
  exact wp_post (h1.endOp_return _) fun _ _ h2 => h2.settled

theorem openFile_ok (i : Inode) (omode : BitVec 32) (fd : Fin NOFILE)
    (h : WorldOk (Frame.inOp ⟨k, k, n⟩) [ip] [ip] [] w) (hnone : (w.fs.file f).type = .none)
    (hone : (w.fs.file f).ref = 1) :
    wp (openFile sb ip i omode f fd) (fun _ w' => Settled n w') Calm w := by
  have htype : (opened i ip omode (w.fs.file f)).type = .inode ∨
      (opened i ip omode (w.fs.file f)).type = .device := by
    simp only [opened]
    split_ifs
    · exact .inr rfl
    · exact .inl rfl
  have hnew : (opened i ip omode (w.fs.file f)).type ≠ .pipe := by
    rcases htype with ht | ht <;> rw [ht] <;> decide
  have hput : WorldOk (Frame.inOp ⟨k, k, n⟩) [] [ip] []
      (w.putFile f (opened i ip omode (w.fs.file f))) := by
    refine h.putFile (fun j => ?_) (h.refs f) (fun _ _ => rfl) (fun hz => ?_)
      (h.pipes.putFile (.inr ⟨hnew, ?_⟩))
    · rw [File.holds_eq_ite htype, File.holds_eq_zero hnone, List.count_nil, Nat.add_zero,
        Nat.zero_add]
      rfl
    · have hz : (w.fs.file f).ref = 0 := hz
      omega
    · rw [hnone]
      decide
  rw [openFile, wp_bind, wp_getFs]
  dsimp only
  rw [wp_bind]
  have hset : wp (onFs (setFile f (opened i ip omode (w.fs.file f))))
      (fun _ w' => WorldOk (Frame.inOp ⟨k, k, n⟩) [] [ip] [] w') Calm w := hput
  refine wp_post hset fun _ w1 h1 => ?_
  refine wp_seq (h1.still (Maintains.ite (itrunc_still ip) (.pure _))) fun _ w2 h2 => ?_
  refine wp_seq (h2.iunlock (by simp)) fun _ w3 h3 => ?_
  exact wp_post (h3.endOp_return _) fun _ _ h4 => h4.settled

theorem openInode_ok (omode : BitVec 32) (h : WorldOk (Frame.inOp ⟨k, k, n⟩) [ip] [ip] [] w)
    (halive : (k.proc me).Alive) :
    wp (openInode sb me ip omode) (fun _ w' => Settled n w') Calm w := by
  rw [openInode]
  refine wp_seq (h.still (getInode_still ip)) fun i w1 h1 => ?_
  split_ifs
  · exact openBad_ok h1
  · refine wp_seq (filealloc_ok h1) ?_
    rintro (_ | f) w2 h2
    · rw [h2]
      exact openBad_ok h1
    · obtain ⟨hz, rfl, h2⟩ := h2
      have hfile : (w1.putFile f { w1.fs.file f with ref := 1 }).fs.file f =
          { w1.fs.file f with ref := 1 } := Function.update_self _ _ _
      refine wp_seq (fdalloc_ok h2 halive) ?_
      rintro (_ | fd) w3 h3
      · rw [h3]
        exact wp_seq (fileclose_ok h2) fun _ w4 h4 => openBad_ok h4
      · obtain ⟨-, hsame, h3⟩ := h3
        refine openFile_ok i omode fd h3 ?_ ?_
        · rw [hsame, hfile]
          exact h1.closed f hz
        · rw [hsame, hfile]

theorem sysOpen_ok (path : Option (List UInt8)) (omode : BitVec 32) (h : Settled n w)
    (halive : (w.fs.kernel.proc me).Alive) :
    wp (sysOpen sb me path omode) (fun _ w' => Settled n w') Calm w := by
  rw [sysOpen]
  split
  · exact h
  · refine wp_seq h.beginOp fun _ w1 h1 => ?_
    split_ifs
    · refine wp_seq (h1.create rfl _ _ _ _) ?_
      rintro (_ | ip) w2 h2
      · exact wp_post (h2.endOp_return _) fun _ _ h3 => h3.settled
      · exact openInode_ok omode h2.2 halive
    · refine wp_seq (h1.namei rfl _) ?_
      rintro (_ | ip) w2 h2
      · exact wp_post (h2.endOp_return _) fun _ _ h3 => h3.settled
      · refine wp_seq h2.ilock ?_
        rintro - w3 ⟨-, h3⟩
        refine wp_seq (h3.still (getInode_still ip)) fun i w4 h4 => ?_
        split_ifs
        · exact openBad_ok h4
        · exact openInode_ok omode h4 halive

end Open

section Descriptors

theorem argfd_eq_some {s : Fs} {fd : Int} {j : Fin NOFILE} (h : argfd s me fd = some (j, f)) :
    (s.kernel.proc me).ofile j = some f := by
  unfold argfd at h
  split_ifs at h
  obtain ⟨g, hg, he⟩ := Option.map_eq_some_iff.mp h
  cases he
  exact hg

theorem sysClose_ok (fd : Int) (h : Settled n w) (halive : (w.fs.kernel.proc me).Alive) :
    wp (sysClose sb me fd) (fun _ w' => Settled n w') Calm w := by
  rw [sysClose, wp_bind, wp_getFs]
  cases hfd : argfd w.fs me fd with
  | none => exact h
  | some r =>
    obtain ⟨j, f⟩ := r
    refine wp_seq (dropFd_ok h halive (argfd_eq_some hfd)) fun _ w1 h1 => ?_
    exact wp_seq (fileclose_ok h1) fun _ _ h2 => h2.settled

theorem descriptors_pos {fd : Fin NOFILE} (h : (k.proc me).ofile fd = some f) :
    0 < descriptors k f := by
  have hle := Finset.single_le_sum (f := fun p => opens (k.proc p) f) (fun _ _ => Nat.zero_le _)
    (Finset.mem_univ me)
  have hle' := Finset.single_le_sum (f := fun j => if (k.proc me).ofile j = some f then 1 else 0)
    (fun _ _ => Nat.zero_le _) (Finset.mem_univ fd)
  simp only [h, if_true] at hle'
  exact hle'.trans hle

theorem WorldOk.dup (h : WorldOk c held locks loose w) (hpos : 0 < descriptors c.counted f) :
    0 < (w.fs.file f).ref ∧ WorldOk c held locks (f :: loose)
      (w.putFile f { w.fs.file f with ref := (w.fs.file f).ref + 1 }) := by
  have hrefs := h.refs f
  refine ⟨by omega, h.putFile (fun _ => rfl) ?_ (fun g hg => List.count_cons_of_ne (Ne.symm hg))
    (fun hz => ?_) (h.pipes.putFile (.inl ⟨rfl, rfl⟩))⟩
  · rw [List.count_cons_self]
    show (w.fs.file f).ref + 1 = _
    omega
  · have hz : (w.fs.file f).ref + 1 = 0 := hz
    omega

theorem filedup_ok (h : WorldOk c held locks loose w) (hpos : 0 < descriptors c.counted f) :
    wp (filedup f) (fun _ s => WorldOk c held locks (f :: loose) { w with fs := s }) Quiet w.fs := by
  obtain ⟨href, hdup⟩ := h.dup hpos
  rw [filedup, wp_bind, wp_get, if_neg (by omega), wp_modify]
  exact hdup

theorem sysDup_ok (fd : Int) (h : Settled n w) (halive : (w.fs.kernel.proc me).Alive) :
    wp (onFs (sysDup me fd)) (fun _ w' => Settled n w') Calm w := by
  rw [wp_onFs, sysDup, wp_bind, wp_get]
  cases hfd : argfd w.fs me fd with
  | none => exact h
  | some r =>
    obtain ⟨j, f⟩ := r
    obtain ⟨href, hdup⟩ := h.dup (descriptors_pos (argfd_eq_some hfd))
    -- the descriptor comes before the reference that it needs
    have hfd' : wp (fdalloc me f) (fun r s => (r = none ∧ s = w.fs) ∨ ∃ j', r = some j' ∧
        (w.fs.kernel.proc me).ofile j' = none ∧ s = w.fs.setFd me j' (some f)) Quiet w.fs := by
      rw [fdalloc, wp_bind, wp_get]
      cases hfind : (List.finRange NOFILE).find? fun j => (w.fs.kernel.proc me).ofile j = none with
      | none => exact .inl ⟨rfl, rfl⟩
      | some j' => exact .inr ⟨j', rfl, by simpa using List.find?_some hfind, rfl⟩
    refine wp_seq hfd' ?_
    rintro r s (⟨rfl, rfl⟩ | ⟨j', rfl, hfree, rfl⟩)
    · exact h
    · have hgive : WorldOk ⟨setOfile w.fs.kernel me j' (some f), setOfile w.fs.kernel me j' (some f), n⟩
          [] [] [] _ := hdup.setFd halive fun g => by
        rw [hfree, Option.toList_none, Option.toList_some, List.count_nil, Nat.add_zero, Nat.zero_add]
      rw [wp_bind, filedup, wp_bind, wp_get]
      have hpos : ¬ ((w.fs.setFd me j' (some f)).file f).ref < 1 := not_lt.mpr href
      rw [if_neg hpos, wp_modify]
      exact hgive.settled

end Descriptors

end OsProject.Calls
