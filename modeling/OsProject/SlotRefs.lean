import OsProject.TableFrame

/-! References and locks of the inode table, for any volume: what each function of `fs.c` takes and
gives back, on every path through it. -/

namespace OsProject

/-- What lies outside the inode table: the open files, the processes, and how many of them refer to
each slot. -/
structure Outside where
  file : Fin NFILE → File
  kernel : Kernel
  hold : Slot → Nat

/-- Beside the references from outside the running call has the references `held`, and it has the
locks `locks`. -/
structure Held (o : Outside) (held locks : List Slot) (s : Fs) : Prop where
  file : s.file = o.file
  kernel : s.kernel = o.kernel
  unique : ∀ i j, 0 < (s.inode i).ref → 0 < (s.inode j).ref →
    (s.inode i).inum = (s.inode j).inum → i = j
  refs : ∀ i, (s.inode i).ref = o.hold i + held.count i
  locked : ∀ i, (s.inode i).locked = true ↔ i ∈ locks

variable {sb : Superblock} {o : Outside} {held held' locks locks' : List Slot} {s s' : Fs}
  {ip dp : Slot} {α : Type}

namespace Held

theorem of_table (h : Held o held locks s) (ht : s'.table = s.table) : Held o held locks s' := by
  simp only [Fs.table, Prod.mk.injEq, funext_iff] at ht
  obtain ⟨hfile, hkernel, hslot⟩ := ht
  refine ⟨(funext hfile).trans h.file, hkernel.trans h.kernel, fun i j => ?_, fun i => ?_, fun i => ?_⟩
  · rw [(hslot i).1, (hslot i).2.1, (hslot j).1, (hslot j).2.1]
    exact h.unique i j
  · rw [(hslot i).2.1]
    exact h.refs i
  · rw [(hslot i).2.2]
    exact h.locked i

theorem still {x : FsM α} (h : Held o held locks s) (hx : Still s.table x) :
    wp x (fun _ s' => Held o held locks s') Quiet s :=
  wp_post (hx s rfl) fun _ _ ht => h.of_table ht

theorem perm (h : Held o held locks s) (hperm : held.Perm held') : Held o held' locks s :=
  { h with refs := fun i => by rw [← hperm.count_eq]; exact h.refs i }

theorem ref_pos (h : Held o held locks s) (hip : 0 < o.hold ip ∨ ip ∈ held) :
    0 < (s.inode ip).ref := by
  have hrefs := h.refs ip
  rcases hip with hip | hip
  · omega
  · have := List.count_pos_iff.mpr hip
    omega

theorem setInode (h : Held o held locks s) {x : Inode}
    (hinum : 0 < x.ref → ∀ j, j ≠ ip → 0 < (s.inode j).ref → (s.inode j).inum ≠ x.inum)
    (href : x.ref = o.hold ip + held'.count ip)
    (hcount : ∀ j, j ≠ ip → held'.count j = held.count j)
    (hlocked : x.locked = true ↔ ip ∈ locks') (hlocks : ∀ j, j ≠ ip → (j ∈ locks' ↔ j ∈ locks)) :
    Held o held' locks' (s.setInode ip x) := by
  have hself : (s.setInode ip x).inode ip = x := Function.update_self _ _ _
  have hother : ∀ {j}, j ≠ ip → (s.setInode ip x).inode j = s.inode j := fun hj =>
    Function.update_of_ne hj _ _
  refine ⟨h.file, h.kernel, fun i j hi hj he => ?_, fun i => ?_, fun i => ?_⟩
  · by_cases hip : i = ip <;> by_cases hjp : j = ip
    · rw [hip, hjp]
    · subst hip
      rw [hself] at hi he
      rw [hother hjp] at hj he
      exact absurd he.symm (hinum hi j hjp hj)
    · subst hjp
      rw [hself] at hj he
      rw [hother hip] at hi he
      exact absurd he (hinum hj i hip hi)
    · rw [hother hip] at hi he
      rw [hother hjp] at hj he
      exact h.unique i j hi hj he
  · by_cases hip : i = ip
    · rw [hip, hself, href]
    · rw [hother hip, hcount i hip]
      exact h.refs i
  · by_cases hip : i = ip
    · rw [hip, hself, hlocked]
    · rw [hother hip, hlocks i hip]
      exact h.locked i

theorem setRef (h : Held o held locks s) {v : Int} (hpos : 0 < (s.inode ip).ref)
    (href : v = o.hold ip + held'.count ip)
    (hcount : ∀ j, j ≠ ip → held'.count j = held.count j) :
    Held o held' locks (s.setInode ip { s.inode ip with ref := v }) := by
  refine h.setInode (fun _ j hj hr he => ?_) href hcount (h.locked ip) fun _ _ => Iff.rfl
  exact hj (h.unique j ip hr hpos he)

end Held

section Slots

theorem iget_held (n : Nat) (h : Held o held locks s) :
    wp (iget n) (fun ip s' => Held o (ip :: held) locks s') Quiet s := by
  rw [iget, wp_bind, wp_get]
  cases hfound : (List.finRange NINODE).find? fun ip =>
      0 < (s.inode ip).ref ∧ (s.inode ip).inum = n with
  | some ip =>
    have hip : 0 < (s.inode ip).ref ∧ (s.inode ip).inum = n := by
      simpa using List.find?_some hfound
    have hrefs := h.refs ip
    simp only [wp_bind, modInode, wp_modify, wp_pure]
    refine h.setRef hip.1 ?_ fun j hj => List.count_cons_of_ne (Ne.symm hj)
    rw [List.count_cons_self]
    omega
  | none =>
    cases hfree : (List.finRange NINODE).find? fun ip => (s.inode ip).ref = 0 with
    | none => simp [Quiet]
    | some ip =>
      have hip : (s.inode ip).ref = 0 := by simpa using List.find?_some hfree
      have hrefs := h.refs ip
      simp only [wp_bind, modInode, wp_modify, wp_pure]
      refine h.setInode (fun _ j _ hr he => ?_) ?_ (fun j hj => List.count_cons_of_ne (Ne.symm hj))
        (h.locked ip) fun _ _ => Iff.rfl
      · -- no slot in use has this number
        have hnot := List.find?_eq_none.mp hfound j (List.mem_finRange j)
        exact hnot (by simpa using ⟨hr, he⟩)
      · rw [List.count_cons_self]
        show (1 : Int) = _
        omega

theorem idup_held (hip : 0 < o.hold ip ∨ ip ∈ held) (h : Held o held locks s) :
    wp (idup ip) (fun ip' s' => ip' = ip ∧ Held o (ip :: held) locks s') Quiet s := by
  have hrefs := h.refs ip
  rw [idup, wp_bind, modInode, wp_modify, wp_pure]
  refine ⟨rfl, h.setRef (h.ref_pos hip) ?_ fun j hj => List.count_cons_of_ne (Ne.symm hj)⟩
  rw [List.count_cons_self]
  omega

theorem ilock_held (h : Held o held locks s) :
    wp (ilock ip) (fun _ s' => ip ∉ locks ∧ Held o held (ip :: locks) s') Quiet s := by
  -- the slot is locked, whether its inode has to be read or not
  have hset : ∀ x : Inode, x.inum = (s.inode ip).inum → x.ref = (s.inode ip).ref →
      x.locked = true → (s.inode ip).locked ≠ true → ¬ (s.inode ip).ref < 1 →
      ip ∉ locks ∧ Held o held (ip :: locks) (s.setInode ip x) := by
    intro x hinum href hlocked hfree hpos
    refine ⟨fun hmem => hfree ((h.locked ip).mpr hmem), h.setInode (fun _ j hj hr he => ?_) ?_
      (fun _ _ => rfl) (by simpa using hlocked) fun j hj => ?_⟩
    · exact hj (h.unique j ip hr (by omega) (he.trans hinum))
    · rw [href]
      exact h.refs ip
    · simp [hj]
  simp only [ilock, getInode, modInode, wp_bind, wp_get, wp_pure, wp_ite, wp_throw, wp_modify]
  refine ⟨fun _ => by decide, fun hpos => ⟨fun _ => by decide, fun hfree => ⟨fun _ => ?_, fun _ =>
    ⟨fun _ => by decide, fun _ => ?_⟩⟩⟩⟩
  · exact hset _ rfl rfl rfl hfree hpos
  · exact hset _ rfl rfl rfl hfree hpos

theorem iunlock_held (h : Held o held locks s)
    (hlocks : ∀ i, i ∈ locks' ↔ i ∈ locks ∧ i ≠ ip) :
    wp (iunlock ip) (fun _ s' => Held o held locks' s') Quiet s := by
  simp only [iunlock, getInode, modInode, wp_bind, wp_get, wp_pure, wp_ite, wp_throw, wp_modify]
  refine ⟨fun _ => by decide, fun hpos => ?_⟩
  refine h.setInode (fun _ j hj hr he => ?_) (h.refs ip) (fun _ _ => rfl) ?_ fun j hj => ?_
  · rw [not_or] at hpos
    exact hj (h.unique j ip hr (by omega) he)
  · simp [hlocks]
  · simp [hlocks, hj]

theorem iput_held (h : Held o (ip :: held) locks s) :
    wp (iput sb ip) (fun _ s' => Held o held locks s') Quiet s := by
  -- the reference is dropped at the end, after the inode may have been deleted
  have hdrop : ∀ s', Held o (ip :: held) locks s' →
      Held o held locks (s'.setInode ip { s'.inode ip with ref := (s'.inode ip).ref - 1 }) := by
    intro s' h'
    have hrefs := h'.refs ip
    rw [List.count_cons_self] at hrefs
    refine h'.setRef (h'.ref_pos (.inr List.mem_cons_self)) ?_ fun j hj => ?_
    · omega
    · exact (List.count_cons_of_ne (Ne.symm hj)).symm
  rw [iput]
  refine wp_seq (h.still (getInode_still ip)) fun i s1 h1 => ?_
  dsimp only
  split_ifs
  · exact wp_seq (h1.still (ifree_still ip)) fun _ s2 h2 => hdrop s2 h2
  · exact hdrop s1 h1

theorem iunlockput_held (h : Held o (ip :: held) locks s)
    (hlocks : ∀ i, i ∈ locks' ↔ i ∈ locks ∧ i ≠ ip) :
    wp (iunlockput sb ip) (fun _ s' => Held o held locks' s') Quiet s := by
  rw [iunlockput]
  exact wp_seq (iunlock_held h hlocks) fun _ _ h' => iput_held h'

theorem ialloc_held (type : FileType) (h : Held o held locks s) :
    wp (ialloc sb type) (fun r s' => Held o (r.toList ++ held) locks s') Quiet s := by
  rw [ialloc, wp_bind, wp_get]
  split
  · refine wp_seq (h.still (setDinode_still _ _)) fun _ s' h' => ?_
    exact wp_seq (iget_held _ h') fun _ _ h' => h'
  · exact h

end Slots

theorem mem_locks_cons (hip : ip ∉ locks) (i : Slot) : i ∈ locks ↔ i ∈ ip :: locks ∧ i ≠ ip := by
  grind

section Directories

theorem dirlookup_held (name : Name) (h : Held o held locks s) :
    wp (dirlookup sb dp name)
      (fun r s' => Held o ((r.map Prod.fst).toList ++ held) locks s') Quiet s := by
  simp only [dirlookup, getInode, wp_bind, wp_get, wp_pure, wp_ite, wp_throw]
  refine ⟨fun _ => ?_, fun _ => by decide⟩
  refine wp_post (h.still (dirScan_still dp name _)) ?_
  rintro (_ | ⟨off, inum⟩) s' h'
  · exact h'
  · exact wp_seq (iget_held inum h') fun _ _ h' => h'

theorem dirlink_held (name : Name) (inum : Nat) (h : Held o held locks s) :
    wp (dirlink sb dp name inum) (fun _ s' => Held o held locks s') Quiet s := by
  rw [dirlink]
  refine wp_seq (dirlookup_held name h) ?_
  rintro (_ | ⟨ip, off⟩) s' h'
  · refine wp_seq (h'.still (getInode_still dp)) fun d s' h' => ?_
    refine wp_seq (h'.still (dirFindFree_still dp _ _)) fun off s' h' => ?_
    refine wp_seq (h'.still (writeDirent_still dp _ _)) fun r s' h' => ?_
    split_ifs
    · exact h'
    · exact h'
  · exact wp_seq (iput_held h') fun _ _ h' => h'

theorem namexLoop_held (parent : Bool) (elems : List Name) (h : Held o (ip :: held) locks s) :
    wp (namexLoop sb parent ip elems)
      (fun r s' => Held o ((r.map Prod.fst).toList ++ held) locks s') Quiet s := by
  induction elems generalizing ip s with
  | nil =>
    rw [namexLoop]
    split_ifs
    · exact wp_seq (iput_held h) fun _ _ h' => h'
    · exact h
  | cons name elems ih =>
    rw [namexLoop]
    refine wp_seq (ilock_held h) ?_
    rintro - s1 ⟨hfree, h1⟩
    have hdone : ∀ {s2}, Held o (ip :: held) (ip :: locks) s2 →
        wp (do iunlockput sb ip; return (none : Option (Slot × Name)))
          (fun r s' => Held o ((r.map Prod.fst).toList ++ held) locks s') Quiet s2 := by
      intro s2 h2
      exact wp_seq (iunlockput_held h2 (mem_locks_cons hfree)) fun _ _ h' => h'
    refine wp_seq (h1.still (getInode_still ip)) fun d s2 h2 => ?_
    split_ifs with htype hlast
    · exact hdone h2
    · exact wp_seq (iunlock_held h2 (mem_locks_cons hfree)) fun _ _ h' => h'
    · refine wp_seq (dirlookup_held name h2) ?_
      rintro (_ | ⟨next, off⟩) s3 h3
      · exact hdone h3
      · rw [wp_bind]
        have h3' := h3.perm (List.Perm.swap ip next held)
        exact wp_post (iunlockput_held h3' (mem_locks_cons hfree)) fun _ _ h' => ih h'

end Directories

section Paths

variable {me : Fin NPROC} (hcwd : ∀ c, (o.kernel.proc me).cwd = some c → 0 < o.hold c)
include hcwd

theorem namex_held (path : List UInt8) (parent : Bool) (h : Held o held locks s) :
    wp (namex sb me path parent)
      (fun r s' => Held o ((r.map Prod.fst).toList ++ held) locks s') Quiet s := by
  rw [namex, wp_bind, wp_get]
  split_ifs
  · exact wp_seq (iget_held _ h) fun _ _ h' => namexLoop_held parent _ h'
  · rw [h.kernel]
    cases hc : (o.kernel.proc me).cwd with
    | none => exact (by decide : Quiet .kerneltrap)
    | some c =>
      refine wp_seq (idup_held (.inl (hcwd c hc)) h) ?_
      rintro _ s' ⟨rfl, h'⟩
      exact namexLoop_held parent _ h'

theorem namei_held (path : List UInt8) (h : Held o held locks s) :
    wp (namei sb me path) (fun r s' => Held o (r.toList ++ held) locks s') Quiet s := by
  rw [namei]
  exact wp_seq (namex_held hcwd path false h) fun _ _ h' => h'

theorem nameiparent_held (path : List UInt8) (h : Held o held locks s) :
    wp (nameiparent sb me path)
      (fun r s' => Held o ((r.map Prod.fst).toList ++ held) locks s') Quiet s :=
  namex_held hcwd path true h

end Paths

section Create

def CreatedSlot (o : Outside) (held locks : List Slot) (r : Option Slot) (s : Fs) : Prop :=
  match r with
  | none => Held o held locks s
  | some ip => ip ∉ locks ∧ Held o (ip :: held) (ip :: locks) s

variable (hip : ip ∉ dp :: locks) (hdp : dp ∉ locks)
include hip hdp

theorem mem_locks_second (i : Slot) : i ∈ ip :: locks ↔ i ∈ ip :: dp :: locks ∧ i ≠ dp := by
  grind

theorem createFail_held (h : Held o (ip :: dp :: held) (ip :: dp :: locks) s) :
    wp (createFail sb dp ip) (CreatedSlot o held locks) Quiet s := by
  simp only [createFail, wp_bind]
  refine wp_post (h.still (modInode_still ip fun _ => ⟨rfl, rfl, rfl⟩)) fun _ s1 h1 => ?_
  refine wp_post (h1.still (iupdate_still ip)) fun _ s2 h2 => ?_
  refine wp_post (iunlockput_held h2 (mem_locks_cons hip)) fun _ s3 h3 => ?_
  exact wp_post (iunlockput_held h3 (mem_locks_cons hdp)) fun _ _ h4 => h4

theorem createEntry_held (name : Name) (inum : Nat) (type : FileType)
    (h : Held o (ip :: dp :: held) (ip :: dp :: locks) s) :
    wp (createEntry sb dp ip name inum type) (CreatedSlot o held locks) Quiet s := by
  have hnot : ip ∉ locks := fun hmem => hip (List.mem_cons_of_mem _ hmem)
  rw [createEntry]
  refine wp_seq (dirlink_held name inum h) fun r s1 h1 => ?_
  have hdone : ∀ {s2}, Held o (ip :: dp :: held) (ip :: dp :: locks) s2 →
      wp (do iunlockput sb dp; return some ip) (CreatedSlot o held locks) Quiet s2 := by
    intro s2 h2
    refine wp_seq (iunlockput_held (h2.perm (List.Perm.swap dp ip held))
      (mem_locks_second hip hdp)) fun _ _ h3 => ⟨hnot, h3⟩
  dsimp only
  split_ifs
  · exact createFail_held hip hdp h1
  · exact wp_seq (h1.still (addNlink_still dp 1)) fun _ _ h2 => hdone h2
  · exact hdone h1

end Create

theorem makeDots_held (self parent : Nat) (h : Held o held locks s) :
    wp (makeDots sb ip self parent) (fun _ s' => Held o held locks s') Quiet s := by
  rw [makeDots]
  refine wp_seq (dirlink_held dotName self h) fun r s1 h1 => ?_
  split_ifs
  · exact h1
  · exact wp_seq (dirlink_held dotDotName parent h1) fun _ _ h2 => h2

theorem createNew_held (name : Name) (type : FileType) (major minor : Int) (hdp : dp ∉ locks)
    (h : Held o (dp :: held) (dp :: locks) s) :
    wp (createNew sb dp name type major minor) (CreatedSlot o held locks) Quiet s := by
  rw [createNew]
  refine wp_seq (ialloc_held type h) ?_
  rintro (_ | ip) s1 h1
  · exact wp_seq (iunlockput_held h1 (mem_locks_cons hdp)) fun _ _ h2 => h2
  · refine wp_seq (ilock_held h1) ?_
    rintro - s2 ⟨hip, h2⟩
    refine wp_seq (h2.still (modInode_still ip fun _ => ⟨rfl, rfl, rfl⟩)) fun _ s3 h3 => ?_
    refine wp_seq (h3.still (iupdate_still ip)) fun _ s4 h4 => ?_
    refine wp_seq (h4.still (getInode_still dp)) fun d s5 h5 => ?_
    refine wp_seq (h5.still (getInode_still ip)) fun i s6 h6 => ?_
    have hend : ∀ (ok : Bool) (s7 : Fs), Held o (ip :: dp :: held) (ip :: dp :: locks) s7 →
        wp (if ok = true then createEntry sb dp ip name i.inum type else createFail sb dp ip)
          (CreatedSlot o held locks) Quiet s7 := by
      intro ok s7 h7
      split_ifs
      · exact createEntry_held hip hdp name i.inum type h7
      · exact createFail_held hip hdp h7
    split_ifs
    · exact wp_seq (makeDots_held i.inum d.inum h6) fun ok s7 h7 => hend ok s7 h7
    · exact hend true s6 h6

theorem create_held {me : Fin NPROC} (hcwd : ∀ c, (o.kernel.proc me).cwd = some c → 0 < o.hold c)
    (path : List UInt8) (type : FileType) (major minor : Int) (h : Held o held locks s) :
    wp (create sb me path type major minor) (CreatedSlot o held locks) Quiet s := by
  rw [create]
  refine wp_seq (nameiparent_held hcwd path h) ?_
  rintro (_ | ⟨dp, name⟩) s1 h1
  · exact h1
  · refine wp_seq (ilock_held h1) ?_
    rintro - s2 ⟨hdp, h2⟩
    refine wp_seq (dirlookup_held name h2) ?_
    rintro (_ | ⟨ip, off⟩) s3 h3
    · exact createNew_held name type major minor hdp h3
    · refine wp_seq (iunlockput_held (h3.perm (List.Perm.swap dp ip held)) (mem_locks_cons hdp))
        fun _ s4 h4 => ?_
      refine wp_seq (ilock_held h4) ?_
      rintro - s5 ⟨hip, h5⟩
      refine wp_seq (h5.still (getInode_still ip)) fun i s6 h6 => ?_
      split_ifs
      · exact ⟨hip, h6⟩
      · exact wp_seq (iunlockput_held h6 (mem_locks_cons hip)) fun _ _ h7 => h7

end OsProject
