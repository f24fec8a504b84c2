import OsProject.KernelCalls
import OsProject.SlotRefs

/-! The invariant of the open files, the pipes and the inode table, and how the calls on names keep
it. -/

namespace OsProject.Calls

open Vm (PipeEnds)

/-- The descriptors of a process that point to `f`. -/
def opens (p : Proc) (f : Fin NFILE) : Nat := ∑ fd, if p.ofile fd = some f then 1 else 0

/-- The descriptors of all processes that point to `f`. -/
def descriptors (k : Kernel) (f : Fin NFILE) : Nat := ∑ p, opens (k.proc p) f

/-- The open file `f` is an end of the pipe at `pi`. -/
def IsEnd (w : World) (f : Fin NFILE) (pi : Nat) (writable : Bool) : Prop :=
  (w.fs.file f).type = .pipe ∧ w.pipeOf f = pi ∧ (w.fs.file f).writable = writable

structure PipesOk (w : World) : Prop where
  one : ∀ f g pi writable, IsEnd w f pi writable → IsEnd w g pi writable → f = g
  live : ∀ pi, (w.pipe pi).isSome ↔ ∃ f writable, IsEnd w f pi writable
  flags : ∀ pi ends, w.pipe pi = some ends →
    ∀ writable, ends.isOpen writable = true ↔ ∃ f, IsEnd w f pi writable

/-- The process table, the one whose pointers are counted, and the transactions that are open.
The first two differ while a process still has a pointer that it has given up. -/
structure Frame where
  kernel : Kernel
  counted : Kernel
  outstanding : Int

abbrev Frame.inOp (c : Frame) : Frame := { c with outstanding := c.outstanding + 1 }

def referrers (k : Kernel) (file : Fin NFILE → File) (i : Slot) : Nat :=
  ∑ p, (k.proc p).holds i + ∑ f, (file f).holds i

def World.outside (w : World) (k : Kernel) : Outside where
  file := w.fs.file
  kernel := w.fs.kernel
  hold := referrers k w.fs.file

def Idle (p : Proc) : Prop := ¬ p.Alive → p.cwd = none ∧ ∀ fd, p.ofile fd = none

/-- Beside the pointers that are counted the running call has references `held` to inodes and
`loose` to open files, and the locks `locks`. -/
structure WorldOk (c : Frame) (held locks : List Slot) (loose : List (Fin NFILE)) (w : World) :
    Prop where
  kernel : w.fs.kernel = c.kernel
  slots : Held (w.outside c.counted) held locks w.fs
  refs : ∀ f, (w.fs.file f).ref = descriptors c.counted f + loose.count f
  closed : ∀ f, (w.fs.file f).ref = 0 → (w.fs.file f).type = .none
  pipes : PipesOk w
  idle : ∀ p, Idle (c.counted.proc p)
  outstanding : w.outstanding = c.outstanding

def Calm : CallPanic → Prop
  | .fs e => Quiet e
  | .vm _ => True
  | .freedPipe => False

variable {sb : Superblock} {c : Frame} {held held' locks locks' : List Slot}
  {loose loose' : List (Fin NFILE)} {w : World} {ip dp : Slot} {me : Fin NPROC} {α : Type}

theorem wp_onFs {x : FsM α} {Q : α → World → Prop} {E : CallPanic → Prop} : wp (onFs x) Q E w ↔
    wp x (fun a s => Q a { w with fs := s }) (fun e => E (.fs e)) w.fs := wp_zoom

theorem wp_getFs {Q : Fs → World → Prop} {E : CallPanic → Prop} :
    wp (liftM getFs) Q E w ↔ Q w.fs w := Iff.rfl

namespace WorldOk

theorem table (h : WorldOk c held locks loose w) {s : Fs}
    (hs : Held (w.outside c.counted) held' locks' s) :
    WorldOk c held' locks' loose { w with fs := s } := by
  have hfile : s.file = w.fs.file := hs.file
  refine ⟨hs.kernel.trans h.kernel, ?_, fun f => ?_, fun f => ?_, ?_, h.idle, h.outstanding⟩
  · refine ⟨rfl, rfl, hs.unique, fun i => ?_, hs.locked⟩
    show _ = (referrers c.counted s.file i : Int) + _
    rw [hfile]
    exact hs.refs i
  · rw [hfile]
    exact h.refs f
  · rw [hfile]
    exact h.closed f
  · have hend : ∀ f pi writable, IsEnd { w with fs := s } f pi writable ↔ IsEnd w f pi writable :=
      fun f pi writable => by simp only [IsEnd, hfile]
    refine ⟨fun f g pi writable => ?_, fun pi => ?_, fun pi ends hpi writable => ?_⟩
    · rw [hend, hend]
      exact h.pipes.one f g pi writable
    · simp only [hend]
      exact h.pipes.live pi
    · simp only [hend]
      exact h.pipes.flags pi ends hpi writable

theorem lift {x : FsM α} {held' locks' : α → List Slot} (h : WorldOk c held locks loose w)
    (hx : wp x (fun a s => Held (w.outside c.counted) (held' a) (locks' a) s) Quiet w.fs) :
    wp (onFs x) (fun a w' => WorldOk c (held' a) (locks' a) loose w') Calm w := by
  rw [wp_onFs]
  exact wp_post hx fun _ _ hs => h.table hs

theorem still {x : FsM α} (h : WorldOk c held locks loose w) (hx : Still w.fs.table x) :
    wp (onFs x) (fun _ w' => WorldOk c held locks loose w') Calm w :=
  h.lift (h.slots.still hx)

theorem perm (h : WorldOk c held locks loose w) (hperm : held.Perm held') :
    WorldOk c held' locks loose w :=
  { h with slots := h.slots.perm hperm }

theorem ilock (h : WorldOk c held locks loose w) : wp (onFs (ilock ip))
    (fun _ w' => ip ∉ locks ∧ WorldOk c held (ip :: locks) loose w') Calm w := by
  rw [wp_onFs]
  exact wp_post (ilock_held h.slots) fun _ _ hs => ⟨hs.1, h.table hs.2⟩

theorem iunlock (h : WorldOk c held (ip :: locks) loose w) (hip : ip ∉ locks) :
    wp (onFs (iunlock ip)) (fun _ w' => WorldOk c held locks loose w') Calm w :=
  h.lift (iunlock_held h.slots (mem_locks_cons hip))

theorem iput (h : WorldOk c (ip :: held) locks loose w) :
    wp (onFs (iput sb ip)) (fun _ w' => WorldOk c held locks loose w') Calm w :=
  h.lift (iput_held h.slots)

theorem iunlockput (h : WorldOk c (ip :: held) (ip :: locks) loose w) (hip : ip ∉ locks) :
    wp (onFs (iunlockput sb ip)) (fun _ w' => WorldOk c held locks loose w') Calm w :=
  h.lift (iunlockput_held h.slots (mem_locks_cons hip))

theorem dirlookup (h : WorldOk c held locks loose w) (name : Name) :
    wp (onFs (dirlookup sb dp name))
      (fun r w' => WorldOk c ((r.map Prod.fst).toList ++ held) locks loose w') Calm w :=
  h.lift (dirlookup_held name h.slots)

theorem dirlink (h : WorldOk c held locks loose w) (name : Name) (inum : Nat) :
    wp (onFs (dirlink sb dp name inum)) (fun _ w' => WorldOk c held locks loose w') Calm w :=
  h.lift (dirlink_held name inum h.slots)

theorem hold_cwd (h : WorldOk c held locks loose w) (hc : c.counted = c.kernel) (d : Slot)
    (hd : ((w.outside c.counted).kernel.proc me).cwd = some d) :
    0 < (w.outside c.counted).hold d := by
  have hk : c.counted = w.fs.kernel := hc.trans h.kernel.symm
  show 0 < referrers c.counted w.fs.file d
  rw [hk]
  exact holders_pos_of_cwd hd

theorem namei (h : WorldOk c held locks loose w) (hc : c.counted = c.kernel) (path : List UInt8) :
    wp (onFs (namei sb me path))
      (fun r w' => WorldOk c (r.toList ++ held) locks loose w') Calm w :=
  h.lift (namei_held (h.hold_cwd hc) path h.slots)

theorem nameiparent (h : WorldOk c held locks loose w) (hc : c.counted = c.kernel)
    (path : List UInt8) : wp (onFs (nameiparent sb me path))
      (fun r w' => WorldOk c ((r.map Prod.fst).toList ++ held) locks loose w') Calm w :=
  h.lift (nameiparent_held (h.hold_cwd hc) path h.slots)

theorem create (h : WorldOk c held locks loose w) (hc : c.counted = c.kernel)
    (path : List UInt8) (type : FileType) (major minor : Int) :
    wp (onFs (create sb me path type major minor)) (fun r w' => match r with
      | none => WorldOk c held locks loose w'
      | some ip => ip ∉ locks ∧ WorldOk c (ip :: held) (ip :: locks) loose w') Calm w := by
  rw [wp_onFs]
  refine wp_post (create_held (h.hold_cwd hc) path type major minor h.slots) ?_
  rintro (_ | ip) s hs
  · exact h.table hs
  · exact ⟨hs.1, h.table hs.2⟩

theorem beginOp (h : WorldOk c held locks loose w) :
    wp beginOp (fun _ w' => WorldOk c.inOp held locks loose w') Calm w := by
  have hout : w.outstanding + 1 = c.outstanding + 1 := by rw [h.outstanding]
  exact ⟨h.kernel, h.slots, h.refs, h.closed, ⟨h.pipes.one, h.pipes.live, h.pipes.flags⟩, h.idle, hout⟩

theorem endOp (h : WorldOk c.inOp held locks loose w) :
    wp endOp (fun _ w' => WorldOk c held locks loose w') Calm w := by
  have hout : w.outstanding - 1 = c.outstanding := by
    rw [h.outstanding]
    exact Int.add_sub_cancel _ _
  have hslots := h.slots
  exact ⟨h.kernel, ⟨hslots.file, hslots.kernel, hslots.unique, hslots.refs, hslots.locked⟩, h.refs,
    h.closed, ⟨h.pipes.one, h.pipes.live, h.pipes.flags⟩, h.idle, hout⟩

theorem endOp_return (h : WorldOk c.inOp held locks loose w) (r : Int) :
    wp (do Calls.endOp; return r) (fun _ w' => WorldOk c held locks loose w') Calm w := by
  exact wp_seq h.endOp fun _ _ h' => h'

end WorldOk

section Names

variable (hc : c.counted = c.kernel)

theorem linkBad_ok (h : WorldOk c.inOp [ip] [] [] w) :
    wp (linkBad sb ip) (fun _ w' => WorldOk c [] [] [] w') Calm w := by
  rw [linkBad]
  refine wp_seq h.ilock ?_
  rintro - w1 ⟨hip, h1⟩
  refine wp_seq (h1.still (addNlink_still ip _)) fun _ w2 h2 => ?_
  exact wp_seq (h2.iunlockput hip) fun _ w3 h3 => h3.endOp_return _

include hc in
theorem linkEntry_ok (inum : Nat) (new : List UInt8) (h : WorldOk c.inOp [ip] [] [] w) :
    wp (linkEntry sb me ip inum new) (fun _ w' => WorldOk c [] [] [] w') Calm w := by
  rw [linkEntry]
  refine wp_seq (h.nameiparent hc new) ?_
  rintro (_ | ⟨dp, name⟩) w1 h1
  · exact linkBad_ok h1
  · refine wp_seq h1.ilock ?_
    rintro - w2 ⟨hdp, h2⟩
    refine wp_seq (h2.dirlink name inum) fun r w3 h3 => ?_
    refine wp_seq (h3.iunlockput hdp) fun _ w4 h4 => ?_
    split_ifs
    · exact linkBad_ok h4
    · exact wp_seq h4.iput fun _ w5 h5 => h5.endOp_return _

include hc in
theorem sysLink_ok (old new : Option (List UInt8)) (h : WorldOk c [] [] [] w) :
    wp (sysLink sb me old new) (fun _ w' => WorldOk c [] [] [] w') Calm w := by
  rw [sysLink]
  split
  · refine wp_seq h.beginOp fun _ w1 h1 => ?_
    refine wp_seq (h1.namei hc _) ?_
    rintro (_ | ip) w2 h2
    · exact h2.endOp_return _
    · refine wp_seq h2.ilock ?_
      rintro - w3 ⟨hip, h3⟩
      refine wp_seq (h3.still (getInode_still ip)) fun i w4 h4 => ?_
      split_ifs
      · exact wp_seq (h4.iunlockput hip) fun _ w5 h5 => h5.endOp_return _
      · refine wp_seq (h4.still (addNlink_still ip 1)) fun _ w5 h5 => ?_
        exact wp_seq (h5.iunlock hip) fun _ w6 h6 => linkEntry_ok hc _ _ h6
  · exact h

theorem unlinkBad_ok (h : WorldOk c.inOp [dp] [dp] [] w) :
    wp (unlinkBad sb dp) (fun _ w' => WorldOk c [] [] [] w') Calm w := by
  rw [unlinkBad]
  exact wp_seq (h.iunlockput (by simp)) fun _ w1 h1 => h1.endOp_return _

theorem unlinkEntry_ok (isDir : Bool) (off : Nat) (hip : ip ∉ [dp])
    (h : WorldOk c.inOp [ip, dp] [ip, dp] [] w) :
    wp (unlinkEntry sb dp ip isDir off) (fun _ w' => WorldOk c [] [] [] w') Calm w := by
  have hdp : dp ∉ ([] : List Slot) := by simp
  rw [unlinkEntry]
  refine wp_seq (h.still (writeDirent_still dp _ _)) fun r w1 h1 => ?_
  by_cases hr : r ≠ 16
  · rw [if_pos hr]
    exact (by decide : Quiet .unlinkWritei)
  · rw [if_neg hr]
    refine wp_seq (h1.still (Maintains.ite (addNlink_still dp _) (.pure _))) fun _ w2 h2 => ?_
    rw [unlinkInode, wp_bind]
    -- the directory goes first
    have h2' := h2.perm (List.Perm.swap dp ip [])
    have hput : wp (onFs (iunlockput sb dp)) (fun _ w' => WorldOk c.inOp [ip] [ip] [] w') Calm w2 :=
      h2'.lift (iunlockput_held h2'.slots (mem_locks_second hip hdp))
    refine wp_post hput fun _ w3 h3 => ?_
    refine wp_seq (h3.still (addNlink_still ip _)) fun _ w4 h4 => ?_
    exact wp_seq (h4.iunlockput (by simp)) fun _ w5 h5 => h5.endOp_return _

include hc in
theorem sysUnlink_ok (path : Option (List UInt8)) (h : WorldOk c [] [] [] w) :
    wp (sysUnlink sb me path) (fun _ w' => WorldOk c [] [] [] w') Calm w := by
  rw [sysUnlink]
  split
  · exact h
  · refine wp_seq h.beginOp fun _ w1 h1 => ?_
    refine wp_seq (h1.nameiparent hc _) ?_
    rintro (_ | ⟨dp, name⟩) w2 h2
    · exact h2.endOp_return _
    · refine wp_seq h2.ilock ?_
      rintro - w3 ⟨-, h3⟩
      split_ifs
      · exact unlinkBad_ok h3
      · refine wp_seq (h3.dirlookup name) ?_
        rintro (_ | ⟨ip, off⟩) w4 h4
        · exact unlinkBad_ok h4
        · refine wp_seq h4.ilock ?_
          rintro - w5 ⟨hip, h5⟩
          refine wp_seq (h5.still (getInode_still ip)) fun i w6 h6 => ?_
          split_ifs
          · exact (by decide : Quiet .unlinkNlink)
          · refine wp_seq (h6.still (isdirempty_still ip)) fun empty w7 h7 => ?_
            split_ifs
            · exact unlinkEntry_ok true off hip h7
            · exact wp_seq (h7.iunlockput hip) fun _ w8 h8 => unlinkBad_ok h8
          · exact unlinkEntry_ok false off hip h6

include hc in
theorem sysCreate_ok (path : Option (List UInt8)) (type : FileType) (major minor : Int)
    (h : WorldOk c [] [] [] w) :
    wp (sysCreate sb me path type major minor) (fun _ w' => WorldOk c [] [] [] w') Calm w := by
  rw [sysCreate]
  refine wp_seq h.beginOp fun _ w1 h1 => ?_
  split
  · exact h1.endOp_return _
  · refine wp_seq (h1.create hc _ type major minor) ?_
    rintro (_ | ip) w2 h2
    · exact h2.endOp_return _
    · exact wp_seq (h2.2.iunlockput h2.1) fun _ w3 h3 => h3.endOp_return _

end Names

end OsProject.Calls
