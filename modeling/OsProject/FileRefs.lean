import OsProject.CallRefs

/-! Open files and pipes: `file.c`, `pipe.c`, and the calls that make and drop descriptors. -/

namespace OsProject.Calls

open Vm (PipeEnds)

variable {sb : Superblock} {c : Frame} {held held' locks locks' : List Slot}
  {loose loose' : List (Fin NFILE)} {w w' : World} {ip : Slot} {me : Fin NPROC} {f : Fin NFILE}
  {k : Kernel} {n : Int}

section Tables

abbrev World.putFile (w : World) (f : Fin NFILE) (x : File) : World :=
  { w with fs := { w.fs with file := Function.update w.fs.file f x } }

theorem IsEnd.putFile_of_ne {g : Fin NFILE} (hg : g ≠ f) (x : File) {pi : Nat} {writable : Bool} :
    IsEnd (w.putFile f x) g pi writable ↔ IsEnd w g pi writable := by
  simp only [IsEnd, Function.update_of_ne hg]

theorem PipesOk.congr (h : PipesOk w) (hpipe : w'.pipe = w.pipe)
    (hend : ∀ g pi writable, IsEnd w' g pi writable ↔ IsEnd w g pi writable) : PipesOk w' := by
  refine ⟨fun f g pi writable => ?_, fun pi => ?_, fun pi ends hpi writable => ?_⟩
  · rw [hend, hend]
    exact h.one f g pi writable
  · simp only [hpipe, hend]
    exact h.live pi
  · simp only [hend]
    exact h.flags pi ends (hpipe ▸ hpi) writable

theorem PipesOk.putFile (h : PipesOk w) {x : File}
    (hx : x.type = (w.fs.file f).type ∧ x.writable = (w.fs.file f).writable ∨
      x.type ≠ .pipe ∧ (w.fs.file f).type ≠ .pipe) : PipesOk (w.putFile f x) := by
  refine h.congr rfl fun g pi writable => ?_
  by_cases hg : g = f
  · subst hg
    simp only [IsEnd, Function.update_self]
    rcases hx with ⟨htype, hwritable⟩ | ⟨hnew, hold⟩
    · rw [htype, hwritable]
    · simp only [hnew, hold, false_and]
  · exact IsEnd.putFile_of_ne hg x

theorem referrers_putFile (k : Kernel) (file : Fin NFILE → File) (f : Fin NFILE) (x : File)
    (i : Slot) : referrers k (Function.update file f x) i + (file f).holds i =
      referrers k file i + x.holds i := by
  have hsum := sum_update_add file (fun y => y.holds i) f x
  simp only [referrers]
  omega

theorem WorldOk.putEnd (h : WorldOk c held locks loose w) {x : File}
    {pipe : Nat → Option PipeEnds} {pipeOf : Fin NFILE → Nat}
    (hholds : ∀ i, x.holds i + held'.count i = (w.fs.file f).holds i + held.count i)
    (href : x.ref = descriptors c.counted f + loose'.count f)
    (hloose : ∀ g, g ≠ f → loose'.count g = loose.count g) (hclosed : x.ref = 0 → x.type = .none)
    (hpipes : PipesOk { w.putFile f x with pipe := pipe, pipeOf := pipeOf }) :
    WorldOk c held' locks loose' { w.putFile f x with pipe := pipe, pipeOf := pipeOf } := by
  refine ⟨h.kernel, ⟨rfl, rfl, h.slots.unique, fun i => ?_, h.slots.locked⟩, fun g => ?_, fun g => ?_,
    hpipes, h.idle, h.outstanding⟩
  · have hslot : (w.fs.inode i).ref = (referrers c.counted w.fs.file i : Int) + _ := h.slots.refs i
    have hsum := referrers_putFile c.counted w.fs.file f x i
    have hi := hholds i
    show (w.fs.inode i).ref =
      (referrers c.counted (Function.update w.fs.file f x) i : Int) + held'.count i
    omega
  · show (Function.update w.fs.file f x g).ref = _
    by_cases hg : g = f
    · rw [hg, Function.update_self]
      exact href
    · rw [hloose g hg, Function.update_of_ne hg]
      exact h.refs g
  · show (Function.update w.fs.file f x g).ref = 0 → (Function.update w.fs.file f x g).type = .none
    by_cases hg : g = f
    · rw [hg, Function.update_self]
      exact hclosed
    · rw [Function.update_of_ne hg]
      exact h.closed g

theorem WorldOk.putFile (h : WorldOk c held locks loose w) {x : File}
    (hholds : ∀ i, x.holds i + held'.count i = (w.fs.file f).holds i + held.count i)
    (href : x.ref = descriptors c.counted f + loose'.count f)
    (hloose : ∀ g, g ≠ f → loose'.count g = loose.count g) (hclosed : x.ref = 0 → x.type = .none)
    (hpipes : PipesOk (w.putFile f x)) : WorldOk c held' locks loose' (w.putFile f x) :=
  h.putEnd hholds href hloose hclosed hpipes

theorem WorldOk.setKernel (h : WorldOk c held locks loose w) {c' : Frame}
    (hout : c'.outstanding = c.outstanding)
    (hholds : ∀ i, ∑ p, (c'.counted.proc p).holds i + held'.count i =
      ∑ p, (c.counted.proc p).holds i + held.count i)
    (hopens : ∀ f, descriptors c'.counted f + loose'.count f =
      descriptors c.counted f + loose.count f)
    (hidle : ∀ p, Idle (c'.counted.proc p)) :
    WorldOk c' held' locks loose' { w with fs := { w.fs with kernel := c'.kernel } } := by
  refine ⟨rfl, ⟨rfl, rfl, h.slots.unique, fun i => ?_, h.slots.locked⟩, fun f => ?_, h.closed,
    ⟨h.pipes.one, h.pipes.live, h.pipes.flags⟩, hidle, h.outstanding.trans hout.symm⟩
  · have hslot : (w.fs.inode i).ref = (referrers c.counted w.fs.file i : Int) + _ := h.slots.refs i
    have hi := hholds i
    show (w.fs.inode i).ref = (referrers c'.counted w.fs.file i : Int) + held'.count i
    simp only [referrers] at hslot ⊢
    omega
  · have hf := hopens f
    have hrefs := h.refs f
    show (w.fs.file f).ref = _
    omega

theorem WorldOk.recount (h : WorldOk c held locks loose w) {k : Kernel}
    (hholds : ∀ i, ∑ p, (k.proc p).holds i + held'.count i =
      ∑ p, (c.counted.proc p).holds i + held.count i)
    (hopens : ∀ f, descriptors k f + loose'.count f = descriptors c.counted f + loose.count f)
    (hidle : ∀ p, Idle (k.proc p)) : WorldOk { c with counted := k } held' locks loose' w := by
  have hset : WorldOk { c with counted := k } held' locks loose' _ :=
    h.setKernel rfl hholds hopens hidle
  have hsame : ({ w with fs := { w.fs with kernel := c.kernel } } : World) = w := by rw [← h.kernel]
  rwa [hsame] at hset

theorem descriptors_setProc (k : Kernel) (me : Fin NPROC) (p : Proc) (f : Fin NFILE) :
    descriptors (k.setProc me p) f + opens (k.proc me) f = descriptors k f + opens p f :=
  sum_update_add k.proc (fun q => opens q f) me p

theorem holds_setProc (k : Kernel) (me : Fin NPROC) (p : Proc) (i : Slot) :
    ∑ q, ((k.setProc me p).proc q).holds i + (k.proc me).holds i =
      ∑ q, (k.proc q).holds i + p.holds i :=
  sum_update_add k.proc (fun q => q.holds i) me p

def withOfile (p : Proc) (fd : Fin NOFILE) (x : Option (Fin NFILE)) : Proc :=
  { p with ofile := Function.update p.ofile fd x }

theorem opens_withOfile (p : Proc) (fd : Fin NOFILE) (x : Option (Fin NFILE)) (f : Fin NFILE) :
    opens (withOfile p fd x) f + (p.ofile fd).toList.count f =
      opens p f + x.toList.count f := by
  have hcount : ∀ y : Option (Fin NFILE), y.toList.count f = if y = some f then 1 else 0 := by
    rintro (_ | g)
    · rfl
    · simp [List.count_singleton]
  rw [hcount, hcount]
  exact sum_update_add p.ofile (fun y => if y = some f then 1 else 0) fd x

abbrev setOfile (k : Kernel) (me : Fin NPROC) (fd : Fin NOFILE) (x : Option (Fin NFILE)) : Kernel :=
  k.setProc me (withOfile (k.proc me) fd x)

theorem descriptors_setOfile (k : Kernel) (me : Fin NPROC) (fd : Fin NOFILE)
    (x : Option (Fin NFILE)) (f : Fin NFILE) :
    descriptors (setOfile k me fd x) f + ((k.proc me).ofile fd).toList.count f =
      descriptors k f + x.toList.count f := by
  have hproc := descriptors_setProc k me (withOfile (k.proc me) fd x) f
  have hopens := opens_withOfile (k.proc me) fd x f
  show descriptors (k.setProc me _) f + _ = _
  omega

theorem holds_setOfile (k : Kernel) (me : Fin NPROC) (fd : Fin NOFILE) (x : Option (Fin NFILE))
    (i : Slot) : ∑ q, ((setOfile k me fd x).proc q).holds i = ∑ q, (k.proc q).holds i := by
  have hproc := holds_setProc k me (withOfile (k.proc me) fd x) i
  have hsame : (withOfile (k.proc me) fd x).holds i = (k.proc me).holds i := rfl
  show ∑ q, ((k.setProc me _).proc q).holds i = _
  omega

theorem idle_setProc {k : Kernel} (h : ∀ p, Idle (k.proc p)) {x : Proc} (hx : Idle x) (p : Fin NPROC) :
    Idle ((k.setProc me x).proc p) := by
  by_cases hp : p = me
  · rw [hp, Kernel.setProc_same]
    exact hx
  · rw [Kernel.setProc_of_ne _ hp]
    exact h p

theorem WorldOk.setFd (h : WorldOk ⟨k, k, n⟩ held locks loose w) (halive : (k.proc me).Alive)
    {fd : Fin NOFILE} {x : Option (Fin NFILE)}
    (hcount : ∀ f, x.toList.count f + loose'.count f =
      ((k.proc me).ofile fd).toList.count f + loose.count f) :
    WorldOk ⟨setOfile k me fd x, setOfile k me fd x, n⟩ held locks loose'
      { w with fs := w.fs.setFd me fd x } := by
  have hkernel : w.fs.kernel = k := h.kernel
  have hset : WorldOk ⟨setOfile k me fd x, setOfile k me fd x, n⟩ held locks loose'
      { w with fs := { w.fs with kernel := setOfile k me fd x } } := by
    refine h.setKernel rfl (fun i => ?_) (fun f => ?_) ?_
    · rw [holds_setOfile]
    · have hf := descriptors_setOfile k me fd x f
      have hc := hcount f
      show descriptors (setOfile k me fd x) f + _ = descriptors k f + _
      omega
    · exact idle_setProc h.idle fun hdead => absurd halive hdead
  rw [← hkernel] at hset ⊢
  exact hset

end Tables

section Pipes

theorem isOpen_close (e : PipeEnds) (writable b : Bool) :
    (e.close writable).isOpen b = (e.isOpen b && b != writable) := by
  cases writable <;> cases b <;> simp [PipeEnds.close, PipeEnds.isOpen]

theorem closed_iff (e : PipeEnds) :
    e.readopen = false ∧ e.writeopen = false ↔ ∀ b, e.isOpen b = false := by
  simp [PipeEnds.isOpen]

theorem PipesOk.close (h : PipesOk w) {pi : Nat} {writable : Bool} (hf : IsEnd w f pi writable)
    {ends : PipeEnds} (hpi : w.pipe pi = some ends)
    (hend : ∀ g p b, IsEnd w' g p b ↔ IsEnd w g p b ∧ g ≠ f)
    (hother : ∀ p, p ≠ pi → w'.pipe p = w.pipe p)
    (hself : w'.pipe pi = if ∀ b, (ends.close writable).isOpen b = false then none
      else some (ends.close writable)) : PipesOk w' := by
  have hflags := h.flags pi ends hpi
  have hclose : ∀ b, (ends.close writable).isOpen b = true ↔ ∃ g, IsEnd w' g pi b := by
    intro b
    rw [isOpen_close, Bool.and_eq_true, hflags, bne_iff_ne]
    constructor
    · rintro ⟨⟨g, hg⟩, hb⟩
      refine ⟨g, (hend g pi b).mpr ⟨hg, fun he => hb ?_⟩⟩
      rw [he] at hg
      exact hg.2.2.symm.trans hf.2.2
    · rintro ⟨g, hg⟩
      obtain ⟨hg, hne⟩ := (hend g pi b).mp hg
      refine ⟨⟨g, hg⟩, fun hb => hne ?_⟩
      exact h.one g f pi writable (hb ▸ hg) hf
  refine ⟨fun g g' p b hg hg' => ?_, fun p => ?_, fun p e hp b => ?_⟩
  · exact h.one g g' p b ((hend g p b).mp hg).1 ((hend g' p b).mp hg').1
  · by_cases hp : p = pi
    · rw [hp, hself]
      constructor
      · intro hsome
        split_ifs at hsome with hall
        · cases hsome
        · push Not at hall
          obtain ⟨b, hb⟩ := hall
          obtain ⟨g, hg⟩ := (hclose b).mp (by simpa using hb)
          exact ⟨g, b, hg⟩
      · rintro ⟨g, b, hg⟩
        have hopen := (hclose b).mpr ⟨g, hg⟩
        rw [if_neg fun hall => by rw [hall b] at hopen; cases hopen]
        rfl
    · rw [hother p hp, h.live p]
      refine exists_congr fun g => exists_congr fun b => ?_
      rw [hend, iff_self_and]
      rintro hg rfl
      exact hp (hg.2.1.symm.trans hf.2.1)
  · by_cases hpp : p = pi
    · rw [hpp, hself] at hp
      split_ifs at hp
      rw [← Option.some.inj hp, hpp]
      exact hclose b
    · rw [h.flags p e (hother p hpp ▸ hp) b]
      refine exists_congr fun g => ?_
      rw [hend, iff_self_and]
      rintro hg rfl
      exact hpp (hg.2.1.symm.trans hf.2.1)

theorem isEnd_putFile_none {x : File} (hx : x.type = .none) (g : Fin NFILE) (p : Nat) (b : Bool) :
    IsEnd (w.putFile f x) g p b ↔ IsEnd w g p b ∧ g ≠ f := by
  by_cases hg : g = f
  · subst hg
    simp [IsEnd, hx]
  · rw [IsEnd.putFile_of_ne hg]
    exact (and_iff_left hg).symm

end Pipes

section FileTable

theorem filealloc_ok (h : WorldOk c held locks loose w) :
    wp (onFs filealloc) (fun r w' => match r with
      | none => w' = w
      | some f => (w.fs.file f).ref = 0 ∧ w' = w.putFile f { w.fs.file f with ref := 1 } ∧
          WorldOk c held locks (f :: loose) w') Calm w := by
  rw [wp_onFs, filealloc, wp_bind, wp_get]
  cases hfind : (List.finRange NFILE).find? fun f => (w.fs.file f).ref = 0 with
  | none => rfl
  | some f =>
    have hz : (w.fs.file f).ref = 0 := by simpa using List.find?_some hfind
    have hrefs := h.refs f
    have hused : ({ w.fs.file f with ref := 1 } : File).ref ≠ 0 := by simp
    refine ⟨hz, rfl, h.putFile (fun _ => rfl) ?_ (fun g hg => ?_) (fun hz' => absurd hz' hused)
      (h.pipes.putFile (.inl ⟨rfl, rfl⟩))⟩
    · rw [List.count_cons_self]
      show (1 : Int) = _
      omega
    · exact List.count_cons_of_ne (Ne.symm hg)

theorem fdalloc_ok (h : WorldOk ⟨k, k, n⟩ held locks (f :: loose) w) (halive : (k.proc me).Alive) :
    wp (onFs (fdalloc me f)) (fun r w' => match r with
      | none => w' = w
      | some fd => (k.proc me).ofile fd = none ∧ w'.fs.file = w.fs.file ∧
          WorldOk ⟨setOfile k me fd (some f), setOfile k me fd (some f), n⟩ held locks loose w')
      Calm w := by
  have hkernel : w.fs.kernel = k := h.kernel
  rw [wp_onFs, fdalloc, wp_bind, wp_get, hkernel]
  cases hfind : (List.finRange NOFILE).find? fun fd => (k.proc me).ofile fd = none with
  | none => rfl
  | some fd =>
    have hfree : (k.proc me).ofile fd = none := by simpa using List.find?_some hfind
    refine ⟨hfree, rfl, h.setFd halive fun g => ?_⟩
    rw [hfree, Option.toList_none, Option.toList_some, List.count_nil, Nat.zero_add,
      ← List.count_append, List.singleton_append]

section Last

variable (h : WorldOk c held locks (f :: loose) w)
  (hlast : (0 : Int) = descriptors c.counted f + loose.count f)
  (hother : ∀ g, g ≠ f → loose.count g = (f :: loose).count g)
include h hlast hother

theorem closePipe_ok (hpipe : (w.fs.file f).type = .pipe) :
    wp (pipeclose (w.pipeOf f) (w.fs.file f).writable)
      (fun _ w' => WorldOk c held locks loose w') Calm
      (w.putFile f { w.fs.file f with ref := 0, type := .none }) := by
  have hend : IsEnd w f (w.pipeOf f) (w.fs.file f).writable := ⟨hpipe, rfl, rfl⟩
  obtain ⟨ends, hends⟩ := Option.isSome_iff_exists.mp ((h.pipes.live _).mpr ⟨f, _, hend⟩)
  have hholds : ∀ i, ({ w.fs.file f with ref := 0, type := .none } : File).holds i + held.count i =
      (w.fs.file f).holds i + held.count i := by
    intro i
    simp [File.holds, hpipe]
  have hdone : ∀ pipe : Nat → Option PipeEnds, (∀ p, p ≠ w.pipeOf f → pipe p = w.pipe p) →
      (pipe (w.pipeOf f) = if ∀ b, (ends.close (w.fs.file f).writable).isOpen b = false then none
        else some (ends.close (w.fs.file f).writable)) →
      WorldOk c held locks loose
        { w.putFile f { w.fs.file f with ref := 0, type := .none } with pipe := pipe } := by
    intro pipe hoff hself
    have hpipes : PipesOk
        { w.putFile f { w.fs.file f with ref := 0, type := .none } with pipe := pipe } :=
      h.pipes.close hend hends (isEnd_putFile_none rfl) hoff hself
    exact h.putEnd hholds hlast hother (fun _ => rfl) hpipes
  rw [pipeclose, wp_bind, wp_get]
  simp only [World.putFile, hends]
  rw [wp_ite, wp_modify, wp_modify, closed_iff]
  refine ⟨fun hall => hdone _ (fun p hp => Function.update_of_ne hp _ _) ?_,
    fun hopen => hdone _ (fun p hp => Function.update_of_ne hp _ _) ?_⟩
  · rw [if_pos hall]
    exact Function.update_self _ _ _
  · rw [if_neg hopen]
    exact Function.update_self _ _ _

theorem closeInode_ok (hpipe : (w.fs.file f).type ≠ .pipe) :
    wp (if (w.fs.file f).type = .inode ∨ (w.fs.file f).type = .device then do
        beginOp
        onFs (iput sb (w.fs.file f).ip)
        endOp
      else pure ()) (fun _ w' => WorldOk c held locks loose w') Calm
      (w.putFile f { w.fs.file f with ref := 0, type := .none }) := by
  have hpipes := h.pipes.putFile (f := f) (x := { w.fs.file f with ref := 0, type := .none })
    (.inr ⟨nofun, hpipe⟩)
  have hput : ∀ held', (∀ i, held'.count i = (w.fs.file f).holds i + held.count i) →
      WorldOk c held' locks loose (w.putFile f { w.fs.file f with ref := 0, type := .none }) := by
    intro held' hcount
    refine h.putFile (fun i => ?_) hlast hother (fun _ => rfl) hpipes
    rw [File.holds_eq_zero rfl, hcount, Nat.zero_add]
  by_cases hinode : (w.fs.file f).type = .inode ∨ (w.fs.file f).type = .device
  · rw [if_pos hinode]
    have h1 := hput ((w.fs.file f).ip :: held) fun i => by
      rw [File.holds_eq_ite hinode, ← List.count_append, List.singleton_append]
    refine wp_seq h1.beginOp fun _ w2 h2 => ?_
    exact wp_seq h2.iput fun _ w3 h3 => h3.endOp
  · rw [if_neg hinode]
    refine hput held fun i => ?_
    rw [File.holds, if_neg fun hh => hinode hh.1, Nat.zero_add]

end Last

theorem fileclose_ok (h : WorldOk c held locks (f :: loose) w) :
    wp (fileclose sb f) (fun _ w' => WorldOk c held locks loose w') Calm w := by
  have hrefs := h.refs f
  rw [List.count_cons_self] at hrefs
  have hother : ∀ g, g ≠ f → loose.count g = (f :: loose).count g := fun g hg =>
    (List.count_cons_of_ne (Ne.symm hg)).symm
  rw [fileclose, wp_bind, wp_getFs]
  dsimp only
  by_cases hzero : (w.fs.file f).ref < 1
  · omega
  rw [if_neg hzero]
  by_cases hmore : 0 < (w.fs.file f).ref - 1
  · rw [if_pos hmore, liftM_world, wp_onFs]
    refine h.putFile (fun _ => rfl) ?_ hother (fun hz => ?_) (h.pipes.putFile (.inl ⟨rfl, rfl⟩))
    · show (w.fs.file f).ref - 1 = _
      omega
    · have : (w.fs.file f).ref - 1 = 0 := hz
      omega
  -- the last reference
  rw [if_neg hmore, wp_bind, liftM_world, wp_onFs]
  have hlast : (0 : Int) = descriptors c.counted f + loose.count f := by omega
  have hset : wp (setFile f { w.fs.file f with ref := 0, type := .none })
      (fun _ s => { w with fs := s } = w.putFile f { w.fs.file f with ref := 0, type := .none })
      Quiet w.fs := rfl
  refine wp_post hset fun _ s hs => ?_
  rw [hs]
  by_cases hpipe : (w.fs.file f).type = .pipe
  · rw [if_pos hpipe]
    exact closePipe_ok h hlast hother hpipe
  · rw [if_neg hpipe]
    exact closeInode_ok h hlast hother hpipe

end FileTable

section SysPipe

def readEnd (x : File) : File := { x with type := .pipe, readable := true, writable := false }
def writeEnd (x : File) : File := { x with type := .pipe, readable := false, writable := true }

def World.withPipe (w : World) (f0 f1 : Fin NFILE) (pi : Nat) : World :=
  { w with
    fs := { w.fs with
      file := Function.update (Function.update w.fs.file f0 (readEnd (w.fs.file f0))) f1
        (writeEnd (w.fs.file f1)) }
    pipe := Function.update w.pipe pi (some {})
    pipeOf := Function.update (Function.update w.pipeOf f0 pi) f1 pi }

variable {f0 f1 : Fin NFILE} {pi : Nat}

theorem withPipe_file (w : World) (f0 f1 : Fin NFILE) (pi : Nat) (g : Fin NFILE) :
    (w.withPipe f0 f1 pi).fs.file g = if g = f1 then writeEnd (w.fs.file f1)
      else if g = f0 then readEnd (w.fs.file f0) else w.fs.file g := by
  simp only [World.withPipe, Function.update_apply]

theorem withPipe_isEnd (hne : f0 ≠ f1) (h0 : (w.fs.file f0).type = .none)
    (h1 : (w.fs.file f1).type = .none) (g : Fin NFILE) (p : Nat) (b : Bool) :
    IsEnd (w.withPipe f0 f1 pi) g p b ↔
      IsEnd w g p b ∨ g = f0 ∧ p = pi ∧ b = false ∨ g = f1 ∧ p = pi ∧ b = true := by
  by_cases hg1 : g = f1
  · subst hg1
    simp [IsEnd, World.withPipe, writeEnd, h1, hne.symm, eq_comm]
  · by_cases hg0 : g = f0
    · subst hg0
      simp [IsEnd, World.withPipe, readEnd, h0, hne, eq_comm]
    · simp [IsEnd, World.withPipe, hg0, hg1]

theorem PipesOk.withPipe (h : PipesOk w) (hne : f0 ≠ f1) (h0 : (w.fs.file f0).type = .none)
    (h1 : (w.fs.file f1).type = .none) (hpi : w.pipe pi = none) :
    PipesOk (w.withPipe f0 f1 pi) := by
  have hend : ∀ g p b, IsEnd (w.withPipe f0 f1 pi) g p b ↔ _ := withPipe_isEnd hne h0 h1
  -- the page was not that of a pipe
  have hfresh : ∀ g b, ¬ IsEnd w g pi b := by
    intro g b hg
    have := (h.live pi).mpr ⟨g, b, hg⟩
    rw [hpi] at this
    cases this
  refine ⟨fun g g' p b hg hg' => ?_, fun p => ?_, fun p e hp b => ?_⟩
  · rw [hend] at hg hg'
    rcases hg with hg | ⟨rfl, rfl, rfl⟩ | ⟨rfl, rfl, rfl⟩ <;>
      rcases hg' with hg' | ⟨rfl, hp, hb⟩ | ⟨rfl, hp, hb⟩
    · exact h.one g g' p b hg hg'
    · exact absurd (hp ▸ hg) (hfresh g b)
    · exact absurd (hp ▸ hg) (hfresh g b)
    · exact absurd hg' (hfresh g' false)
    · rfl
    · cases hb
    · exact absurd hg' (hfresh g' true)
    · cases hb
    · rfl
  · show (Function.update w.pipe pi (some {}) p).isSome ↔ _
    by_cases hp : p = pi
    · rw [hp, Function.update_self]
      exact iff_of_true rfl ⟨f0, false, (hend f0 pi false).mpr (.inr (.inl ⟨rfl, rfl, rfl⟩))⟩
    · rw [Function.update_of_ne hp, h.live p]
      refine exists_congr fun g => exists_congr fun b => ?_
      rw [hend]
      simp [hp]
  · have hp : Function.update w.pipe pi (some {}) p = some e := hp
    by_cases hpp : p = pi
    · rw [hpp, Function.update_self] at hp
      cases hp
      rw [hpp]
      have hopen : ({} : PipeEnds).isOpen b = true := by cases b <;> rfl
      refine iff_of_true hopen ?_
      cases b
      · exact ⟨f0, (hend f0 pi false).mpr (.inr (.inl ⟨rfl, rfl, rfl⟩))⟩
      · exact ⟨f1, (hend f1 pi true).mpr (.inr (.inr ⟨rfl, rfl, rfl⟩))⟩
    · rw [Function.update_of_ne hpp] at hp
      rw [h.flags p e hp b]
      refine exists_congr fun g => ?_
      rw [hend]
      simp [hpp]

theorem WorldOk.withPipe (h : WorldOk c held locks loose w) (hne : f0 ≠ f1)
    (h0 : (w.fs.file f0).type = .none) (h1 : (w.fs.file f1).type = .none)
    (hr0 : (w.fs.file f0).ref ≠ 0) (hr1 : (w.fs.file f1).ref ≠ 0) (hpi : w.pipe pi = none) :
    WorldOk c held locks loose (w.withPipe f0 f1 pi) := by
  have hfile : ∀ g, ((w.withPipe f0 f1 pi).fs.file g).ref = (w.fs.file g).ref ∧
      (∀ i, ((w.withPipe f0 f1 pi).fs.file g).holds i = (w.fs.file g).holds i) ∧
      ((w.fs.file g).ref = 0 → (w.withPipe f0 f1 pi).fs.file g = w.fs.file g) := by
    intro g
    rw [withPipe_file]
    split_ifs with hg1 hg0
    · subst hg1
      exact ⟨rfl, fun i => by simp [File.holds, writeEnd, h1], fun hz => absurd hz hr1⟩
    · subst hg0
      exact ⟨rfl, fun i => by simp [File.holds, readEnd, h0], fun hz => absurd hz hr0⟩
    · exact ⟨rfl, fun _ => rfl, fun _ => rfl⟩
  refine ⟨h.kernel, ⟨rfl, rfl, h.slots.unique, fun i => ?_, h.slots.locked⟩, fun g => ?_, fun g => ?_,
    h.pipes.withPipe hne h0 h1 hpi, h.idle, h.outstanding⟩
  · have hslot : (w.fs.inode i).ref = (referrers c.counted w.fs.file i : Int) + _ := h.slots.refs i
    have hsame : referrers c.counted (w.withPipe f0 f1 pi).fs.file i =
        referrers c.counted w.fs.file i := by
      rw [referrers, referrers, Finset.sum_congr rfl fun g _ => (hfile g).2.1 i]
    show (w.fs.inode i).ref = (referrers c.counted (w.withPipe f0 f1 pi).fs.file i : Int) + _
    rw [hsame]
    exact hslot
  · rw [(hfile g).1]
    exact h.refs g
  · intro hz
    rw [(hfile g).1] at hz
    rw [(hfile g).2.2 hz]
    exact h.closed g hz

theorem setPipes_eq (w : World) (pi : Nat) (hne : f0 ≠ f1) {E : CallPanic → Prop} :
    wp (do
        modify fun w => { w with pipe := Function.update w.pipe pi (some {}) }
        setPipe f0 pi false
        setPipe f1 pi true
        return some (f0, f1))
      (fun r w' => r = some (f0, f1) ∧ w' = w.withPipe f0 f1 pi) E w := by
  have hfile1 : ∀ x, Function.update w.fs.file f0 x f1 = w.fs.file f1 := fun x =>
    Function.update_of_ne hne.symm _ _
  simp only [setPipe, setFile, wp_bind, wp_modify, wp_get, wp_onFs, wp_pure, hfile1]
  exact ⟨trivial, rfl⟩

theorem WorldOk.permLoose (h : WorldOk c held locks loose w) (hperm : loose.Perm loose') :
    WorldOk c held locks loose' w :=
  { h with refs := fun f => by rw [← hperm.count_eq]; exact h.refs f }

theorem pipealloc_ok (page : Option Nat) (h : WorldOk c held locks loose w) :
    wp (pipealloc sb page) (fun r w' => match r with
      | none => WorldOk c held locks loose w'
      | some (f0, f1) => WorldOk c held locks (f0 :: f1 :: loose) w') Calm w := by
  rw [pipealloc]
  refine wp_seq (filealloc_ok h) ?_
  rintro (_ | f0) w1 h1
  · exact h1 ▸ h
  · obtain ⟨hz0, rfl, h1⟩ := h1
    have hfile0 : (w.putFile f0 { w.fs.file f0 with ref := 1 }).fs.file f0 =
        { w.fs.file f0 with ref := 1 } := Function.update_self _ _ _
    refine wp_seq (filealloc_ok h1) ?_
    rintro (_ | f1) w2 h2
    · rw [h2]
      exact wp_seq (fileclose_ok h1) fun _ _ h3 => h3
    · obtain ⟨hz1, rfl, h2⟩ := h2
      have hne : f0 ≠ f1 := by
        rintro rfl
        rw [hfile0] at hz1
        cases hz1
      let w2 := (w.putFile f0 { w.fs.file f0 with ref := 1 }).putFile f1
        { (w.putFile f0 { w.fs.file f0 with ref := 1 }).fs.file f1 with ref := 1 }
      have hfile1 : w2.fs.file f1 = { w.fs.file f1 with ref := 1 } := by
        show Function.update _ f1 _ f1 = _
        rw [Function.update_self]
        show { Function.update w.fs.file f0 _ f1 with ref := 1 } = _
        rw [Function.update_of_ne hne.symm]
      have hfile0' : w2.fs.file f0 = { w.fs.file f0 with ref := 1 } := by
        show Function.update _ f1 _ f0 = _
        rw [Function.update_of_ne hne]
        exact hfile0
      have htype1 : (w.fs.file f1).type = .none := by
        refine h.closed f1 ?_
        have : (Function.update w.fs.file f0 _ f1).ref = 0 := hz1
        rwa [Function.update_of_ne hne.symm] at this
      show wp (kalloc page >>= _) _ _ w2
      rw [wp_bind]
      cases hpage : page.filter fun pi => (w2.pipe pi).isNone with
      | none =>
        have hkalloc : wp (kalloc page) (fun r w' => r = none ∧ w' = w2) Calm w2 := ⟨hpage, rfl⟩
        refine wp_post hkalloc ?_
        rintro _ _ ⟨rfl, rfl⟩
        refine wp_seq (fileclose_ok (h2.permLoose (List.Perm.swap f0 f1 loose))) fun _ w3 h3 => ?_
        exact wp_seq (fileclose_ok h3) fun _ _ h4 => h4
      | some pi =>
        have hkalloc : wp (kalloc page) (fun r w' => r = some pi ∧ w' = w2) Calm w2 := ⟨hpage, rfl⟩
        have hfree : w2.pipe pi = none := by
          have := (Option.filter_eq_some_iff.mp hpage).2
          simpa using this
        refine wp_post hkalloc ?_
        rintro _ _ ⟨rfl, rfl⟩
        refine wp_post (setPipes_eq w2 pi hne) ?_
        rintro _ _ ⟨rfl, rfl⟩
        refine (h2.permLoose (List.Perm.swap f0 f1 loose)).withPipe hne ?_ ?_ ?_ ?_ hfree
        · rw [hfile0']
          exact h.closed f0 hz0
        · rw [hfile1]
          exact htype1
        · rw [hfile0']
          exact one_ne_zero
        · rw [hfile1]
          exact one_ne_zero

def Settled (n : Int) (w : World) : Prop := WorldOk ⟨w.fs.kernel, w.fs.kernel, n⟩ [] [] [] w

theorem WorldOk.settled (h : WorldOk ⟨k, k, n⟩ [] [] [] w) : Settled n w := by
  have hkernel : w.fs.kernel = k := h.kernel
  rwa [Settled, hkernel]

theorem dropFd_ok (h : WorldOk ⟨k, k, n⟩ held locks loose w) (halive : (k.proc me).Alive)
    {fd : Fin NOFILE} (hfd : (k.proc me).ofile fd = some f) :
    wp (onFs (dropFd me fd)) (fun _ w' => WorldOk ⟨setOfile k me fd none, setOfile k me fd none, n⟩
      held locks (f :: loose) w') Calm w := by
  rw [wp_onFs, dropFd, wp_modify]
  refine h.setFd halive fun g => ?_
  rw [hfd, Option.toList_none, Option.toList_some, List.count_nil, Nat.zero_add, ← List.count_append,
    List.singleton_append]

theorem closeBoth_ok (h : WorldOk ⟨k, k, n⟩ [] [] [f0, f1] w) :
    wp (do
        fileclose sb f0
        fileclose sb f1
        return (-1 : Int)) (fun _ w' => Settled n w') Calm w := by
  refine wp_seq (fileclose_ok h) fun _ w1 h1 => ?_
  exact wp_seq (fileclose_ok h1) fun _ _ h2 => h2.settled

theorem alive_setOfile (fd : Fin NOFILE) (x : Option (Fin NFILE)) (h : (k.proc me).Alive) :
    ((setOfile k me fd x).proc me).Alive := by
  rw [Kernel.setProc_same]
  exact h

theorem ofile_setOfile_self {fd : Fin NOFILE} (x : Option (Fin NFILE)) :
    ((setOfile k me fd x).proc me).ofile fd = x := by
  rw [Kernel.setProc_same]
  exact Function.update_self _ _ _

theorem ofile_setOfile_of_ne {fd fd' : Fin NOFILE} (x : Option (Fin NFILE)) (hfd : fd' ≠ fd) :
    ((setOfile k me fd x).proc me).ofile fd' = (k.proc me).ofile fd' := by
  rw [Kernel.setProc_same]
  exact Function.update_of_ne hfd _ _

theorem sysPipe_ok (page : Option Nat) (copyoutOk : Bool) (h : Settled n w)
    (halive : (w.fs.kernel.proc me).Alive) :
    wp (sysPipe sb me page copyoutOk) (fun _ w' => Settled n w') Calm w := by
  rw [sysPipe]
  refine wp_seq (pipealloc_ok page h) ?_
  rintro (_ | ⟨rf, wf⟩) w1 h1
  · exact h1.settled
  · refine wp_seq (fdalloc_ok h1 halive) ?_
    rintro (_ | fd0) w2 h2
    · rw [h2]
      exact closeBoth_ok h1
    · obtain ⟨hfree0, -, h2⟩ := h2
      refine wp_seq (fdalloc_ok h2 (alive_setOfile _ _ halive)) ?_
      rintro (_ | fd1) w3 h3
      · rw [h3]
        refine wp_seq (dropFd_ok h2 (alive_setOfile _ _ halive) (ofile_setOfile_self _))
          fun _ w4 h4 => closeBoth_ok h4
      · obtain ⟨hfree1, -, h3⟩ := h3
        have hne : fd0 ≠ fd1 := by
          rintro rfl
          rw [ofile_setOfile_self] at hfree1
          cases hfree1
        show wp (if copyoutOk = true then _ else _) _ _ _
        split_ifs
        · exact h3.settled
        · have halive3 := alive_setOfile fd1 (some wf)
            (alive_setOfile fd0 (some rf) halive)
          refine wp_seq (dropFd_ok h3 halive3 (f := rf) ?_) fun _ w4 h4 => ?_
          · rw [ofile_setOfile_of_ne _ hne, ofile_setOfile_self]
          · refine wp_seq (dropFd_ok h4 (alive_setOfile _ _ halive3) (f := wf) ?_)
              fun _ w5 h5 => ?_
            · rw [ofile_setOfile_of_ne _ hne.symm, ofile_setOfile_self]
            · exact closeBoth_ok (h5.permLoose (List.Perm.swap rf wf []))

end SysPipe

end OsProject.Calls
