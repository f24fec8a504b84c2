import OsProject.ProcLife

/-! Every exit is reaped once. The process table moves as a family of processes does, so the shape
of the tree and the records of the exits are kept; that nobody sleeps in `kwait` on a zombie child is
a property of the wakeups. -/

namespace OsProject.Life

def kindOf : ProcState → Kind
  | .unused => .unused
  | .used => .used
  | .sleeping | .runnable | .running => .live
  | .zombie => .zombie

def Phase.making : Phase → Option (Fin NPROC × Bool)
  | .forked np => some (np, false)
  | .adopted np => some (np, true)
  | .idle | .waiting _ => none

def LifeState.family (s : LifeState) : Family (Fin NPROC) where
  kind i := kindOf (s.kernel.proc i).state
  parent i := (s.kernel.proc i).parent
  pid i := (s.kernel.proc i).pid
  status i := (s.kernel.proc i).xstate
  making p := (s.phase p).making
  inst := s.inst
  mother := s.mother
  births := s.births
  exits := s.exits
  reaps := s.reaps

section Table

variable {k l m : Kernel} {p : Fin NPROC}

def SameKin (k l : Kernel) : Prop := ∀ j,
  kindOf (l.proc j).state = kindOf (k.proc j).state ∧ (l.proc j).parent = (k.proc j).parent ∧
    (l.proc j).pid = (k.proc j).pid ∧ (l.proc j).xstate = (k.proc j).xstate

def OnlyWakes (k l : Kernel) : Prop := ∀ j,
  (l.proc j).state = .sleeping → (k.proc j).state = .sleeping ∧ (l.proc j).chan = (k.proc j).chan

theorem setProc_proc (k : Kernel) (i : Fin NPROC) (x : Proc) (j : Fin NPROC) :
    (k.setProc i x).proc j = if j = i then x else k.proc j := Function.update_apply _ _ _ _

theorem OnlyWakes.refl (k : Kernel) : OnlyWakes k k := fun _ h => ⟨h, rfl⟩

theorem OnlyWakes.trans (h : OnlyWakes k l) (h' : OnlyWakes l m) : OnlyWakes k m := fun j hj =>
  ⟨(h j (h' j hj).1).1, (h' j hj).2.trans (h j (h' j hj).1).2⟩

theorem onlyWakes_setProc {x : Proc} (h : x.state ≠ .sleeping) : OnlyWakes k (k.setProc p x) := by
  intro j hj
  rw [setProc_proc] at hj ⊢
  split_ifs at hj ⊢
  · exact absurd hj h
  · exact ⟨hj, rfl⟩

theorem sameKin_setProc {x : Proc} (hkind : kindOf x.state = kindOf (k.proc p).state)
    (hparent : x.parent = (k.proc p).parent) (hpid : x.pid = (k.proc p).pid)
    (hstatus : x.xstate = (k.proc p).xstate) : SameKin k (k.setProc p x) := by
  intro j
  rw [setProc_proc]
  split_ifs with hj
  · exact hj ▸ ⟨hkind, hparent, hpid, hstatus⟩
  · exact ⟨rfl, rfl, rfl, rfl⟩

theorem wakeup_proc (k : Kernel) (p : Fin NPROC) (chan : Nat) (j : Fin NPROC) :
    (wakeup k p chan).proc j =
      if j ≠ p ∧ (k.proc j).SleepsOn chan then { k.proc j with state := .runnable } else k.proc j :=
  rfl

theorem wakes_table (h : ∀ j, l.proc j = k.proc j ∨
    (k.proc j).state = .sleeping ∧ l.proc j = { k.proc j with state := .runnable }) :
    SameKin k l ∧ OnlyWakes k l := by
  refine ⟨fun j => ?_, fun j hj => ?_⟩
  · rcases h j with he | ⟨hs, he⟩ <;> rw [he]
    · exact ⟨rfl, rfl, rfl, rfl⟩
    · exact ⟨by rw [hs]; rfl, rfl, rfl, rfl⟩
  · rcases h j with he | ⟨-, he⟩ <;> rw [he] at hj ⊢
    · exact ⟨hj, rfl⟩
    · cases hj

theorem wakeup_table (k : Kernel) (p : Fin NPROC) (chan : Nat) :
    SameKin k (wakeup k p chan) ∧ OnlyWakes k (wakeup k p chan) := by
  refine wakes_table fun j => ?_
  rw [wakeup_proc]
  split_ifs with hj
  · exact .inr ⟨hj.2.1, rfl⟩
  · exact .inl rfl

theorem wakeupAll_table (k : Kernel) (chan : Nat) :
    SameKin k (wakeupAll k chan) ∧ OnlyWakes k (wakeupAll k chan) := by
  refine wakes_table fun j => ?_
  simp only [wakeupAll]
  split_ifs with hj
  · exact .inr ⟨hj.1, rfl⟩
  · exact .inl rfl

theorem wakeup_awake {k : Kernel} {chan : Nat} {j : Fin NPROC} (hj : j ≠ p)
    (hs : ((wakeup k p chan).proc j).state = .sleeping) : ((wakeup k p chan).proc j).chan ≠ chan := by
  rw [wakeup_proc] at hs ⊢
  split_ifs at hs ⊢ with hc
  exact fun he => hc ⟨hj, hs, he⟩

theorem sameKin_post (k : Kernel) (i : Fin NPROC) (sig : Fin 32) :
    SameKin k (k.setProc i ((k.proc i).post sig)) := by
  refine sameKin_setProc ?_ rfl rfl rfl
  simp only [Proc.post]
  split_ifs with h
  · rw [h]
    rfl
  · rfl

theorem onlyWakes_post (k : Kernel) (i : Fin NPROC) (sig : Fin 32) :
    OnlyWakes k (k.setProc i ((k.proc i).post sig)) := by
  refine onlyWakes_setProc ?_
  simp only [Proc.post]
  split_ifs with h
  · intro hsleep
    cases hsleep
  · exact h

theorem kkill_table (k : Kernel) (pid : Int) (sig : Fin 32) :
    SameKin k (kkill k pid sig).1 ∧ OnlyWakes k (kkill k pid sig).1 := by
  rw [kkill]
  cases pidSlot k pid with
  | none => exact ⟨fun _ => ⟨rfl, rfl, rfl, rfl⟩, OnlyWakes.refl k⟩
  | some i => exact ⟨sameKin_post k i sig, onlyWakes_post k i sig⟩

/-- What `reparent` does, as far as it has come: the children of `p` in `slots` are init's, and init
does not sleep in `kwait` if it has got one. -/
structure Reparented (k l : Kernel) (p : Fin NPROC) (slots : List (Fin NPROC)) : Prop where
  kin : ∀ j, kindOf (l.proc j).state = kindOf (k.proc j).state ∧ (l.proc j).pid = (k.proc j).pid ∧
    (l.proc j).xstate = (k.proc j).xstate
  parent : ∀ j, (l.proc j).parent =
    if j ∈ slots ∧ (k.proc j).parent = some p then some initproc else (k.proc j).parent
  wakes : OnlyWakes k l
  woken : (∃ j ∈ slots, (k.proc j).parent = some p) →
    ¬ (l.proc initproc).SleepsOn (procAddr initproc)

theorem reparentLoop_spec (hp : p ≠ initproc) (slots : List (Fin NPROC)) (k : Kernel) :
    Reparented k (reparentLoop p slots k) p slots := by
  induction slots generalizing k with
  | nil => exact ⟨fun _ => ⟨rfl, rfl, rfl⟩, fun _ => by simp [reparentLoop], OnlyWakes.refl k, by simp⟩
  | cons i slots ih =>
    rw [reparentLoop]
    split_ifs with hi
    · -- slot `i` is handed over, and init is woken
      generalize hk1 : k.setProc i { k.proc i with parent := some initproc } = k1
      have hproc : ∀ j, k1.proc j =
          if j = i then { k.proc i with parent := some initproc } else k.proc j := by
        intro j
        rw [← hk1, setProc_proc]
      have hwake := (wakeup_table k1 p (procAddr initproc)).1
      have hrest := ih (wakeup k1 p (procAddr initproc))
      have hset : OnlyWakes k k1 := by
        intro j hj
        rw [hproc] at hj ⊢
        split_ifs at hj ⊢ with he
        · exact ⟨he ▸ hj, he ▸ rfl⟩
        · exact ⟨hj, rfl⟩
      refine ⟨fun j => ?_, fun j => ?_,
        (hset.trans (wakeup_table k1 p _).2).trans hrest.wakes, fun _ hsleeps => ?_⟩
      · obtain ⟨h1, h2, h3⟩ := hrest.kin j
        obtain ⟨w1, -, w2, w3⟩ := hwake j
        rw [h1, h2, h3, w1, w2, w3, hproc]
        split_ifs with he
        · exact he ▸ ⟨rfl, rfl, rfl⟩
        · exact ⟨rfl, rfl, rfl⟩
      · rw [hrest.parent j, (hwake j).2.1, hproc]
        by_cases he : j = i
        · subst he
          have hne : some initproc ≠ some p := fun h => hp (Option.some.inj h).symm
          simp [hi, hne]
        · simp [he]
      · obtain ⟨hsleep, hchan⟩ := hrest.wakes initproc hsleeps.1
        exact wakeup_awake hp.symm hsleep (hchan.symm.trans hsleeps.2)
    · have hrest := ih k
      refine ⟨hrest.kin, fun j => ?_, hrest.wakes, fun ⟨j, hj, hpar⟩ => hrest.woken ⟨j, ?_, hpar⟩⟩
      · rw [hrest.parent j]
        by_cases he : j = i
        · subst he
          simp [hi]
        · simp [he]
      · exact (List.mem_cons.mp hj).resolve_left fun he => hi (he ▸ hpar)

theorem reparent_spec (hp : p ≠ initproc) (k : Kernel) :
    Reparented k (reparent k p) p (List.finRange NPROC) := reparentLoop_spec hp _ k

end Table

section Steps

variable {s t : LifeState} {p : Fin NPROC}

def Clean (k : Kernel) : Prop := ∀ i, (k.proc i).state = .unused →
  (k.proc i).pid = 0 ∧ (k.proc i).xstate = 0 ∧ (k.proc i).parent = none

theorem kindOf_unused {x : ProcState} : kindOf x = .unused ↔ x = .unused := by
  cases x <;> decide

theorem kindOf_zombie {x : ProcState} : kindOf x = .zombie ↔ x = .zombie := by
  cases x <;> decide

theorem family_congr (hkin : SameKin s.kernel t.kernel)
    (hphase : ∀ p, (t.phase p).making = (s.phase p).making) (hinst : t.inst = s.inst)
    (hmother : t.mother = s.mother) (hbirths : t.births = s.births) (hexits : t.exits = s.exits)
    (hreaps : t.reaps = s.reaps) : t.family = s.family := by
  have hk := fun j => (hkin j).1
  have hpar := fun j => (hkin j).2.1
  have hpid := fun j => (hkin j).2.2.1
  have hst := fun j => (hkin j).2.2.2
  exact Family.ext (funext hk) (funext hpar) (funext hpid) (funext hst) (funext hphase) hinst hmother
    hbirths hexits hreaps

theorem making_setPhase {x : Phase} (hx : x.making = (s.phase p).making) (q : Fin NPROC) :
    ((s.setPhase p x).phase q).making = (s.phase q).making := by
  rw [LifeState.setPhase]
  dsimp only
  rw [Function.update_apply]
  split_ifs with hq
  · rw [hx, hq]
  · rfl

theorem kforkFill_cases (k : Kernel) (me i : Fin NPROC) (mem : ForkMem) :
    (∃ x : Proc, kforkFill k me i mem = (true, { k with nextpid := intSucc k.nextpid }.setProc i x) ∧
      x.state = .used ∧ x.parent = (k.proc i).parent ∧ x.pid = k.nextpid ∧
        x.xstate = (k.proc i).xstate) ∨
    ∃ x : Proc, kforkFill k me i mem = (false, { k with nextpid := intSucc k.nextpid }.setProc i x) ∧
      x.state = .unused ∧ x.parent = none ∧ x.pid = 0 ∧ x.xstate = 0 := by
  rw [kforkFill]
  cases mem.page with
  | none => exact .inr ⟨_, rfl, rfl, rfl, rfl, rfl⟩
  | some frame =>
    dsimp only
    split_ifs
    · exact .inl ⟨_, rfl, rfl, rfl, rfl, rfl⟩
    · exact .inr ⟨_, rfl, rfl, rfl, rfl, rfl⟩

theorem map_setProc {β : Type} (f : Proc → β) (k : Kernel) (i : Fin NPROC) (x : Proc) :
    (fun j => f ((k.setProc i x).proc j)) = Function.update (fun j => f (k.proc j)) i (f x) :=
  Function.comp_update f k.proc i x

theorem map_setProc_same {β : Type} (f : Proc → β) {k : Kernel} {i : Fin NPROC} {x : Proc}
    (h : f x = f (k.proc i)) : (fun j => f ((k.setProc i x).proc j)) = fun j => f (k.proc j) := by
  rw [map_setProc, h]
  exact Function.update_eq_self i (fun j => f (k.proc j))

theorem map_setPhase (s : LifeState) (p : Fin NPROC) (x : Phase) :
    (fun q => ((s.setPhase p x).phase q).making) =
      Function.update (fun q => (s.phase q).making) p x.making :=
  Function.comp_update Phase.making s.phase p x

theorem family_kfork {i : Fin NPROC} (mem : ForkMem) (hclean : Clean s.kernel)
    (hi : (s.kernel.proc i).state = .unused) :
    (s.kfork p i mem).family = s.family ∨
      (s.kfork p i mem).family = s.family.fork p i s.kernel.nextpid := by
  rw [LifeState.kfork]
  rcases kforkFill_cases s.kernel p i mem with ⟨x, hx, hstate, hparent, hpid, hst⟩ |
    ⟨x, hx, hstate, hparent, hpid, hst⟩
  · right
    rw [hx]
    refine Family.ext ?_ ?_ ?_ ?_ (map_setPhase s p (.forked i)) rfl rfl rfl rfl rfl
    · exact (map_setProc (fun q => kindOf q.state) _ i x).trans (by rw [hstate]; rfl)
    · exact map_setProc_same (fun q => q.parent) hparent
    · exact (map_setProc (fun q => q.pid) _ i x).trans (by rw [hpid]; rfl)
    · exact map_setProc_same (fun q => q.xstate) hst
  · left
    obtain ⟨hpid0, hst0, hparent0⟩ := hclean i hi
    rw [hx]
    refine Family.ext ?_ ?_ ?_ ?_ rfl rfl rfl rfl rfl rfl
    · exact map_setProc_same (fun q => kindOf q.state) (by dsimp only; rw [hstate, hi])
    · exact map_setProc_same (fun q => q.parent) (by dsimp only; rw [hparent, hparent0])
    · exact map_setProc_same (fun q => q.pid) (by dsimp only; rw [hpid, hpid0])
    · exact map_setProc_same (fun q => q.xstate) (by dsimp only; rw [hst, hst0])

theorem family_adopt (s : LifeState) (p i : Fin NPROC) :
    (s.adopt p i).family = s.family.adopt p i := by
  refine Family.ext ?_ ?_ ?_ ?_ (map_setPhase s p (.adopted i)) rfl rfl rfl rfl rfl
  · exact map_setProc_same (fun q => kindOf q.state) rfl
  · exact map_setProc (fun q => q.parent) _ i _
  · exact map_setProc_same (fun q => q.pid) rfl
  · exact map_setProc_same (fun q => q.xstate) rfl

theorem family_publish (s : LifeState) (p i : Fin NPROC) :
    (s.publish p i).family = s.family.publish p i := by
  refine Family.ext ?_ ?_ ?_ ?_ (map_setPhase s p .idle) rfl rfl rfl rfl rfl
  · exact map_setProc (fun q => kindOf q.state) _ i _
  · exact map_setProc_same (fun q => q.parent) rfl
  · exact map_setProc_same (fun q => q.pid) rfl
  · exact map_setProc_same (fun q => q.xstate) rfl

/-- What the section of `kexit` does: `p` is a zombie with the status, its children are init's, and
neither its own parent nor init with a new child is left asleep in `kwait`. -/
structure Exited (k l : Kernel) (p : Fin NPROC) (status : Int) : Prop where
  zombie : (l.proc p).state = .zombie ∧ (l.proc p).xstate = status
  other : ∀ j, j ≠ p → kindOf (l.proc j).state = kindOf (k.proc j).state ∧
    (l.proc j).xstate = (k.proc j).xstate
  pid : ∀ j, (l.proc j).pid = (k.proc j).pid
  parent : ∀ j, (l.proc j).parent =
    if (k.proc j).parent = some p then some initproc else (k.proc j).parent
  wakes : OnlyWakes k l
  orphans : ∀ j, (k.proc j).parent = some p → ¬ (l.proc initproc).SleepsOn (procAddr initproc)
  reaper : ∀ q, (k.proc p).parent = some q → ¬ (l.proc q).SleepsOn (procAddr q)

theorem OnlyWakes.sleepsOn {k l : Kernel} {j : Fin NPROC} {chan : Nat} (h : OnlyWakes k l)
    (hs : (l.proc j).SleepsOn chan) : (k.proc j).SleepsOn chan :=
  ⟨(h j hs.1).1, (h j hs.1).2.symm.trans hs.2⟩

theorem kexitSection_spec (hp : p ≠ initproc) (k : Kernel) (status : Int)
    (hself : (k.proc p).parent ≠ some p) : Exited k (kexitSection k p status) p status := by
  have hr := reparent_spec hp k
  have hown : ((reparent k p).proc p).parent = (k.proc p).parent := by
    rw [hr.parent, if_neg fun h => hself h.2]
  rw [kexitSection, hown]
  generalize reparent k p = k1 at hr hown
  obtain ⟨hw, hwakes⟩ := wakeup_table k1 p ((k.proc p).parent.elim 0 procAddr)
  have hawake : ∀ q, (k.proc p).parent = some q →
      ¬ ((wakeup k1 p ((k.proc p).parent.elim 0 procAddr)).proc q).SleepsOn (procAddr q) := by
    intro q hq hs
    have hqp : q ≠ p := fun he => hself (he ▸ hq)
    rw [hq, Option.elim_some] at hs
    exact wakeup_awake hqp hs.1 hs.2
  generalize wakeup k1 p ((k.proc p).parent.elim 0 procAddr) = k2 at hw hwakes hawake
  have hlast : OnlyWakes k2 (k2.setProc p ((k2.proc p).exit status)) :=
    onlyWakes_setProc (by simp [Proc.exit])
  refine ⟨?_, fun j hj => ?_, fun j => ?_, fun j => ?_, (hr.wakes.trans hwakes).trans hlast,
    fun j hj hs => ?_, fun q hq hs => hawake q hq (hlast.sleepsOn hs)⟩
  · rw [Kernel.setProc_same]
    exact ⟨rfl, rfl⟩
  · rw [Kernel.setProc_of_ne k2 hj, (hw j).1, (hw j).2.2.2]
    exact ⟨(hr.kin j).1, (hr.kin j).2.2⟩
  · have hpid : ((k2.setProc p ((k2.proc p).exit status)).proc j).pid = (k2.proc j).pid := by
      rw [setProc_proc]
      split_ifs with hj
      · rw [hj]
        rfl
      · rfl
    rw [hpid, (hw j).2.2.1, (hr.kin j).2.1]
  · have hparent : ((k2.setProc p ((k2.proc p).exit status)).proc j).parent = (k2.proc j).parent := by
      rw [setProc_proc]
      split_ifs with hj
      · rw [hj]
        rfl
      · rfl
    rw [hparent, (hw j).2.1, hr.parent]
    simp [List.mem_finRange]
  · exact hr.woken ⟨j, List.mem_finRange j, hj⟩ ((hwakes.trans hlast).sleepsOn hs)

theorem family_kexit (hp : p ≠ initproc) (hself : (s.kernel.proc p).parent ≠ some p) (status : Int) :
    (s.kexit p status).family = s.family.exit initproc p status := by
  have hex := kexitSection_spec hp s.kernel status hself
  rw [LifeState.kexit, if_neg hp]
  refine Family.ext (funext fun j => ?_) (funext hex.parent) (funext hex.pid) (funext fun j => ?_) rfl
    rfl rfl rfl rfl rfl
  · simp only [LifeState.family, Family.exit, Function.update_apply]
    split_ifs with hj
    · rw [hj, hex.zombie.1]
      rfl
    · exact (hex.other j hj).1
  · simp only [LifeState.family, Family.exit, Function.update_apply]
    split_ifs with hj
    · rw [hj, hex.zombie.2]
    · exact (hex.other j hj).2

theorem zombieChild_some {k : Kernel} {c : Fin NPROC} (h : zombieChild k p = some c) :
    (k.proc c).parent = some p ∧ (k.proc c).state = .zombie := by
  simpa using List.find?_some h

theorem zombieChild_none {k : Kernel} (h : zombieChild k p = none) (c : Fin NPROC)
    (hc : (k.proc c).parent = some p) : (k.proc c).state ≠ .zombie := by
  have hall := List.find?_eq_none.mp h c (List.mem_finRange c)
  intro hz
  exact hall (by simp [hc, hz])

theorem family_kwaitPass {addr : UInt64} {copied : Bool} (hphase : s.phase p = .waiting addr)
    (hrun : (s.kernel.proc p).state = .running) :
    (s.kwaitPass p addr copied).family = s.family ∨
      ∃ c, (s.kernel.proc c).parent = some p ∧ (s.kernel.proc c).state = .zombie ∧
        (s.kwaitPass p addr copied).family = s.family.reap p c := by
  have hmaking : ∀ q, ((s.setPhase p .idle).phase q).making = (s.phase q).making :=
    making_setPhase (by rw [hphase]; rfl)
  have hidle : (s.setPhase p .idle).family = s.family :=
    family_congr (fun _ => ⟨rfl, rfl, rfl, rfl⟩) hmaking rfl rfl rfl rfl rfl
  rw [LifeState.kwaitPass]
  cases hz : zombieChild s.kernel p with
  | none =>
    left
    dsimp only
    split_ifs
    · exact hidle
    · refine family_congr (sameKin_setProc ?_ rfl rfl rfl) (fun _ => rfl) rfl rfl rfl rfl rfl
      rw [hrun]
      rfl
  | some c =>
    obtain ⟨hpar, hzombie⟩ := zombieChild_some hz
    dsimp only
    split_ifs
    · exact .inl hidle
    · refine .inr ⟨c, hpar, hzombie, ?_⟩
      refine Family.ext ?_ ?_ ?_ ?_ (funext hmaking) rfl rfl rfl rfl rfl
      · exact map_setProc (fun q => kindOf q.state) _ c _
      · exact map_setProc (fun q => q.parent) _ c _
      · exact map_setProc (fun q => q.pid) _ c _
      · exact map_setProc (fun q => q.xstate) _ c _

def Asleep (s : LifeState) : Prop := ∀ p addr, s.phase p = .waiting addr →
  (s.kernel.proc p).state = .sleeping → (s.kernel.proc p).chan = procAddr p ∧
    ∀ c, (s.kernel.proc c).parent = some p → (s.kernel.proc c).state ≠ .zombie

theorem Asleep.keep (h : Asleep s)
    (hsleep : ∀ p addr, t.phase p = .waiting addr → (t.kernel.proc p).state = .sleeping →
      s.phase p = .waiting addr ∧ (s.kernel.proc p).state = .sleeping ∧
        (t.kernel.proc p).chan = (s.kernel.proc p).chan)
    (hkids : ∀ c q, (t.kernel.proc c).parent = some q → (t.kernel.proc c).state = .zombie →
      (s.kernel.proc c).parent = some q ∧ (s.kernel.proc c).state = .zombie) : Asleep t := by
  intro p addr hphase hstate
  obtain ⟨hphase', hstate', hchan⟩ := hsleep p addr hphase hstate
  obtain ⟨haddr, hkids'⟩ := h p addr hphase' hstate'
  refine ⟨hchan.trans haddr, fun c hc hz => ?_⟩
  obtain ⟨hc', hz'⟩ := hkids c p hc hz
  exact hkids' c hc' hz'

theorem Asleep.quiet (h : Asleep s) (hphase : t.phase = s.phase) (hkin : SameKin s.kernel t.kernel)
    (hwakes : OnlyWakes s.kernel t.kernel) : Asleep t := by
  refine h.keep (fun p addr hp hs => ⟨hphase ▸ hp, hwakes p hs⟩) fun c q hc hz => ?_
  obtain ⟨hk, hpar, -⟩ := hkin c
  exact ⟨hpar ▸ hc, kindOf_zombie.mp (hk ▸ kindOf_zombie.mpr hz)⟩

theorem SameKin.clean {k l : Kernel} (h : SameKin k l) (hk : Clean k) : Clean l := by
  intro i hi
  obtain ⟨hkind, hpar, hpid, hst⟩ := h i
  rw [hpar, hpid, hst]
  exact hk i (kindOf_unused.mp (hkind ▸ kindOf_unused.mpr hi))

theorem Clean.setProc {k : Kernel} (h : Clean k) {i : Fin NPROC} {x : Proc}
    (hx : x.state = .unused → x.pid = 0 ∧ x.xstate = 0 ∧ x.parent = none) :
    Clean (k.setProc i x) := by
  intro j hj
  rw [setProc_proc] at hj ⊢
  split_ifs at hj ⊢
  · exact hx hj
  · exact h j hj

structure LifeInv (s : LifeState) : Prop where
  tree : s.family.Tree initproc
  records : s.family.Records initproc
  clean : Clean s.kernel
  asleep : Asleep s

structure Moves (p : Fin NPROC) (s t : LifeState) : Prop where
  family : t.family = s.family ∨ Family.Step initproc p s.family t.family
  clean : Clean t.kernel
  asleep : Asleep t

theorem LifeInv.moves (h : LifeInv s) (hm : Moves p s t) : LifeInv t := by
  rcases hm.family with hf | hf
  · exact ⟨hf ▸ h.tree, hf ▸ h.records, hm.clean, hm.asleep⟩
  · exact ⟨h.tree.step hf, h.records.step h.tree hf, hm.clean, hm.asleep⟩

theorem LifeInv.stay (h : LifeInv s) (p : Fin NPROC) : Moves p s s := ⟨.inl rfl, h.clean, h.asleep⟩

theorem LifeInv.quiet (h : LifeInv s) {k : Kernel} (hkin : SameKin s.kernel k)
    (hwakes : OnlyWakes s.kernel k) : Moves p s { s with kernel := k } :=
  ⟨.inl (family_congr hkin (fun _ => rfl) rfl rfl rfl rfl rfl), hkin.clean h.clean,
    h.asleep.quiet rfl hkin hwakes⟩

theorem LifeInv.setProc (h : LifeInv s) {x : Proc}
    (hkind : kindOf x.state = kindOf (s.kernel.proc p).state)
    (hparent : x.parent = (s.kernel.proc p).parent) (hpid : x.pid = (s.kernel.proc p).pid)
    (hstatus : x.xstate = (s.kernel.proc p).xstate)
    (hsleep : x.state = .sleeping → s.phase p = .idle) :
    Moves p s { s with kernel := s.kernel.setProc p x } := by
  have hkin := sameKin_setProc (k := s.kernel) hkind hparent hpid hstatus
  refine ⟨.inl (family_congr hkin (fun _ => rfl) rfl rfl rfl rfl rfl), hkin.clean h.clean, ?_⟩
  refine h.asleep.keep (fun q addr hq hs => ?_) fun c q hc hz => ?_
  · dsimp only at hq hs ⊢
    rw [setProc_proc] at hs ⊢
    split_ifs at hs ⊢ with he
    · rw [he, hsleep hs] at hq
      cases hq
    · exact ⟨hq, hs, rfl⟩
  · obtain ⟨hk, hpar, -⟩ := hkin c
    exact ⟨hpar ▸ hc, kindOf_zombie.mp (hk ▸ kindOf_zombie.mpr hz)⟩

theorem LifeInv.kfork (h : LifeInv s) {i : Fin NPROC} (mem : ForkMem)
    (hp : (s.kernel.proc p).state = .running) (hphase : s.phase p = .idle)
    (hi : (s.kernel.proc i).state = .unused) : Moves p s (s.kfork p i mem) := by
  have hfamily : (s.kfork p i mem).family = s.family ∨
      Family.Step initproc p s.family (s.kfork p i mem).family := by
    refine (family_kfork _ h.clean hi).imp_right fun hf => ?_
    rw [hf]
    refine .fork i _ ?_ ?_ ?_
    · exact congrArg kindOf hp
    · exact congrArg Phase.making hphase
    · exact congrArg kindOf hi
  have htable : ∃ x : Proc, (s.kfork p i mem).kernel =
      { s.kernel with nextpid := intSucc s.kernel.nextpid }.setProc i x ∧
      x.state ≠ .sleeping ∧ x.state ≠ .zombie ∧
        (x.state = .unused → x.pid = 0 ∧ x.xstate = 0 ∧ x.parent = none) := by
    rw [LifeState.kfork]
    rcases kforkFill_cases s.kernel p i mem with ⟨x, hx, hstate, -⟩ |
      ⟨x, hx, hstate, hparent, hpid, hst⟩
    · exact ⟨x, by rw [hx], by simp [hstate], by simp [hstate], by simp [hstate]⟩
    · exact ⟨x, by rw [hx], by simp [hstate], by simp [hstate], fun _ => ⟨hpid, hst, hparent⟩⟩
  have hwait : ∀ q addr, (s.kfork p i mem).phase q = .waiting addr → s.phase q = .waiting addr := by
    intro q addr hq
    rw [LifeState.kfork] at hq
    split at hq
    · rw [LifeState.setPhase] at hq
      dsimp only at hq
      rw [Function.update_apply] at hq
      split_ifs at hq
      exact hq
    · exact hq
  obtain ⟨x, hx, hnosleep, hnozombie, hunused⟩ := htable
  refine ⟨hfamily, ?_, h.asleep.keep (fun q addr hq hs => ?_) fun c q hc hz => ?_⟩
  · rw [hx]
    exact Clean.setProc (k := { s.kernel with nextpid := _ }) h.clean hunused
  · rw [hx, setProc_proc] at hs ⊢
    split_ifs at hs ⊢
    · exact absurd hs hnosleep
    · exact ⟨hwait q addr hq, hs, rfl⟩
  · rw [hx, setProc_proc] at hc hz
    split_ifs at hc hz
    · exact absurd hz hnozombie
    · exact ⟨hc, hz⟩

theorem Asleep.setChild (h : Asleep s) {np : Fin NPROC} {x : Proc} {ph : Phase}
    (hph : ∀ addr, ph ≠ .waiting addr) (hx : x.state ≠ .sleeping) (hx' : x.state ≠ .zombie) :
    Asleep { s.setPhase p ph with kernel := s.kernel.setProc np x } := by
  refine h.keep (fun q addr hq hs => ?_) fun c q hc hz => ?_
  · dsimp only [LifeState.setPhase] at hq hs ⊢
    rw [Function.update_apply] at hq
    rw [setProc_proc] at hs ⊢
    split_ifs at hq hs ⊢
    all_goals
      first
        | exact absurd hq (hph addr)
        | exact absurd hs hx
        | exact ⟨hq, hs, rfl⟩
  · dsimp only at hc hz
    rw [setProc_proc] at hc hz
    split_ifs at hc hz
    · exact absurd hz hx'
    · exact ⟨hc, hz⟩

theorem LifeInv.adopt (h : LifeInv s) {np : Fin NPROC} (hphase : s.phase p = .forked np) :
    Moves p s (s.adopt p np) := by
  have hmaking : s.family.making p = some (np, false) := congrArg Phase.making hphase
  have hused : kindOf (s.kernel.proc np).state = .used := (h.tree.making_live p _ hmaking).2
  refine ⟨.inr (family_adopt s p np ▸ .adopt np hmaking), h.clean.setProc ?_,
    h.asleep.setChild nofun ?_ ?_⟩
  all_goals
    intro hs
    dsimp only at hs
    rw [hs] at hused
    cases hused

theorem LifeInv.publish (h : LifeInv s) {np : Fin NPROC} (hphase : s.phase p = .adopted np) :
    Moves p s (s.publish p np) := by
  have hmaking : s.family.making p = some (np, true) := congrArg Phase.making hphase
  exact ⟨.inr (family_publish s p np ▸ .publish np hmaking), h.clean.setProc nofun,
    h.asleep.setChild nofun nofun nofun⟩

theorem LifeInv.kexit (h : LifeInv s) (hp : (s.kernel.proc p).state = .running)
    (hphase : s.phase p = .idle) (status : Int) : Moves p s (s.kexit p status) := by
  by_cases hinit : p = initproc
  · rw [LifeState.kexit, if_pos hinit]
    exact ⟨.inl rfl, h.clean, h.asleep⟩
  · have hself := h.tree.parent_ne p
    have hfamily := family_kexit (s := s) hinit hself status
    have hex := kexitSection_spec hinit s.kernel status hself
    have hkernel : (s.kexit p status).kernel = kexitSection s.kernel p status := by
      rw [LifeState.kexit, if_neg hinit]
    have hphases : (s.kexit p status).phase = s.phase := by rw [LifeState.kexit, if_neg hinit]
    have hstep : Family.Step initproc p s.family (s.kexit p status).family := by
      rw [hfamily]
      exact .exit status (congrArg kindOf hp) (congrArg Phase.making hphase) hinit
    refine ⟨.inr hstep, fun i hi => ?_, fun q addr hq hs => ?_⟩
    · have hip : i ≠ p := fun he => by
        rw [hkernel, he, hex.zombie.1] at hi
        cases hi
      obtain ⟨hkind, hst⟩ := hex.other i hip
      rw [hkernel] at hi ⊢
      have hi' : (s.kernel.proc i).state = .unused :=
        kindOf_unused.mp (hkind ▸ kindOf_unused.mpr hi)
      obtain ⟨hpid0, hst0, hpar0⟩ := h.clean i hi'
      rw [hex.pid, hst, hex.parent, hpar0]
      exact ⟨hpid0, hst0, rfl⟩
    · rw [hphases] at hq
      rw [hkernel] at hs ⊢
      obtain ⟨hs', hchan⟩ := hex.wakes q hs
      obtain ⟨haddr, hkids⟩ := h.asleep q addr hq hs'
      refine ⟨hchan.trans haddr, fun c hc hz => ?_⟩
      rw [hex.parent] at hc
      have hsleeps : ((kexitSection s.kernel p status).proc q).SleepsOn (procAddr q) :=
        ⟨hs, hchan.trans haddr⟩
      split_ifs at hc with horphan
      · -- an orphan, so init was woken
        cases hc
        exact hex.orphans c horphan hsleeps
      · by_cases hcp : c = p
        · exact hex.reaper q (hcp ▸ hc) hsleeps
        · exact hkids c hc (kindOf_zombie.mp ((hex.other c hcp).1 ▸ kindOf_zombie.mpr hz))

theorem LifeInv.kwaitPass (h : LifeInv s) {addr : UInt64} (hphase : s.phase p = .waiting addr)
    (hp : (s.kernel.proc p).state = .running) (copied : Bool) :
    Moves p s (s.kwaitPass p addr copied) := by
  have hfamily : (s.kwaitPass p addr copied).family = s.family ∨
      Family.Step initproc p s.family (s.kwaitPass p addr copied).family := by
    refine (family_kwaitPass hphase hp).imp_right fun ⟨c, hpar, hz, hf⟩ => ?_
    rw [hf]
    exact .reap c (congrArg kindOf hp) (congrArg kindOf hz) hpar
  have hidle : Asleep (s.setPhase p .idle) := by
    refine h.asleep.keep (fun q addr hq hs => ⟨?_, hs, rfl⟩) fun c q hc hz => ⟨hc, hz⟩
    rw [LifeState.setPhase] at hq
    dsimp only at hq
    rw [Function.update_apply] at hq
    split_ifs at hq
    exact hq
  refine ⟨hfamily, ?_, ?_⟩
  · rw [LifeState.kwaitPass]
    split
    · split_ifs
      · exact h.clean
      · exact h.clean.setProc fun _ => ⟨rfl, rfl, rfl⟩
    · split_ifs
      · exact h.clean
      · exact h.clean.setProc nofun
  · rw [LifeState.kwaitPass]
    split
    · split_ifs
      · exact hidle
      · exact h.asleep.setChild nofun nofun nofun
    · rename_i hnone
      split_ifs
      · exact hidle
      · have hkin : SameKin s.kernel (s.kernel.setProc p
            { s.kernel.proc p with chan := procAddr p, state := .sleeping }) :=
          sameKin_setProc (by rw [hp]; rfl) rfl rfl rfl
        intro q addr' hq hs
        have hkids : ∀ c, (s.kernel.proc c).parent = some q → (s.kernel.proc c).state ≠ .zombie →
            ((s.kernel.setProc p { s.kernel.proc p with chan := procAddr p,
                                                        state := .sleeping }).proc c).state ≠
              .zombie := fun c _ hz hz' =>
          hz (kindOf_zombie.mp ((hkin c).1 ▸ kindOf_zombie.mpr hz'))
        by_cases hqp : q = p
        · subst hqp
          refine ⟨by simp, fun c hc => hkids c ((hkin c).2.1 ▸ hc) ?_⟩
          exact zombieChild_none hnone c ((hkin c).2.1 ▸ hc)
        · dsimp only at hs ⊢
          rw [Kernel.setProc_of_ne s.kernel hqp] at hs ⊢
          obtain ⟨haddr, hold⟩ := h.asleep q addr' hq hs
          refine ⟨haddr, fun c hc => hkids c ((hkin c).2.1 ▸ hc) (hold c ((hkin c).2.1 ▸ hc))⟩

theorem LifeInv.kwait (h : LifeInv s) (hp : (s.kernel.proc p).state = .running)
    (hphase : s.phase p = .idle) (addr : UInt64) : Moves p s (s.setPhase p (.waiting addr)) := by
  refine ⟨.inl (family_congr (fun _ => ⟨rfl, rfl, rfl, rfl⟩)
    (making_setPhase (by rw [hphase]; rfl)) rfl rfl rfl rfl rfl), h.clean, ?_⟩
  refine h.asleep.keep (fun q addr' hq hs => ⟨?_, hs, rfl⟩) fun c q hc hz => ⟨hc, hz⟩
  rw [LifeState.setPhase] at hq hs
  dsimp only at hq hs
  rw [Function.update_apply] at hq
  split_ifs at hq with hqp
  · rw [hqp, hp] at hs
    cases hs
  · exact hq

theorem LifeInv.run (h : LifeInv s) (e : LifeEvent)
    (hrun : (s.kernel.proc e.actor).state = .running) : Moves e.actor s (runStep s e) := by
  cases e with
  | kfork p i mem =>
    rw [runStep]
    split_ifs with hok
    · exact h.kfork mem hrun hok.1 hok.2
    · exact h.stay _
  | adopt p =>
    rw [runStep]
    split
    · exact h.adopt ‹_›
    · exact h.stay _
  | publish p =>
    rw [runStep]
    split
    · exact h.publish ‹_›
    · exact h.stay _
  | kexit p status =>
    rw [runStep]
    split_ifs with hidle
    · exact h.kexit hrun hidle status
    · exact h.stay _
  | kwait p addr =>
    rw [runStep]
    split_ifs with hidle
    · exact h.kwait hrun hidle addr
    · exact h.stay _
  | pass p copied =>
    rw [runStep]
    split
    · exact h.kwaitPass ‹_› hrun copied
    · exact h.stay _
  | sleep p chan =>
    rw [runStep]
    split_ifs with hidle
    · exact h.setProc (congrArg kindOf hrun).symm rfl rfl rfl fun _ => hidle.1
    · exact h.stay _
  | wakeup p chan => exact h.quiet (wakeup_table _ _ _).1 (wakeup_table _ _ _).2
  | kill p pid sig => exact h.quiet (kkill_table _ _ _).1 (kkill_table _ _ _).2
  | setkilled p => exact h.setProc rfl rfl rfl rfl fun hs => by cases hrun.symm.trans hs
  | preempt p => exact h.setProc (congrArg kindOf hrun).symm rfl rfl rfl nofun
  | dispatch p | interrupt chan => exact h.stay _

theorem LifeInv.step (h : LifeInv s) (e : LifeEvent) : Moves e.actor s (lifeStep s e) := by
  unfold lifeStep
  split
  · exact h.stay _
  · split
    · split_ifs with hrunnable
      · exact h.setProc (congrArg kindOf hrunnable).symm rfl rfl rfl nofun
      · exact h.stay _
    · exact h.quiet (wakeupAll_table _ _).1 (wakeupAll_table _ _).2
    · split_ifs with hrun
      · exact h.run _ hrun
      · exact h.stay _

theorem lifeInv_step (s : LifeState) (e : LifeEvent) (h : LifeInv s) : LifeInv (lifeStep s e) :=
  h.moves (h.step e)

end Steps

theorem lifeInv_boot : LifeInv lifeBoot := by
  have hproc : ∀ i, i ≠ initproc → lifeBoot.kernel.proc i = {} := fun i hi => if_neg hi
  have hkind : ∀ i, lifeBoot.family.kind i = if i = initproc then .live else .unused := by
    intro i
    simp only [LifeState.family, lifeBoot]
    split_ifs <;> rfl
  have hparent : ∀ i, lifeBoot.family.parent i = none := by
    intro i
    simp only [LifeState.family, lifeBoot]
    split_ifs <;> rfl
  have hzombie : ∀ i, (if i = initproc then Kind.live else Kind.unused) ≠ .zombie := by
    intro i
    split_ifs <;> nofun
  have hmaking : ∀ p, lifeBoot.family.making p = none := fun _ => rfl
  have hexits : lifeBoot.family.exits = [] := rfl
  have hreaps : lifeBoot.family.reaps = [] := rfl
  have hbirths : lifeBoot.family.births = 1 := rfl
  have hinst : ∀ i, lifeBoot.family.inst i = 0 := fun _ => rfl
  refine ⟨?_, ?_, fun i hi => ?_, fun p addr hp => by cases hp⟩
  · constructor <;> simp +contextual [hkind, hparent, hmaking]
  · constructor <;> simp +contextual [hkind, hzombie, hparent, hmaking, hexits, hreaps, hbirths, hinst,
      Family.Ended]
  · by_cases h0 : i = initproc
    · rw [h0] at hi
      cases hi
    · rw [hproc i h0]
      exact ⟨rfl, rfl, rfl⟩

/-- The law for exits: a process that runs, sleeps, waits for the CPU or is a zombie has a live
parent, init apart; a process exits and is reaped at most once; a `kwait` that reaps it reports the
pid and the status of its exit and is made by the process that forked it, or by init if that one has
exited; and nobody sleeps in `kwait` with a zombie child. -/
structure ExitsReaped (s : LifeState) : Prop where
  parent : ∀ i, i ≠ initproc → (s.kernel.proc i).state ≠ .unused → (s.kernel.proc i).state ≠ .used →
    ∃ q, (s.kernel.proc i).parent = some q ∧ (s.kernel.proc q).state ≠ .unused ∧
      (s.kernel.proc q).state ≠ .zombie
  exit_once : (s.exits.map Exit.inst).Nodup
  reap_once : (s.reaps.map Reap.inst).Nodup
  reported : ∀ r ∈ s.reaps, r.exit ∈ s.exits ∧
    (r.reaper = s.mother r.inst ∨
      r.reaper = s.inst initproc ∧ s.mother r.inst ∈ s.exits.map Exit.inst)
  awake : ∀ p addr c, s.phase p = .waiting addr → (s.kernel.proc p).state = .sleeping →
    (s.kernel.proc c).parent = some p → (s.kernel.proc c).state ≠ .zombie

theorem LifeInv.exitsReaped {s : LifeState} (h : LifeInv s) : ExitsReaped s := by
  refine ⟨fun i hi hunused hused => ?_, h.records.ended_once, h.records.reaped_once, h.records.reaped,
    fun p addr c hp hs hc => (h.asleep p addr hp hs).2 c hc⟩
  have hkind : s.family.kind i = .live ∨ s.family.kind i = .zombie := by
    simp only [LifeState.family]
    cases hstate : (s.kernel.proc i).state <;> simp_all [kindOf]
  obtain ⟨q, hq⟩ := Option.ne_none_iff_exists'.mp (h.tree.has_parent i hi hkind)
  have hlive : kindOf (s.kernel.proc q).state = .live := (h.tree.parent_live i q hq).1
  refine ⟨q, hq, fun hs => ?_, fun hs => ?_⟩ <;> rw [hs] at hlive <;> cases hlive

/-- A zombie is freed only by a pass of its parent's `kwait`, which records it. -/
def FreedByParent (s : LifeState) (e : LifeEvent) : Prop :=
  ∀ c, (s.kernel.proc c).state = .zombie → ((lifeStep s e).kernel.proc c).state ≠ .zombie →
    (s.kernel.proc c).parent = some e.actor ∧
      (lifeStep s e).reaps = s.reaps ++
        [⟨s.inst c, (s.kernel.proc c).pid, (s.kernel.proc c).xstate, s.inst e.actor⟩]

theorem freedByParent {s : LifeState} (h : LifeInv s) (e : LifeEvent) : FreedByParent s e := by
  intro c hc hc'
  have hne : (lifeStep s e).family.kind c ≠ .zombie := mt kindOf_zombie.mp hc'
  rcases (h.step e).family with hf | hf
  · rw [hf] at hne
    exact absurd (kindOf_zombie.mpr hc) hne
  · exact hf.zombie h.tree (kindOf_zombie.mpr hc) hne

/-- In every interleaving from boot: exits are reaped once, by the parent. -/
theorem exits_reaped_once (es : List LifeEvent) :
    Always lifeStep ExitsReaped lifeBoot es ∧ Meets lifeStep FreedByParent lifeBoot es :=
  ⟨always_of_inv lifeInv_step (fun _ => LifeInv.exitsReaped) lifeInv_boot es,
    meets_of_inv (fun s e h _ => lifeInv_step s e h) (fun _ e h _ => freedByParent h e) lifeInv_boot
      (meets_true _ es)⟩

end OsProject.Life
