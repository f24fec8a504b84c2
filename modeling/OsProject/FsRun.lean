import OsProject.ProcessSpec
import OsProject.Runs

/-! Runs of the file system: the calls of all processes one after the other, from a state with a
consistent volume. -/

namespace OsProject

def callEdit (s : Fs) (me : Fin NPROC) : FsCall → Graph → Prop
  | .link old new => linkEdit s me old new
  | .unlink path => unlinkEdit s me path
  | .open path omode => fun g =>
    omode &&& O_CREATE ≠ 0 ∧ ∃ p, argstr path = some p ∧ createEdit s me p .file g
  | .mkdir path => fun g => ∃ p, argstr path = some p ∧ createEdit s me p .dir g
  | .mknod path _ _ => fun g => ∃ p, argstr path = some p ∧ createEdit s me p .device g
  | _ => fun _ => False

section Calls

variable {sb : Superblock} {s : Fs} {me : Fin NPROC}

theorem fsCall_spec (c : FsCall) (h : Sys sb s []) (halive : (s.kernel.proc me).Alive) :
    wp (fsCall sb me c) (fun _ s' => Sys sb s' [] ∧ Effect s.graph (callEdit s me c) s'.graph)
      (Err (¬ NoDangling s.graph)) s := by
  have hcwd : ∀ c, (s.kernel.proc me).cwd = some c → 0 < holders s c := fun _ =>
    holders_pos_of_cwd
  -- A call that edits names ends with the references that it started with.
  have hreach : ∀ {edit : Graph → Prop} {s' : Fs},
      (∃ g', Reaches sb (holders s) [] s s' [] [] g' ∧ Effect s.graph edit g') →
      Sys sb s' [] ∧ Effect s.graph edit s'.graph := by
    rintro edit s' ⟨g', hs, he⟩
    exact ⟨h.reaches hs, hs.graph ▸ he⟩
  have hsame : ∀ {edit : Graph → Prop} {s' : Fs}, Sys sb s' [] ∧ s'.graph = s.graph →
      Sys sb s' [] ∧ Effect s.graph edit s'.graph := fun hs => ⟨hs.1, .same hs.2⟩
  have hdrops : ∀ {edit : Graph → Prop} {s' : Fs}, Sys sb s' [] ∧ s.graph.Drops s'.graph →
      Sys sb s' [] ∧ Effect s.graph edit s'.graph := fun hs => ⟨hs.1, .none hs.2⟩
  cases c with
  | link old new =>
    exact wp_post (sysLink_spec old new h.ok id hcwd) fun _ _ hs => hreach hs
  | unlink path =>
    exact wp_post (sysUnlink_spec path h.ok id hcwd) fun _ _ hs => hreach hs
  | «open» path omode => exact sysOpen_spec path omode h id
  | mkdir path =>
    exact wp_post (sysCreate_spec path (by decide) h.ok id hcwd) fun _ _ hs => hreach hs
  | mknod path major minor =>
    exact wp_post (sysCreate_spec path (by decide) h.ok id hcwd) fun _ _ hs => hreach hs
  | chdir path =>
    exact wp_post (sysChdir_spec path h halive id) fun _ _ hs => hdrops hs
  | dup fd => exact wp_post (sysDup_spec fd h) fun _ _ hs => hsame hs
  | close fd => exact wp_post (sysClose_spec fd h) fun _ _ hs => hdrops hs
  | fstat fd copyoutOk =>
    exact wp_post (sysFstat_spec fd copyoutOk h) fun _ _ hs => hsame hs
  | read fd n dst dev =>
    exact wp_post (sysRead_spec fd n dst dev h) fun _ _ hs => hsame hs
  | write fd n src dev =>
    exact wp_post (sysWrite_spec fd n src dev h) fun _ _ hs => hsame hs
  | fork mem => exact wp_post (sysFork_spec mem h halive) fun _ _ hs => hsame hs
  | exit status => exact wp_post (sysExit_spec status h) fun _ _ hs => hdrops hs
  | wait copyoutOk =>
    exact wp_post (sysWait_spec copyoutOk h) fun _ _ hs => hsame hs

end Calls

/-- A call of the process in slot `e.1`, if it can make one. A panic, or a call that never returns,
ends the run. -/
def fsStep (sb : Superblock) (r : Except Panic Fs) (e : Fin NPROC × FsCall) : Except Panic Fs :=
  match r with
  | .error p => .error p
  | .ok s => if (s.kernel.proc e.1).Alive then (fsCall sb e.1 e.2 s).map Prod.snd else .ok s

/-- What holds of the state of a run, or of the panic that ended it. -/
inductive Outcome (P : Fs → Prop) (E : Panic → Prop) : Except Panic Fs → Prop
  | ok {s : Fs} : P s → Outcome P E (.ok s)
  | error {p : Panic} : E p → Outcome P E (.error p)

section Outcome

variable {sb : Superblock} {s : Fs} {P Q : Fs → Prop} {E F : Panic → Prop}
  {r : Except Panic Fs}

theorem Outcome.of_ok (h : Outcome P E (.ok s)) : P s := by
  cases h
  assumption

theorem Outcome.of_error {p : Panic} (h : Outcome P E (.error p)) : E p := by
  cases h
  assumption

instance [DecidablePred P] [DecidablePred E] : DecidablePred (Outcome P E)
  | .ok _ => decidable_of_iff (P _) ⟨.ok, Outcome.of_ok⟩
  | .error _ => decidable_of_iff (E _) ⟨.error, Outcome.of_error⟩

theorem Outcome.imp (h : Outcome P E r) (hP : ∀ s, P s → Q s) (hE : ∀ p, E p → F p) :
    Outcome Q F r := by
  cases h with
  | ok h => exact .ok (hP _ h)
  | error h => exact .error (hE _ h)

theorem Outcome.eq_error {p : Panic} (h : Outcome (fun _ => False) (· = p) r) : r = .error p := by
  cases h with
  | ok h => exact h.elim
  | error h => rw [h]

theorem outcome_fsStep {e : Fin NPROC × FsCall} (hskip : P s)
    (hcall : (s.kernel.proc e.1).Alive → wp (fsCall sb e.1 e.2) (fun _ => P) E s) :
    Outcome P E (fsStep sb (.ok s) e) := by
  simp only [fsStep]
  split_ifs with halive
  · cases hx : fsCall sb e.1 e.2 s with
    | ok r => exact .ok (wp_ok (hcall halive) hx)
    | error p => exact .error (wp_error (hcall halive) hx)
  · exact .ok hskip

theorem always_of_edits {I : Graph → Prop} {C : Except Panic Fs → Fin NPROC × FsCall → Prop}
    (hedit : ∀ s e g, Sys sb s [] → I s.graph → C (.ok s) e → callEdit s e.1 e.2 g → I g)
    (hdrop : ∀ g n, I g → (g n).nlink = 0 → I (g.drop n))
    (hP : ∀ s, Sys sb s [] → I s.graph → P s)
    (hE : ∀ (s : Fs) p, I s.graph → Err (¬ NoDangling s.graph) p → E p) (hs : Sys sb s [])
    (hi : I s.graph)
    {es : List (Fin NPROC × FsCall)} (hes : Meets (fsStep sb) C (.ok s) es) :
    Always (fsStep sb) (Outcome P E) (.ok s) es := by
  have hdrops : ∀ {g g' : Graph}, g.Drops g' → I g → I g' := by
    intro g g' hd hg
    induction hd with
    | refl => exact hg
    | tail _ hstep ih =>
      obtain ⟨n, -, hz, rfl⟩ := hstep
      exact hdrop _ n ih hz
  refine always_of_meets (I := Outcome (fun t => Sys sb t [] ∧ I t.graph) E) ?_ ?_
    (.ok ⟨hs, hi⟩) hes
  · intro r e hr he
    cases hr with
    | error h => exact .error h
    | ok ht =>
      refine outcome_fsStep ht fun halive => ?_
      refine wp_mono (fsCall_spec e.2 ht.1 halive) ?_ fun p hp => hE _ p ht.2 hp
      rintro _ u ⟨hu, g1, rfl | hg1, hd⟩
      · exact ⟨hu, hdrops hd ht.2⟩
      · exact ⟨hu, hdrops hd (hedit _ e g1 ht.1 ht.2 he hg1)⟩
  · exact fun r hr => hr.imp (fun t ht => hP t ht.1 ht.2) fun _ he => he

end Outcome

/-- Every block number is in one place at most, of an inode in use; the bitmap has exactly the
blocks before the data and those in a place; and the inodes in memory are those on disk. -/
structure BlocksOwned (sb : Superblock) (s : Fs) : Prop where
  once : ∀ x y, place s.dinode s.data x ≠ 0 →
    place s.dinode s.data x = place s.dinode s.data y → x = y
  bitmap : ∀ b < sb.size,
    s.bitmap b = true ↔ b < sb.nmeta ∨ ∃ x, place s.dinode s.data x = b
  range : ∀ x, place s.dinode s.data x ≠ 0 →
    sb.nmeta ≤ place s.dinode s.data x ∧ place s.dinode s.data x < sb.size
  cached : ∀ i, 0 < (s.inode i).ref → (s.inode i).valid = true →
    (s.inode i).toDinode = s.dinode (s.inode i).inum

theorem Sys.blocksOwned {sb : Superblock} {s : Fs} {held : List Slot} (h : Sys sb s held) :
    BlocksOwned sb s where
  once := h.ok.vol.owned.inj
  bitmap b hb := by simpa using h.ok.vol.owned.used_iff b hb
  range := h.ok.vol.owned.range
  cached i hr hv := (h.ok.cache.coherent i hr hv).1

abbrev Running (sb : Superblock) : Except Panic Fs → Prop :=
  Outcome (fun s => Sys sb s []) (· ≠ .freeingFreeBlock)

theorem running_step {sb : Superblock} (r : Except Panic Fs) (e : Fin NPROC × FsCall)
    (h : Running sb r) : Running sb (fsStep sb r e) := by
  cases h with
  | error h => exact .error h
  | ok h =>
    refine outcome_fsStep h fun halive => ?_
    exact wp_mono (fsCall_spec e.2 h halive) (fun _ _ hs => hs.1) fun _ he => he.1

theorem exists_of_run {sb : Superblock} {s : Fs} (h : Sys sb s []) {P : Fs → Prop}
    {es : List (Fin NPROC × FsCall)}
    (hend : Outcome P (fun _ => False) (es.foldl (fsStep sb) (.ok s))) :
    ∃ t, es.foldl (fsStep sb) (.ok s) = .ok t ∧ Sys sb t [] ∧ P t := by
  have hsys : Running sb (es.foldl (fsStep sb) (.ok s)) :=
    inv_of_meets (fun r e hr _ => running_step r e hr) (.ok h) (meets_true _ _)
  generalize es.foldl (fsStep sb) (.ok s) = r at hend hsys ⊢
  cases hend with
  | error h => exact h.elim
  | ok h => exact ⟨_, rfl, hsys.of_ok, h⟩

theorem blocks_owned {sb : Superblock} {s : Fs} (h : Sys sb s [])
    (es : List (Fin NPROC × FsCall)) :
    Always (fsStep sb) (Outcome (BlocksOwned sb) (· ≠ .freeingFreeBlock)) (.ok s) es := by
  refine always_of_inv running_step (fun r hr => ?_) (.ok h) es
  exact hr.imp (fun _ ht => ht.blocksOwned) fun _ he => he

def smallSb : Superblock where
  size := 16
  nblocks := 10
  ninodes := 8
  inodestart := 3
  bmapstart := 5

def rootBlock : Block := fun i =>
  if i < 16 then encodeDirent { inum := ROOTINO, name := dotName } i
  else if i < 32 then encodeDirent { inum := ROOTINO, name := dotDotName } (i - 16)
  else 0

def rootDinode : Dinode where
  type := .dir
  nlink := 1
  size := 32
  addrs i := if i = 0 then 6 else 0

def smallFs : Fs where
  dinode n := if n = ROOTINO then rootDinode else {}
  bitmap b := b ≤ 6
  data b := if b = 6 then rootBlock else fun _ => 0
  inode i := if i = 0 then { inum := ROOTINO, ref := 1 } else {}
  kernel :=
    { proc := fun i => if i = 0 then { state := .running, pid := 1, cwd := some 0 } else {}
      nextpid := 2 }

theorem smallFs_type {n : Nat} (h : (smallFs.dinode n).type ≠ .free) : n = ROOTINO := by
  by_contra hn
  simp [smallFs, hn] at h

theorem smallFs_place (x : Nat × Nat) :
    place smallFs.dinode smallFs.data x = if x = (ROOTINO, 0) then 6 else 0 := by
  obtain ⟨n, p⟩ := x
  by_cases hn : n = ROOTINO
  · subst hn
    have hd : smallFs.dinode ROOTINO = rootDinode := rfl
    by_cases hp : p = 0
    · subst hp
      rfl
    · have hind : NDIRECT ≠ 0 := by decide
      simp [place, blockAt, hd, hp, hind, rootDinode]
  · simp [place, smallFs, hn]

theorem smallFs_holders (i : Slot) : holders smallFs i = if i = 0 then 1 else 0 := by
  revert i
  decide +kernel

theorem smallFs_placed {x : Nat × Nat} (h : place smallFs.dinode smallFs.data x ≠ 0) :
    x = (ROOTINO, 0) := by
  by_contra hx
  rw [smallFs_place, if_neg hx] at h
  exact h rfl

theorem volInv_smallFs : VolInv smallSb smallFs.dinode smallFs.bitmap smallFs.data where
  fits := by decide
  owned :=
    { pos := by decide
      range := fun x hx => by
        rw [smallFs_placed hx, smallFs_place, if_pos rfl]
        decide
      inj := fun x y hx hxy => by
        have hy : place smallFs.dinode smallFs.data y ≠ 0 := hxy ▸ hx
        rw [smallFs_placed hx, smallFs_placed hy]
      used_iff := fun b hb => by
        have hplaced : (∃ x, place smallFs.dinode smallFs.data x = b) ↔ b = 0 ∨ b = 6 := by
          constructor
          · rintro ⟨x, rfl⟩
            rw [smallFs_place]
            split_ifs <;> simp
          · rintro (rfl | rfl)
            · exact ⟨(0, 0), by rw [smallFs_place]; rfl⟩
            · exact ⟨(ROOTINO, 0), by rw [smallFs_place]; rfl⟩
        have hmeta : smallSb.nmeta = 6 := rfl
        have hbit : smallFs.bitmap b = true ↔ b ≤ 6 := by simp [smallFs]
        rw [hplaced, hmeta, hbit, Set.mem_empty_iff_false, or_false]
        omega
      loose_free := by simp }
  filled n hn := by
    rw [smallFs_type hn]
    refine ⟨by decide, fun bn hbn => ?_⟩
    have hz : bn = 0 := by
      have hsize : (smallFs.dinode ROOTINO).size = 32 := rfl
      have hbs : BSIZE = 1024 := rfl
      rw [hsize, hbs] at hbn
      omega
    subst hz
    decide
  inums n hn := by
    rw [smallFs_type hn]
    decide
  dirSize n hn := by
    have htype : (smallFs.dinode n).type ≠ .free := by rw [hn]; decide
    rw [smallFs_type htype]
    decide
  links n := by
    by_cases hn : n = ROOTINO
    · rw [hn]
      decide
    · simp only [smallFs, hn, if_false]
      decide

theorem sys_smallFs : Sys smallSb smallFs [] := by
  have hinode : ∀ i : Slot, i ≠ 0 → smallFs.inode i = {} := fun i hi => by simp [smallFs, hi]
  have hfirst : ∀ i : Slot, 0 < (smallFs.inode i).ref → i = 0 := fun i hi => by
    by_contra hne
    rw [hinode i hne] at hi
    exact absurd hi (by decide)
  refine ⟨⟨⟨fun i j hi hj _ => ?_, fun i hi hv => ?_, fun i => ?_, fun i hi => ?_, fun n hn hz => ?_⟩,
    volInv_smallFs⟩, fun f => ?_, fun p => ?_⟩
  · rw [hfirst i hi, hfirst j hj]
  · rw [hfirst i hi] at hv
    exact absurd hv (by decide)
  · rw [smallFs_holders, List.count_nil]
    by_cases hi : i = 0
    · rw [hi]
      rfl
    · rw [hinode i hi, if_neg hi]
      rfl
  · have hz : i = 0 := by
      by_contra hne
      rw [smallFs_holders, if_neg hne] at hi
      exact absurd hi (by decide)
    rw [hz]
    decide
  · rw [smallFs_type hn] at hz
    exact absurd hz (by decide)
  · exact ⟨fun _ => rfl, fun hf => nomatch hf⟩
  · by_cases hp : p = 0
    · rw [hp]
      exact procOk_of_alive (by decide)
    · simp only [smallFs, hp, if_false]
      exact fun _ => rfl

def writeCalls : List (Fin NPROC × FsCall) :=
  [(0, .open (some [102, 0]) (O_CREATE ||| O_RDWR)), (0, .write 0 2000 (fun _ => some 7) 0),
    (0, .close 0), (0, .unlink (some [102, 0]))]

theorem blocks_owned_write :
    (writeCalls.foldl (fsStep smallSb) (.ok smallFs)).isOk = true ∧ Always (fsStep smallSb)
      (Outcome (BlocksOwned smallSb) (· ≠ .freeingFreeBlock)) (.ok smallFs) writeCalls :=
  ⟨by decide +kernel, blocks_owned sys_smallFs _⟩

end OsProject
