import OsProject.DirSpec

/-! `namex` follows a path on the graph and leaves the graph alone. -/

namespace OsProject

variable {sb : Superblock} {s s' : Fs} {hold : Slot → Nat} {held : List Slot}
  {doomed : List Nat} {ip : Slot} {T : Prop} {E : Panic → Prop}

theorem Graph.next_of_find {g : Graph} {d k : Nat} {name : Name} (hd : (g d).kind = .dir)
    (hk : (g d).find name = some k) : g.next d name = some ((g d).ent k).inum := by
  rw [Graph.next, if_pos hd, hk]
  rfl

theorem Graph.walkParent_cons {g : Graph} {start : Nat} {name : Name} {rest : List Name}
    (hrest : rest ≠ []) : g.walkParent start (name :: rest) =
      (g.next start name).bind fun n => g.walkParent n rest := by
  cases rest with
  | nil => contradiction
  | cons _ _ => rfl

theorem Graph.walkParent_kind {g : Graph} {elems : List Name} {start d : Nat} {name : Name}
    (h : g.walkParent start elems = some (d, name)) : (g d).kind = .dir ∧ name ∈ elems := by
  induction elems generalizing start with
  | nil => simp [Graph.walkParent] at h
  | cons e rest ih =>
    by_cases hrest : rest = []
    · subst hrest
      rw [Graph.walkParent] at h
      split_ifs at h with hd
      obtain ⟨rfl, rfl⟩ : start = d ∧ e = name := by simpa using h
      exact ⟨hd, by simp⟩
    · rw [Graph.walkParent_cons hrest] at h
      obtain ⟨n, -, hn⟩ := Option.bind_eq_some_iff.mp h
      obtain ⟨hd, hmem⟩ := ih hn
      exact ⟨hd, List.mem_cons_of_mem _ hmem⟩

/-- The panics of `namex`: the inode table has no room for two more inodes, a slot is locked, or,
if `T`, an entry names no inode. -/
structure PathErr (hold : Slot → Nat) (held : List Slot) (T : Prop) (locks : Slot → Bool)
    (E : Panic → Prop) : Prop where
  slots : (∃ j, ∀ i, i ≠ j → hold i + held.count i ≠ 0) → E .igetNoInodes
  stuck : ∀ i, locks i = true → E .stuck
  noType : T → E .ilockNoType

theorem pathErr_err (locks : Slot → Bool) : PathErr hold held T locks (Err T) :=
  ⟨fun _ => by simp [Err], fun _ _ => by simp [Err], fun hT => ⟨by simp, fun _ => hT⟩⟩

def Found (sb : Superblock) (hold : Slot → Nat) (held : List Slot) (doomed : List Nat) (T : Prop)
    (np : Bool) (start : Nat) (elems : List Name) (s : Fs) (r : Option (Slot × Name))
    (s' : Fs) : Prop :=
  s'.locks = s.locks ∧
  ((r = none ∧ Reaches sb hold held s s' held doomed s.graph ∧
    if np then s.graph.walkParent start elems = none else s.graph.walk start elems = none) ∨
  ∃ jp name, r = some (jp, name) ∧ Reaches sb hold held s s' (jp :: held) doomed s.graph ∧
    ((s.graph (s'.inode jp).inum).kind = .free → T) ∧
    if np then s.graph.walkParent start elems = some ((s'.inode jp).inum, name)
    else s.graph.walk start elems = some (s'.inode jp).inum)

theorem Found.trans {np : Bool} {start start' : Nat} {elems elems' : List Name} {s1 s2 : Fs}
    {r : Option (Slot × Name)} {held1 keep : List Slot}
    (hf : Found sb hold held doomed T np start elems s1 r s2)
    (h : Reaches sb hold keep s s1 held1 doomed s.graph) (hsub : held ⊆ keep)
    (hlocks : s1.locks = s.locks)
    (hwalk : s.graph.walk start' elems' = s.graph.walk start elems)
    (hparent : np = true → s.graph.walkParent start' elems' = s.graph.walkParent start elems) :
    Found sb hold held doomed T np start' elems' s r s2 := by
  obtain ⟨hl, ⟨hr, hs, hres⟩ | ⟨jp, name, hr, hs, hfree, hres⟩⟩ := hf
  · rw [h.graph] at hs hres
    refine ⟨hl.trans hlocks, .inl ⟨hr, h.trans hs hsub, ?_⟩⟩
    cases np with
    | false => simpa [hwalk] using hres
    | true => simpa [hparent rfl] using hres
  · rw [h.graph] at hs hfree hres
    refine ⟨hl.trans hlocks, .inr ⟨jp, name, hr, h.trans hs hsub, hfree, ?_⟩⟩
    cases np with
    | false => simpa [hwalk] using hres
    | true => simpa [hparent rfl] using hres

theorem Graph.next_eq_none {g : Graph} {d : Nat} {name : Name}
    (h : (g d).kind = .dir → (g d).find name = none) : g.next d name = none := by
  rw [Graph.next]
  split_ifs with hd
  · rw [h hd]
    rfl
  · rfl

theorem Graph.walk_eq_none {g : Graph} {d : Nat} {name : Name} {rest : List Name}
    (h : g.next d name = none) : g.walk d (name :: rest) = none := by
  rw [Graph.walk, h]
  rfl

theorem Graph.walkParent_eq_none {g : Graph} {d : Nat} {name : Name} {rest : List Name}
    (h : (g d).kind ≠ .dir ∨ rest ≠ [] ∧ g.next d name = none) :
    g.walkParent d (name :: rest) = none := by
  cases rest with
  | nil => exact if_neg (h.resolve_right fun hr => hr.1 rfl)
  | cons e rest =>
    have hnext : g.next d name = none :=
      h.elim (fun hd => Graph.next_eq_none fun hk => absurd hk hd) And.right
    rw [Graph.walkParent_cons (List.cons_ne_nil e rest), hnext]
    rfl

theorem namexLoop_spec {np : Bool} {elems : List Name} :
    ∀ {s : Fs} {ip : Slot}, FsOk sb s hold (ip :: held) doomed →
    (∀ n ∈ doomed, ∃ i ∈ held, (s.inode i).inum = n) → (¬ NoDangling s.graph → T) →
    ((s.graph (s.inode ip).inum).kind = .free → T) → PathErr hold held T s.locks E →
    wp (namexLoop sb np ip elems)
      (fun r s' => Found sb hold held doomed T np (s.inode ip).inum elems s r s') E s := by
  induction elems with
  | nil =>
    intro s ip h hdoom _ hstart _
    simp only [namexLoop, wp_ite, wp_bind, wp_pure]
    refine ⟨fun hnp => ?_, fun hnp => ⟨rfl, .inr ⟨ip, [], rfl, .refl h, hstart, ?_⟩⟩⟩
    · refine wp_post (iput_total h (List.Perm.refl _) hdoom) ?_
      rintro _ s1 ⟨hs, hlocks⟩
      refine ⟨hlocks, .inl ⟨rfl, hs, ?_⟩⟩
      rw [if_pos hnp]
      rfl
    · simp [hnp, Graph.walk]
  | cons name elems ih =>
    intro s ip h hdoom hT hstart herr
    simp only [namexLoop, wp_bind]
    refine wp_post (ilock_total h (.inr (by simp)) (herr.stuck ip) fun hf =>
      herr.noType (hstart hf)) ?_
    rintro _ s1 ⟨hs1, hv1, hfree1, hlocks1⟩
    have hmem : 0 < hold ip ∨ ip ∈ ip :: held := .inr (by simp)
    have hnum1 := (hs1.kept.slot ip hmem).1
    have hkind := (hs1.ok.slot_node hmem hv1).1
    have hlocked : s1.locks ip = true := by rw [hlocks1, Function.update_self]
    -- what `iunlock` leaves is what `ilock` found
    have hunlock : Function.update s1.locks ip false = s.locks := by
      rw [hlocks1, Function.update_idem, ← hfree1, Function.update_eq_self]
    have hdoom1 : ∀ n ∈ doomed, ∃ i ∈ held, (s1.inode i).inum = n := fun n hn => by
      obtain ⟨i, hi, hnum⟩ := hdoom n hn
      exact ⟨i, hi, (hs1.kept.slot i (.inr (List.mem_cons_of_mem _ hi))).1.trans hnum⟩
    have hdir_iff : (s.graph (s.inode ip).inum).kind = (s1.inode ip).type := by
      rw [← hs1.graph, ← hnum1, hkind]
    have hleave : wp (iunlockput sb ip) (fun _ s2 =>
        Reaches sb hold held s s2 held doomed s.graph ∧ s2.locks = s.locks) E s1 := by
      refine wp_post (iunlockput_total hs1.ok (List.Perm.refl _) hdoom1 hlocked) ?_
      rintro _ s2 ⟨hs2, hlocks2⟩
      exact ⟨hs1.same hs2 (List.subset_cons_self ip held), hlocks2.trans hunlock⟩
    simp only [getInode, wp_bind, wp_get, wp_pure, wp_ite]
    refine ⟨fun hnot => ?_, fun hdir => ⟨fun hlast => ?_, fun hmore => ?_⟩⟩
    · refine wp_post hleave ?_
      rintro _ s2 ⟨hs2, hlocks2⟩
      rw [← hdir_iff] at hnot
      refine ⟨hlocks2, .inl ⟨rfl, hs2, ?_⟩⟩
      split_ifs
      · exact Graph.walkParent_eq_none (.inl hnot)
      · exact Graph.walk_eq_none (Graph.next_eq_none fun hk => absurd hk hnot)
    · obtain ⟨hnp, rfl⟩ := hlast
      refine wp_post (iunlock_total hs1.ok hmem hlocked) ?_
      rintro _ s2 ⟨hs2, hlocks2⟩
      have hs := hs1.same hs2 (List.Subset.refl _)
      have hdir' : (s.graph (s.inode ip).inum).kind = .dir := hdir_iff.trans (not_not.mp hdir)
      refine ⟨hlocks2.trans hunlock, .inr ⟨ip, name, rfl,
        hs.mono (List.subset_cons_self ip held), fun hf => ?_, ?_⟩⟩
      · rw [(hs.kept.slot ip hmem).1, hdir'] at hf
        exact absurd hf (by decide)
      · rw [if_pos hnp, Graph.walkParent, if_pos hdir', (hs.kept.slot ip hmem).1]
    · have hdir1 : (s1.graph (s1.inode ip).inum).kind = .dir := by
        rw [hkind]
        exact not_not.mp hdir
      refine wp_post (dirlookup_total hs1.ok hmem hv1 hdir1 fun hall =>
        herr.slots ⟨ip, fun i hi hz => ?_⟩) ?_
      · have hrefs := hs1.ok.cache.refs i
        rw [List.count_cons_of_ne (Ne.symm hi)] at hrefs
        exact hall i (by omega)
      rintro r s2 (⟨hnone, rfl, rfl⟩ | ⟨k, next, hfind, rfl, hs2, hnum2, hlocks2⟩)
      · simp only [wp_bind, wp_pure]
        refine wp_post hleave ?_
        rintro _ s3 ⟨hs3, hlocks3⟩
        rw [hs1.graph, hnum1] at hnone
        have hnext : s.graph.next (s.inode ip).inum name = none :=
          Graph.next_eq_none fun _ => hnone
        refine ⟨hlocks3, .inl ⟨rfl, hs3, ?_⟩⟩
        split_ifs with hnp
        · exact Graph.walkParent_eq_none (.inr ⟨fun he => hmore ⟨hnp, he⟩, hnext⟩)
        · exact Graph.walk_eq_none hnext
      · simp only [wp_bind]
        have hlocked2 : s2.locks = s1.locks := funext hlocks2
        refine wp_post (iunlockput_total hs2.ok (List.Perm.swap ip next held) (fun n hn => ?_)
          (by rw [hlocked2]; exact hlocked)) ?_
        · obtain ⟨i, hi, hnum⟩ := hdoom1 n hn
          exact ⟨i, List.mem_cons_of_mem _ hi,
            (hs2.kept.slot i (.inr (List.mem_cons_of_mem _ hi))).1.trans hnum⟩
        · rintro _ s3 ⟨hs3, hlocks3⟩
          rw [hlocked2, hunlock] at hlocks3
          have hs : Reaches sb hold held s s3 (next :: held) doomed s.graph :=
            (hs1.same hs2 (List.Subset.refl _)).same (hs3.mono (List.subset_cons_self next held))
              (List.subset_cons_self ip held)
          have hnum3 : (s3.inode next).inum =
              ((s.graph (s.inode ip).inum).ent k).inum := by
            rw [(hs3.kept.slot next (.inr (by simp))).1, hnum2, hs1.graph, hnum1]
          rw [hs1.graph, hnum1] at hfind hdir1
          have hnext := Graph.next_of_find hdir1 hfind
          have hdoom3 : ∀ n ∈ doomed, ∃ i ∈ held, (s3.inode i).inum = n := fun n hn => by
            obtain ⟨i, hi, hnum⟩ := hdoom n hn
            exact ⟨i, hi, (hs.kept.slot i (.inr hi)).1.trans hnum⟩
          have hfree : (s3.graph (s3.inode next).inum).kind = .free → T := fun hf => hT fun hno => by
            rw [hs.graph, hnum3] at hf
            exact hno.named _ hdir1 k (Node.find_some hfind).1 hf
          refine wp_post (ih hs.ok hdoom3 (by rwa [hs.graph]) hfree (by rwa [hlocks3])) ?_
          intro r s4 hfound
          refine hfound.trans hs (List.Subset.refl _) hlocks3 ?_ fun hnp => ?_
          · rw [Graph.walk, hnext, hnum3]
            rfl
          · have hrest : elems ≠ [] := fun he => hmore ⟨hnp, he⟩
            rw [Graph.walkParent_cons hrest, hnext, hnum3]
            rfl

/-- The inode where `namex` starts. -/
def startNum (s : Fs) (me : Fin NPROC) (path : List UInt8) : Nat :=
  if path.head? = some SLASH then ROOTINO
  else match (s.kernel.proc me).cwd with
    | some cwd => (s.inode cwd).inum
    | none => 0

def resolve (s : Fs) (me : Fin NPROC) (path : List UInt8) : Option Nat :=
  s.graph.walk (startNum s me path) (pathElems path.length path)

def resolveParent (s : Fs) (me : Fin NPROC) (path : List UInt8) : Option (Nat × Name) :=
  s.graph.walkParent (startNum s me path) (pathElems path.length path)

theorem startNum_of_kept {me : Fin NPROC} {path : List UInt8}
    (h : Kept hold held s s') (hcwd : ∀ c, (s.kernel.proc me).cwd = some c → 0 < hold c) :
    startNum s' me path = startNum s me path := by
  unfold startNum
  rw [h.kernel]
  split_ifs
  · rfl
  · cases hc : (s.kernel.proc me).cwd with
    | none => rfl
    | some c => exact (h.slot c (.inl (hcwd c hc))).1

theorem namex_spec {np : Bool} {me : Fin NPROC} {path : List UInt8}
    (h : FsOk sb s hold held doomed) (hdoom : ∀ n ∈ doomed, ∃ i ∈ held, (s.inode i).inum = n)
    (hT : ¬ NoDangling s.graph → T)
    (hcwd : ∀ c, (s.kernel.proc me).cwd = some c → 0 < hold c)
    (herr : PathErr hold held T s.locks E)
    (htrap : (s.kernel.proc me).cwd = none → E .kerneltrap) :
    wp (namex sb me path np) (fun r s' => Found sb hold held doomed T np (startNum s me path)
      (pathElems path.length path) s r s') E s := by
  have hloop : ∀ {s1 : Fs} {ip : Slot} {start : Nat},
      Reaches sb hold held s s1 (ip :: held) doomed s.graph → s1.locks = s.locks →
      (s1.inode ip).inum = start → ((s.graph start).kind = .free → T) →
      wp (namexLoop sb np ip (pathElems path.length path)) (fun r s' => Found sb hold held doomed
        T np start (pathElems path.length path) s r s') E s1 := by
    rintro s1 ip start hs hlocks rfl hfree
    refine wp_post (namexLoop_spec hs.ok (fun n hn => ?_) (by rwa [hs.graph])
      (by rwa [hs.graph]) (by rwa [hlocks])) ?_
    · obtain ⟨i, hi, hnum⟩ := hdoom n hn
      exact ⟨i, hi, (hs.kept.slot i (.inr hi)).1.trans hnum⟩
    · exact fun r s2 hf => hf.trans hs (List.Subset.refl _) hlocks rfl fun _ => rfl
  simp only [namex, wp_bind, wp_get, wp_ite]
  refine ⟨fun hroot => ?_, fun hrel => ?_⟩
  · refine wp_post (iget_total ROOTINO h fun hall => herr.slots ⟨0, fun i _ hz => ?_⟩) ?_
    · have hrefs := h.cache.refs i
      exact hall i (by omega)
    · rintro ip s1 ⟨hs1, hnum, hlocks⟩
      rw [startNum, if_pos hroot]
      exact hloop hs1 (funext hlocks) hnum fun hf => hT fun hno => hno.root hf
  · rw [startNum, if_neg hrel]
    cases hc : (s.kernel.proc me).cwd with
    | none => exact htrap hc
    | some cwd =>
      have hpos := hcwd cwd hc
      refine wp_seq (idup_total h hpos) ?_
      rintro ip s1 ⟨rfl, hs1, hnum, hlocks⟩
      refine hloop hs1 hlocks hnum fun hf => ?_
      rw [Fs.graph, graphOf_kind] at hf
      exact absurd hf (h.cache.alloc ip hpos)

theorem namei_spec {me : Fin NPROC} {path : List UInt8} (h : FsOk sb s hold held doomed)
    (hdoom : ∀ n ∈ doomed, ∃ i ∈ held, (s.inode i).inum = n) (hT : ¬ NoDangling s.graph → T)
    (hcwd : ∀ c, (s.kernel.proc me).cwd = some c → 0 < hold c) :
    wp (namei sb me path) (fun r s' =>
      (r = none ∧ Reaches sb hold held s s' held doomed s.graph) ∨
      ∃ ip, r = some ip ∧ Reaches sb hold held s s' (ip :: held) doomed s.graph ∧
        ((s.graph (s'.inode ip).inum).kind = .free → T) ∧
        resolve s me path = some (s'.inode ip).inum) (Err T) s := by
  simp only [namei, wp_bind, wp_pure]
  refine wp_post (namex_spec h hdoom hT hcwd (pathErr_err _) fun _ => by simp [Err]) ?_
  rintro r s' ⟨-, ⟨rfl, hs, -⟩ | ⟨ip, name, rfl, hs, hfree, hwalk⟩⟩
  · exact .inl ⟨rfl, hs⟩
  · exact .inr ⟨ip, rfl, hs, hfree, hwalk⟩

theorem nameiparent_spec {me : Fin NPROC} {path : List UInt8} (h : FsOk sb s hold held doomed)
    (hdoom : ∀ n ∈ doomed, ∃ i ∈ held, (s.inode i).inum = n) (hT : ¬ NoDangling s.graph → T)
    (hcwd : ∀ c, (s.kernel.proc me).cwd = some c → 0 < hold c) :
    wp (nameiparent sb me path) (fun r s' =>
      (r = none ∧ Reaches sb hold held s s' held doomed s.graph) ∨
      ∃ dp name, r = some (dp, name) ∧ Reaches sb hold held s s' (dp :: held) doomed s.graph ∧
        resolveParent s me path = some ((s'.inode dp).inum, name)) (Err T) s := by
  refine wp_post (namex_spec h hdoom hT hcwd (pathErr_err _) fun _ => by simp [Err]) ?_
  rintro r s' ⟨-, ⟨rfl, hs, -⟩ | ⟨dp, name, rfl, hs, -, hwalk⟩⟩
  · exact .inl ⟨rfl, hs⟩
  · exact .inr ⟨dp, name, rfl, hs, hwalk⟩

theorem skipelem_sub {path rest : List UInt8} {name : Name} (h : skipelem path = some (name, rest)) :
    name.length ≤ DIRSIZ ∧ name ⊆ path ∧ rest ⊆ path := by
  rw [skipelem] at h
  split_ifs at h
  obtain ⟨rfl, rfl⟩ := Prod.mk.inj (Option.some.inj h)
  have hdrop := (List.dropWhile_sublist (· = SLASH) (l := path)).subset
  refine ⟨List.length_take_le _ _, fun x hx => ?_, fun x hx => ?_⟩
  · exact hdrop ((List.takeWhile_sublist _).subset (List.mem_of_mem_take hx))
  · exact hdrop ((List.dropWhile_sublist _).subset ((List.dropWhile_sublist _).subset hx))

theorem pathElems_sub {fuel : Nat} {path : List UInt8} {name : Name}
    (h : name ∈ pathElems fuel path) : name.length ≤ DIRSIZ ∧ name ⊆ path := by
  induction fuel generalizing path with
  | zero => simp [pathElems] at h
  | succ fuel ih =>
    rw [pathElems] at h
    cases hs : skipelem path with
    | none => simp [hs] at h
    | some p =>
      obtain ⟨e, rest⟩ := p
      obtain ⟨hlen, hsub, hrest⟩ := skipelem_sub hs
      rw [hs] at h
      rcases List.mem_cons.mp h with rfl | hm
      · exact ⟨hlen, hsub⟩
      · obtain ⟨h1, h2⟩ := ih hm
        exact ⟨h1, fun x hx => hrest (h2 hx)⟩

theorem argstr_no_zero {p : Option (List UInt8)} {path : List UInt8} (h : argstr p = some path) :
    0 ∉ path := by
  cases p with
  | none => simp [argstr] at h
  | some b =>
    rw [argstr] at h
    split_ifs at h
    intro hz
    rw [← Option.some.inj h] at hz
    simpa using List.mem_takeWhile_imp hz

theorem fits_of_resolveParent {me : Fin NPROC} {p : Option (List UInt8)} {path : List UInt8}
    {d inum : Nat} {name : Name} (hp : argstr p = some path)
    (h : resolveParent s me path = some (d, name)) (hinum : inum < 2 ^ 16) :
    Dirent.Fits { inum := inum, name := name } := by
  obtain ⟨hlen, hsub⟩ := pathElems_sub (Graph.walkParent_kind h).2
  exact ⟨hinum, hlen, fun hz => argstr_no_zero hp (hsub hz)⟩

end OsProject
