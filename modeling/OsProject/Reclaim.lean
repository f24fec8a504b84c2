import OsProject.FileContent

/-! `ireclaim` deletes the inodes that a crash has left without links. -/

namespace OsProject

variable {sb : Superblock} {s s' : Fs} {E : Panic → Prop}

def Dinode.Orphan (d : Dinode) : Prop := d.type ≠ .free ∧ d.nlink = 0

instance (d : Dinode) : Decidable d.Orphan := inferInstanceAs (Decidable (_ ∧ _))

/-- The body of the loop of `ireclaim`. -/
def reclaimInode (sb : Superblock) (inum : Nat) : FsM Unit := do
  let s ← get
  if (s.dinode inum).Orphan then
    let ip ← iget inum
    beginOp
    ilock ip
    iunlock ip
    iput sb ip
    endOp
  else return ()

/-- The inode numbers that `ireclaim` visits. -/
def inums (sb : Superblock) : List Nat := (List.range sb.ninodes).drop 1

def ireclaim (sb : Superblock) : FsM Unit := forM (inums sb) (reclaimInode sb)

def Fs.Idle (s : Fs) : Prop := ∀ i, (s.inode i).ref = 0 ∧ (s.inode i).locked = false

theorem iget_idle (h : s.Idle) (n : Nat) : wp (iget n) (fun ip s' =>
    s' = s.setInode ip { s.inode ip with inum := n, ref := 1, valid := false }) E s := by
  have hnone : (List.finRange NINODE).find? (fun ip =>
      0 < (s.inode ip).ref ∧ (s.inode ip).inum = n) = none := by
    refine List.find?_eq_none.mpr fun i _ => ?_
    simp [(h i).1]
  simp only [iget, wp_bind, wp_get, hnone]
  cases hf : (List.finRange NINODE).find? fun ip => (s.inode ip).ref = 0 with
  | none => simpa [(h 0).1] using List.find?_eq_none.mp hf 0 (List.mem_finRange _)
  | some ip =>
    simp only [modInode, wp_bind, wp_modify, wp_pure]

structure Reclaimed (sb : Superblock) (n : Nat) (s s' : Fs) : Prop where
  owned : VolOwned sb s'.dinode s'.bitmap s'.data ∅
  idle : s'.Idle
  data : s'.data = s.data
  file : s'.file = s.file
  kernel : s'.kernel = s.kernel
  dinode : ∃ d : Dinode, d.type = .free ∧ s'.dinode = Function.update s.dinode n d

def Fs.loaded (s : Fs) (ip : Slot) (n : Nat) : Fs :=
  s.setInode ip { toDinode := s.dinode n, inum := n, ref := 1, locked := false, valid := true }

theorem Fs.loaded_inode (s : Fs) (ip : Slot) (n : Nat) : (s.loaded ip n).inode ip =
    { toDinode := s.dinode n, inum := n, ref := 1, locked := false, valid := true } :=
  Function.update_self _ _ _

theorem lock_unlock {ip : Slot} {n : Nat} (hidle : s.Idle) (htype : (s.dinode n).type ≠ .free) :
    wp (do ilock ip; iunlock ip) (fun _ s' => s' = s.loaded ip n) E
      (s.setInode ip { s.inode ip with inum := n, ref := 1, valid := false }) := by
  simp only [ilock, iunlock, getInode, modInode, wp_bind, wp_get, wp_pure, wp_ite, wp_throw,
    wp_modify, Fs.setInode, Function.update_self, Function.update_idem, (hidle ip).2]
  refine ⟨fun hbad => absurd hbad (by decide), fun _ => ⟨fun hbad => absurd hbad (by decide),
    fun _ => ⟨fun hbad => absurd hbad (by decide), fun _ => ⟨fun hfree => absurd hfree htype,
      fun _ => ⟨?_, fun _ => rfl⟩⟩⟩⟩⟩
  rintro (hbad | hbad)
  · cases hbad
  · omega

theorem reclaimInode_orphan {n : Nat} (howned : VolOwned sb s.dinode s.bitmap s.data ∅)
    (hidle : s.Idle) (horphan : (s.dinode n).Orphan) :
    wp (reclaimInode sb n) (fun _ s' => Reclaimed sb n s s') E s := by
  simp only [reclaimInode, beginOp, wp_bind, wp_get, wp_ite, wp_pure]
  refine ⟨fun _ => ?_, fun hno => absurd horphan hno⟩
  refine wp_post (iget_idle hidle n) ?_
  rintro ip _ rfl
  have hlock : wp (do ilock ip; iunlock ip) _ E _ := lock_unlock hidle horphan.1
  rw [wp_bind] at hlock
  refine wp_post hlock ?_
  intro _ u hu
  refine wp_post hu ?_
  rintro _ _ rfl
  have hslot := s.loaded_inode ip n
  refine wp_post (iput_delete (by rw [hslot]; rfl) ?_ howned ?_ ?_) ?_
  · rw [hslot]
    exact horphan.1
  · rw [hslot]
    exact ⟨rfl, rfl, horphan.2⟩
  · rw [Fs.locks, hslot]
    intro hlocked
    cases hlocked
  · rintro _ _ ⟨d, t, l, ht, rfl⟩
    have hfreed := ht.owned
    obtain ⟨bm, l', rfl⟩ := ht.state
    rw [hslot] at hfreed ⊢
    simp only [endOp, wp_modify]
    refine ⟨?_, fun i => ?_, rfl, rfl, rfl, { d with type := .free }, rfl, rfl⟩
    · have hplace : place (Function.update s.dinode n { d with type := .free }) s.data =
          place (reAddr s.dinode n d.addrs) s.data := place_trim ht.addrs
      rw [VolOwned]
      exact hplace ▸ hfreed
    · by_cases hi : i = ip
      · simp [hi]
      · simpa [hi, Fs.loaded, Fs.setInode] using hidle i

structure Reclaiming (sb : Superblock) (s0 : Fs) (left : List Nat) (s : Fs) : Prop where
  owned : VolOwned sb s.dinode s.bitmap s.data ∅
  idle : s.Idle
  data : s.data = s0.data
  file : s.file = s0.file
  kernel : s.kernel = s0.kernel
  kept : ∀ n, (n ∈ inums sb → n ∉ left → ¬ (s0.dinode n).Orphan) → s.dinode n = s0.dinode n
  gone : ∀ n ∈ inums sb, n ∉ left → (s0.dinode n).Orphan → (s.dinode n).type = .free

theorem reclaimInode_spec {s0 : Fs} {n : Nat} {left : List Nat} (hn : n ∈ inums sb)
    (hleft : n ∉ left) (h : Reclaiming sb s0 (n :: left) s) :
    wp (reclaimInode sb n) (fun _ s' => Reclaiming sb s0 left s') E s := by
  have hsame : s.dinode n = s0.dinode n := h.kept n fun _ hnot => absurd List.mem_cons_self hnot
  by_cases horphan : (s.dinode n).Orphan
  · refine wp_post (reclaimInode_orphan h.owned h.idle horphan) ?_
    intro _ s' hr
    obtain ⟨d, hfree, hdinode⟩ := hr.dinode
    refine ⟨hr.owned, hr.idle, hr.data.trans h.data, hr.file.trans h.file,
      hr.kernel.trans h.kernel, fun m hm => ?_, fun m hm hnot ho => ?_⟩
    · have hne : m ≠ n := by
        rintro rfl
        exact hm hn hleft (hsame ▸ horphan)
      rw [hdinode, Function.update_of_ne hne]
      exact h.kept m fun hin hnot => hm hin fun hmem => hnot (List.mem_cons_of_mem _ hmem)
    · rw [hdinode]
      by_cases hmn : m = n
      · rw [hmn, Function.update_self]
        exact hfree
      · rw [Function.update_of_ne hmn]
        exact h.gone m hm (by simp [hmn, hnot]) ho
  · simp only [reclaimInode, wp_bind, wp_get, wp_ite, wp_pure]
    refine ⟨fun ho => absurd ho horphan, fun _ => ⟨h.owned, h.idle, h.data, h.file, h.kernel,
      fun m hm => h.kept m fun hin hnot => hm hin fun hmem => hnot (List.mem_cons_of_mem _ hmem),
      fun m hm hnot ho => ?_⟩⟩
    by_cases hmn : m = n
    · rw [hmn, ← hsame] at ho
      exact absurd ho horphan
    · exact h.gone m hm (by simp [hmn, hnot]) ho

theorem ireclaim_spec (howned : VolOwned sb s.dinode s.bitmap s.data ∅) (hidle : s.Idle) :
    wp (ireclaim sb) (fun _ s' => Reclaiming sb s [] s') E s := by
  -- the inodes that are left are visited once each
  let I : List Nat → Fs → Prop := fun l t => l.Nodup ∧ l ⊆ inums sb ∧ Reclaiming sb s l t
  have hstep : ∀ n l t, I (n :: l) t → wp (reclaimInode sb n) (fun _ u => I l u) E t := by
    rintro n l t ⟨hnodup, hsub, hr⟩
    obtain ⟨hnot, hnodup'⟩ := List.nodup_cons.mp hnodup
    refine wp_post (reclaimInode_spec (hsub List.mem_cons_self) hnot hr) ?_
    exact fun _ u hu => ⟨hnodup', fun m hm => hsub (List.mem_cons_of_mem _ hm), hu⟩
  have hinit : I (inums sb) s := by
    refine ⟨List.nodup_range.sublist (List.drop_sublist _ _), List.Subset.refl _, howned, hidle, rfl,
      rfl, rfl, fun _ _ => rfl, fun n hn hnot => absurd hn hnot⟩
  exact wp_post (wp_forM hstep hinit) fun _ _ hI => hI.2.2

theorem ireclaim_clean (h : ∀ n ∈ inums sb, ¬ (s.dinode n).Orphan) :
    ireclaim sb s = .ok ((), s) := by
  have hloop : wp (ireclaim sb) (fun _ s' => (∀ n ∈ ([] : List Nat), ¬ (s'.dinode n).Orphan) ∧
      s' = s) (fun _ => False) s := by
    refine wp_forM (I := fun l t => (∀ n ∈ l, ¬ (t.dinode n).Orphan) ∧ t = s) ?_ ⟨h, rfl⟩
    rintro n l t ⟨hl, rfl⟩
    simp only [reclaimInode, wp_bind, wp_get, wp_ite, wp_pure]
    exact ⟨fun ho => absurd ho (hl n List.mem_cons_self), fun _ =>
      ⟨fun m hm => hl m (List.mem_cons_of_mem _ hm), trivial⟩⟩
  exact eq_ok_of_wp (wp_post hloop fun _ _ hs => ⟨rfl, hs.2⟩)

theorem Reclaiming.not_orphan (h : Reclaiming sb s [] s') {n : Nat} (hn : n ∈ inums sb) :
    ¬ (s'.dinode n).Orphan := by
  intro ho
  by_cases horphan : (s.dinode n).Orphan
  · exact ho.1 (h.gone n hn (by simp) horphan)
  · rw [h.kept n fun _ _ => horphan] at ho
    exact horphan ho

theorem Reclaiming.freed (h : Reclaiming sb s [] s')
    (howned : VolOwned sb s.dinode s.bitmap s.data ∅) {n : Nat} (hn : n ∈ inums sb)
    (horphan : (s.dinode n).Orphan) {p : Nat} (hp : place s.dinode s.data (n, p) ≠ 0) :
    s'.bitmap (place s.dinode s.data (n, p)) = false := by
  obtain ⟨hlo, hhi⟩ := howned.range _ hp
  by_contra hused
  rcases (h.owned.used_iff _ hhi).mp (by simpa using hused) with hlt | ⟨⟨m, q⟩, hx⟩ | hmem
  · omega
  · have htype : (s'.dinode m).type ≠ .free := by
      intro hfree
      rw [← hx] at hp
      exact hp (by simp [place, hfree])
    have hsame : s'.dinode m = s.dinode m := by
      refine h.kept m fun hm _ ho => htype (h.gone m hm (by simp) ho)
    rw [h.data, place_eq_of_nodes hsame] at hx
    have hmn := howned.inj _ _ (hx ▸ hp) hx
    obtain ⟨rfl, -⟩ := Prod.mk.inj hmn
    exact htype (h.gone m hn (by simp) horphan)
  · exact hmem

/-- `ireclaim` on any disk on which each block has one owner, before anything else uses the inode
table. -/
theorem ireclaim_reclaims (howned : VolOwned sb s.dinode s.bitmap s.data ∅) (hidle : s.Idle) :
    ∃ s', ireclaim sb s = .ok ((), s') ∧
      (∀ n ∈ inums sb, ¬ (s'.dinode n).Orphan) ∧
      (∀ n ∈ inums sb, (s.dinode n).Orphan → ∀ p, place s.dinode s.data (n, p) ≠ 0 →
        s'.bitmap (place s.dinode s.data (n, p)) = false) ∧
      (∀ n, (n ∈ inums sb → ¬ (s.dinode n).Orphan) →
        s'.dinode n = s.dinode n ∧ s'.content n = s.content n) ∧
      VolOwned sb s'.dinode s'.bitmap s'.data ∅ ∧ s'.Idle ∧ ireclaim sb s' = .ok ((), s') := by
  obtain ⟨_, s', hrun, h⟩ := exists_ok_of_wp (ireclaim_spec howned hidle)
  have hclean : ∀ n ∈ inums sb, ¬ (s'.dinode n).Orphan := fun n hn => h.not_orphan hn
  refine ⟨s', hrun, hclean, fun n hn ho p hp => h.freed howned hn ho hp, fun n hn => ?_, h.owned,
    h.idle, ireclaim_clean hclean⟩
  have hsame : s'.dinode n = s.dinode n := h.kept n fun hin _ => hn hin
  exact ⟨hsame, Fs.content_congr hsame h.data⟩

def forphanCalls : List (Fin NPROC × FsCall) := noteCalls ++ [(0, .unlink (some [102, 0]))]

def Fs.rebooted (s : Fs) : Fs := { s with inode := fun _ => {}, file := fun _ => {} }

theorem forphan_orphan : Outcome
    (fun s => (s.dinode 2).Orphan ∧ place s.dinode s.data (2, 0) ≠ 0 ∧ (s.dinode 1).nlink = 1)
      (fun _ => False) (forphanCalls.foldl (fsStep smallSb) (.ok smallFs)) := by
  decide +kernel

theorem ireclaim_forphan : ∃ s s' : Fs, (s.dinode 2).Orphan ∧
    ireclaim smallSb s.rebooted = .ok ((), s') ∧ ¬ (s'.dinode 2).Orphan ∧
    s'.bitmap (place s.dinode s.data (2, 0)) = false ∧ s'.content 1 = s.content 1 ∧
    ireclaim smallSb s' = .ok ((), s') := by
  obtain ⟨s, -, hsys, horphan, hplace, hlink⟩ := exists_of_run sys_smallFs forphan_orphan
  have hidle : s.rebooted.Idle := fun _ => ⟨rfl, rfl⟩
  obtain ⟨s', hrun, hclean, hfreed, hkept, -, -, hagain⟩ :=
    ireclaim_reclaims (s := s.rebooted) hsys.ok.vol.owned hidle
  have htwo : 2 ∈ inums smallSb := by decide
  refine ⟨s, s', horphan, hrun, hclean 2 htwo, hfreed 2 htwo horphan 0 hplace, ?_, hagain⟩
  exact (hkept 1 fun _ ho => absurd ho.2 (by rw [Fs.rebooted, hlink]; decide)).2

end OsProject
