import OsProject.FileCalls
import OsProject.Graph
import OsProject.TruncSpec

/-! What the functions on the inode table do: `iget`, `idup`, `ilock`, `iunlock`, `ialloc`,
`iupdate` and `iput`. -/

namespace OsProject

variable {sb : Superblock} {s s' s'' : Fs} {hold : Slot → Nat} {held held' keep keep' : List Slot}
  {doomed doomed' : List Nat} {ip : Slot} {T : Prop} {g g' : Graph} {E : Panic → Prop}

structure Kept (hold : Slot → Nat) (keep : List Slot) (s s' : Fs) : Prop where
  file : s'.file = s.file
  kernel : s'.kernel = s.kernel
  slot : ∀ i, 0 < hold i ∨ i ∈ keep → (s'.inode i).inum = (s.inode i).inum ∧
    ((s.inode i).valid = true → (s'.inode i).valid = true)
  kind : ∀ i, 0 < hold i →
    (s'.graph (s.inode i).inum).kind = (s.graph (s.inode i).inum).kind

theorem Kept.refl : Kept hold keep s s where
  file := rfl
  kernel := rfl
  slot _ _ := ⟨rfl, id⟩
  kind _ _ := rfl

theorem Kept.trans (h : Kept hold keep s s') (h' : Kept hold keep' s' s'') (hsub : keep' ⊆ keep) :
    Kept hold keep' s s'' where
  file := h'.file.trans h.file
  kernel := h'.kernel.trans h.kernel
  slot i hi := by
    have h1 := h.slot i (hi.imp_right fun hm => hsub hm)
    have h2 := h'.slot i hi
    exact ⟨h2.1.trans h1.1, fun hv => h2.2 (h1.2 hv)⟩
  kind i hi := by
    have h1 := h'.kind i hi
    rw [(h.slot i (.inl hi)).1] at h1
    exact h1.trans (h.kind i hi)

/-- A stretch of a call that ends in `s'` with the references `held`, the inodes `doomed` to
delete and the name space `g`. -/
structure Reaches (sb : Superblock) (hold : Slot → Nat) (keep : List Slot) (s s' : Fs)
    (held : List Slot) (doomed : List Nat) (g : Graph) : Prop where
  ok : FsOk sb s' hold held doomed
  kept : Kept hold keep s s'
  graph : s'.graph = g

theorem Reaches.refl (h : FsOk sb s hold held doomed) :
    Reaches sb hold keep s s held doomed s.graph :=
  ⟨h, .refl, rfl⟩

theorem Reaches.trans (h : Reaches sb hold keep s s' held doomed g)
    (h' : Reaches sb hold keep' s' s'' held' doomed' g') (hsub : keep' ⊆ keep) :
    Reaches sb hold keep' s s'' held' doomed' g' :=
  ⟨h'.ok, h.kept.trans h'.kept hsub, h'.graph⟩

theorem Reaches.mono (h : Reaches sb hold keep s s' held doomed g) (hsub : keep' ⊆ keep) :
    Reaches sb hold keep' s s' held doomed g :=
  ⟨h.ok, h.kept.trans .refl hsub, h.graph⟩

theorem Reaches.logged (h : Reaches sb hold keep s s' held doomed g) (l : List Nat) :
    Reaches sb hold keep s { s' with logged := l } held doomed g :=
  ⟨h.ok.logged l, ⟨h.kept.file, h.kept.kernel, h.kept.slot, h.kept.kind⟩, h.graph⟩

theorem Reaches.same (h : Reaches sb hold keep s s' held doomed s.graph)
    (h' : Reaches sb hold keep' s' s'' held' doomed' s'.graph) (hsub : keep' ⊆ keep) :
    Reaches sb hold keep' s s'' held' doomed' s.graph := by
  rw [h.graph] at h'
  exact h.trans h' hsub

theorem FsInv.ref_pos (h : FsOk sb s hold held doomed) (hi : 0 < hold ip ∨ ip ∈ held) :
    0 < (s.inode ip).ref :=
  hi.elim h.cache.ref_pos_of_hold h.cache.ref_pos_of_mem

theorem reaches_setSlot (h : FsOk sb s hold held doomed) {x : Inode}
    (hinum : 0 < x.ref → ∀ j, j ≠ ip → 0 < (s.inode j).ref → (s.inode j).inum ≠ x.inum)
    (hco : 0 < x.ref → x.valid = true → x.toDinode = s.dinode x.inum ∧ x.type ≠ .free)
    (href : x.ref = hold ip + held'.count ip)
    (hcount : ∀ j, j ≠ ip → held'.count j = held.count j)
    (hkeep : 0 < hold ip ∨ ip ∈ keep →
      x.inum = (s.inode ip).inum ∧ ((s.inode ip).valid = true → x.valid = true)) :
    Reaches sb hold keep s (s.setInode ip x) held' doomed s.graph := by
  refine ⟨⟨h.cache.setSlot hinum hco href hcount fun hpos => hkeep (.inl hpos), h.vol⟩,
    ⟨rfl, rfl, fun i hi => ?_, fun _ _ => rfl⟩, rfl⟩
  by_cases he : i = ip
  · subst he
    simpa [Fs.setInode] using hkeep hi
  · simp [Fs.setInode, he]

theorem reaches_sameSlot (h : FsOk sb s hold held doomed) {x : Inode} (hr : 0 < (s.inode ip).ref)
    (hd : x.toDinode = (s.inode ip).toDinode) (hi : x.inum = (s.inode ip).inum)
    (hv : x.valid = (s.inode ip).valid) (href : x.ref = hold ip + held'.count ip)
    (hcount : ∀ j, j ≠ ip → held'.count j = held.count j) :
    Reaches sb hold keep s (s.setInode ip x) held' doomed s.graph := by
  refine reaches_setSlot h (fun _ j hj hrj he => ?_) (fun _ hvx => ?_) href hcount
    fun _ => ⟨hi, fun hvs => hv.trans hvs⟩
  · exact hj (h.cache.unique j ip hrj hr (he.trans hi))
  · rw [hd, hi]
    have hco := h.cache.coherent ip hr (hv ▸ hvx)
    exact ⟨hco.1, hd ▸ hco.2⟩

theorem iget_total (n : Nat) (h : FsOk sb s hold held doomed)
    (hE : (∀ i, (s.inode i).ref ≠ 0) → E .igetNoInodes) :
    wp (iget n) (fun ip s' => Reaches sb hold held s s' (ip :: held) doomed s.graph ∧
      (s'.inode ip).inum = n ∧ ∀ i, (s'.inode i).locked = (s.inode i).locked) E s := by
  simp only [iget, wp_bind, wp_get]
  cases hf : (List.finRange NINODE).find? fun ip =>
      0 < (s.inode ip).ref ∧ (s.inode ip).inum = n with
  | some ip =>
    have hip : 0 < (s.inode ip).ref ∧ (s.inode ip).inum = n := by simpa using List.find?_some hf
    have hrefs := h.cache.refs ip
    simp only [wp_bind, modInode, wp_modify, wp_pure]
    refine ⟨reaches_sameSlot h hip.1 rfl rfl rfl ?_ ?_, ?_, ?_⟩
    · simp only [List.count_cons_self]
      omega
    · exact fun j hj => List.count_cons_of_ne (Ne.symm hj)
    · simpa [Fs.setInode] using hip.2
    · intro i
      by_cases he : i = ip <;> simp [Fs.setInode, he]
  | none =>
    have hnone : ∀ j, 0 < (s.inode j).ref → (s.inode j).inum ≠ n := fun j hj => by
      simpa [hj] using List.find?_eq_none.mp hf j (List.mem_finRange j)
    cases hf' : (List.finRange NINODE).find? fun ip => (s.inode ip).ref = 0 with
    | none =>
      refine hE fun i => ?_
      simpa using List.find?_eq_none.mp hf' i (List.mem_finRange i)
    | some ip =>
      have hzero : (s.inode ip).ref = 0 := by simpa using List.find?_some hf'
      have hrefs := h.cache.refs ip
      have hhold : hold ip = 0 := by omega
      have hcount : held.count ip = 0 := by omega
      simp only [wp_bind, modInode, wp_modify, wp_pure]
      refine ⟨reaches_setSlot h ?_ ?_ ?_ ?_ ?_, ?_, ?_⟩
      · exact fun _ j _ hj => hnone j hj
      · simp
      · simp [hhold, hcount]
      · exact fun j hj => List.count_cons_of_ne (Ne.symm hj)
      · rintro (hpos | hmem)
        · omega
        · exact absurd hmem (List.count_eq_zero.mp hcount)
      · simp [Fs.setInode]
      · intro i
        by_cases he : i = ip <;> simp [Fs.setInode, he]

theorem iget_spec (n : Nat) (h : FsOk sb s hold held doomed) :
    wp (iget n) (fun ip s' => Reaches sb hold held s s' (ip :: held) doomed s.graph ∧
      (s'.inode ip).inum = n ∧ ∀ i, (s'.inode i).locked = (s.inode i).locked) (Err T) s :=
  iget_total n h fun _ => by simp [Err]

def Fs.locks (s : Fs) (i : Slot) : Bool := (s.inode i).locked

theorem Fs.locks_setInode (s : Fs) (ip : Slot) (x : Inode) :
    (s.setInode ip x).locks = Function.update s.locks ip x.locked := by
  funext i
  by_cases he : i = ip
  · simp [Fs.locks, Fs.setInode, he]
  · simp [Fs.locks, Fs.setInode, he]

theorem idup_total (h : FsOk sb s hold held doomed) (hi : 0 < hold ip) :
    wp (idup ip) (fun r s' => r = ip ∧ Reaches sb hold held s s' (ip :: held) doomed s.graph ∧
      (s'.inode ip).inum = (s.inode ip).inum ∧ s'.locks = s.locks) E s := by
  have hrefs := h.cache.refs ip
  simp only [idup, modInode, wp_bind, wp_modify, wp_pure]
  refine ⟨trivial, reaches_sameSlot h (h.cache.ref_pos_of_hold hi) rfl rfl rfl ?_ ?_, ?_, ?_⟩
  · simp only [List.count_cons_self]
    omega
  · exact fun j hj => List.count_cons_of_ne (Ne.symm hj)
  · simp [Fs.setInode]
  · rw [s.locks_setInode]
    exact Function.update_eq_self ip s.locks

theorem idup_spec (h : FsOk sb s hold held doomed) (hi : 0 < hold ip) :
    wp (idup ip) (fun r s' => r = ip ∧ Reaches sb hold held s s' (ip :: held) doomed s.graph ∧
      (s'.inode ip).inum = (s.inode ip).inum) (Err T) s :=
  wp_post (idup_total h hi) fun _ _ hs => ⟨hs.1, hs.2.1, hs.2.2.1⟩

section Locks

variable (h : FsOk sb s hold held doomed) (hi : 0 < hold ip ∨ ip ∈ held)
include h hi

theorem ilock_total (hstuck : s.locks ip = true → E .stuck)
    (htype : (s.graph (s.inode ip).inum).kind = .free → E .ilockNoType) :
    wp (ilock ip) (fun _ s' => Reaches sb hold held s s' held doomed s.graph ∧
      (s'.inode ip).valid = true ∧ s.locks ip = false ∧
      s'.locks = Function.update s.locks ip true) E s := by
  have hr := h.ref_pos hi
  have hrefs := h.cache.refs ip
  simp only [ilock, getInode, modInode, wp_bind, wp_get, wp_pure, wp_ite, wp_throw, wp_modify]
  refine ⟨fun hlt => by omega, fun _ => ⟨hstuck, fun hl => ⟨fun hv => ?_,
    fun hv => ⟨fun hfree => htype (by simpa [Fs.graph] using hfree), fun hne => ?_⟩⟩⟩⟩
  · refine ⟨reaches_sameSlot h hr rfl rfl rfl hrefs fun _ _ => rfl, ?_, by simpa [Fs.locks] using hl,
      s.locks_setInode ip _⟩
    simpa [Fs.setInode] using hv
  · refine ⟨reaches_setSlot h ?_ ?_ hrefs (fun _ _ => rfl) fun _ => ⟨rfl, fun _ => rfl⟩, ?_,
      by simpa [Fs.locks] using hl, s.locks_setInode ip _⟩
    · exact fun _ j hj hrj he => hj (h.cache.unique j ip hrj hr he)
    · exact fun _ _ => ⟨rfl, hne⟩
    · simp [Fs.setInode]

theorem ilock_spec (hT : (s.graph (s.inode ip).inum).kind = .free → T) :
    wp (ilock ip) (fun _ s' => Reaches sb hold held s s' held doomed s.graph ∧
      (s'.inode ip).valid = true ∧ (s.inode ip).locked = false ∧ (s'.inode ip).locked = true)
      (Err T) s := by
  refine wp_post (ilock_total h hi (fun _ => by simp [Err]) fun hfree => ⟨by simp, fun _ =>
    hT hfree⟩) ?_
  rintro _ s' ⟨hs, hv, hl, hlocks⟩
  have hlocked : s'.locks ip = true := by rw [hlocks, Function.update_self]
  exact ⟨hs, hv, hl, hlocked⟩

theorem iunlock_total (hl : s.locks ip = true) :
    wp (iunlock ip) (fun _ s' => Reaches sb hold held s s' held doomed s.graph ∧
      s'.locks = Function.update s.locks ip false) E s := by
  have hr := h.ref_pos hi
  have hrefs := h.cache.refs ip
  simp only [iunlock, getInode, modInode, wp_bind, wp_get, wp_pure, wp_ite, wp_throw, wp_modify]
  refine ⟨?_, fun _ => ⟨reaches_sameSlot h hr rfl rfl rfl hrefs fun _ _ => rfl,
    s.locks_setInode ip _⟩⟩
  rintro (hfree | hlt)
  · rw [Fs.locks, hfree] at hl
    cases hl
  · omega

theorem iunlock_spec :
    wp (iunlock ip) (fun _ s' => Reaches sb hold held s s' held doomed s.graph) (Err T) s := by
  have hrefs := h.cache.refs ip
  simp only [iunlock, getInode, modInode, wp_bind, wp_get, wp_pure, wp_ite, wp_throw, wp_modify]
  exact ⟨fun _ => by simp [Err], fun _ =>
    reaches_sameSlot h (h.ref_pos hi) rfl rfl rfl hrefs fun _ _ => rfl⟩

theorem FsInv.slot_node (hv : (s.inode ip).valid = true) : (s.graph (s.inode ip).inum).kind = (s.inode ip).type ∧
      (s.graph (s.inode ip).inum).nlink = (s.inode ip).nlink ∧ (s.inode ip).type ≠ .free := by
  obtain ⟨hco, hty⟩ := h.cache.coherent ip (h.ref_pos hi) hv
  have hn : (s.dinode (s.inode ip).inum).type ≠ .free := hco ▸ hty
  refine ⟨?_, ?_, hty⟩
  · rw [Fs.graph, graphOf_kind, ← hco]
  · rw [Fs.graph, graphOf_nlink hn, ← hco]

end Locks

theorem Truncated.delete {d : Dinode} (ht : Truncated sb ip s d s')
    (h : FsOk sb s hold held doomed) (hr : 0 < (s.inode ip).ref)
    (hv : (s.inode ip).valid = true) (hhold : hold ip = 0)
    (hcount : held'.count ip = 0) (hothers : ∀ j, j ≠ ip → held'.count j = held.count j)
    (x : Inode) (hx : x.ref = 0) (l : List Nat) :
    Reaches sb hold held' s { s' with
      inode := Function.update s.inode ip x
      dinode := Function.update s.dinode (s.inode ip).inum { d with type := .free }
      logged := l } held' doomed (s.graph.drop (s.inode ip).inum) := by
  have howned := ht.owned
  have hlink := ht.short_nlink h hr hv
  obtain ⟨a, hd⟩ := ht.inode
  obtain ⟨bm, l', rfl⟩ := ht.state
  have hother : ∀ i, i ≠ ip → 0 < (s.inode i).ref → (s.inode i).inum ≠ (s.inode ip).inum :=
    fun i hi hri he => hi (h.cache.unique i ip hri hr he)
  have hne : ∀ i, 0 < hold i → i ≠ ip := by
    rintro i hpos rfl
    omega
  have hslot : CacheInv (Function.update s.inode ip x) s.dinode hold held' doomed :=
    h.cache.setSlot (fun hpos => by omega) (fun hpos => by omega) (by omega) hothers
      fun hpos => by omega
  have hcache := hslot.setNode (n := (s.inode ip).inum) (d := { d with type := .free })
    (fun i hri hv => by
      have hi : i ≠ ip := by
        rintro rfl
        rw [Function.update_self] at hri
        omega
      rw [Function.update_of_ne hi] at hri ⊢
      exact hother i hi hri)
    (fun i hpos => by
      rw [Function.update_of_ne (hne i hpos)]
      exact hother i (hne i hpos) (h.cache.ref_pos_of_hold hpos))
    (fun hf => absurd rfl hf) (fun _ hm => hm)
  have hvol := h.vol.trim (n := (s.inode ip).inum) (d := { d with type := .free }) ht.addrs
    (by rw [hd]) (fun hf => absurd rfl hf) hlink howned
  have hgraph : graphOf (Function.update s.dinode (s.inode ip).inum { d with type := .free })
      s.data = s.graph.drop (s.inode ip).inum := by
    rw [graphOf_update, graphOf_free (by simp)]
    rfl
  refine ⟨⟨hcache, hvol⟩, ⟨rfl, rfl, fun i hi => ?_, fun i hpos => ?_⟩, hgraph⟩
  · have hi' : i ≠ ip := by
      rintro rfl
      rcases hi with hpos | hmem
      · omega
      · exact List.count_eq_zero.mp hcount hmem
    simp [hi']
  · have hnum := hother i (hne i hpos) (h.cache.ref_pos_of_hold hpos)
    simp only [Fs.graph] at hgraph ⊢
    rw [hgraph, Graph.drop, Function.update_of_ne hnum]

theorem count_of_perm (hp : held.Perm (ip :: held')) :
    held.count ip = held'.count ip + 1 ∧ ∀ j, j ≠ ip → held'.count j = held.count j := by
  refine ⟨by rw [hp.count_eq, List.count_cons_self], fun j hj => ?_⟩
  rw [hp.count_eq, List.count_cons_of_ne (Ne.symm hj)]

theorem iput_idle (h : FsOk sb s hold held doomed) (hp : held.Perm (ip :: held'))
    (hstay : ¬ ((s.inode ip).ref = 1 ∧ (s.inode ip).valid = true ∧ (s.inode ip).nlink = 0)) :
    wp (iput sb ip) (fun _ s' => Reaches sb hold held' s s' held' doomed s.graph ∧
      s'.locks = s.locks) E s := by
  have hr := h.cache.ref_pos_of_mem (hp.mem_iff.mpr (List.mem_cons_self (a := ip)))
  have hrefs := h.cache.refs ip
  obtain ⟨hself, hothers⟩ := count_of_perm hp
  simp only [iput, getInode, modInode, wp_bind, wp_get, wp_pure, wp_ite, wp_modify]
  refine ⟨fun hc => absurd hc hstay, fun _ => ⟨reaches_sameSlot h hr rfl rfl rfl ?_ hothers, ?_⟩⟩
  · simp only
    omega
  · rw [s.locks_setInode]
    exact Function.update_eq_self ip s.locks

theorem iput_delete (hco : (s.inode ip).toDinode = s.dinode (s.inode ip).inum)
    (hn : (s.dinode (s.inode ip).inum).type ≠ .free)
    (howned : VolOwned sb s.dinode s.bitmap s.data ∅)
    (hlast : (s.inode ip).ref = 1 ∧ (s.inode ip).valid = true ∧ (s.inode ip).nlink = 0)
    (hstuck : s.locks ip = true → E .stuck) :
    wp (iput sb ip) (fun _ s' => ∃ d t l, Truncated sb ip s d t ∧ s' = { t with
      inode := Function.update s.inode ip { s.inode ip with
        toDinode := { d with type := .free }, valid := false, ref := 0 }
      dinode := Function.update s.dinode (s.inode ip).inum { d with type := .free }
      logged := l }) E s := by
  simp only [iput, ifree, getInode, wp_bind, wp_get, wp_pure, wp_ite, wp_throw]
  refine ⟨fun _ => ⟨hstuck, fun _ => ?_⟩, fun hno => absurd hlast hno⟩
  refine wp_post (itrunc_owned hco hn howned) ?_
  rintro _ t ⟨d, ht⟩
  have hstate := ht.state
  obtain ⟨bm, l, rfl⟩ := hstate
  simp only [modInode, iupdate, getInode, setDinode, logBlock, wp_bind, wp_get, wp_pure, wp_modify,
    Fs.setInode, Function.update_self, Function.update_idem, hlast.1]
  exact ⟨d, _, _, ht, rfl⟩

theorem iput_spec (h : FsOk sb s hold held doomed) (hp : held.Perm (ip :: held')) :
    wp (iput sb ip) (fun _ s' => Reaches sb hold held' s s' held' doomed
      (if hold ip = 0 ∧ ip ∉ held' ∧ (s.inode ip).valid = true ∧
          (s.graph (s.inode ip).inum).nlink = 0
        then s.graph.drop (s.inode ip).inum else s.graph)) (Err T) s := by
  have hmem : ip ∈ held := hp.mem_iff.mpr (by simp)
  have hr := h.cache.ref_pos_of_mem hmem
  have hrefs := h.cache.refs ip
  obtain ⟨hself, hothers⟩ := count_of_perm hp
  have hcond : ((s.inode ip).ref = 1 ∧ (s.inode ip).valid = true ∧ (s.inode ip).nlink = 0) ↔
      (hold ip = 0 ∧ ip ∉ held' ∧ (s.inode ip).valid = true ∧
        (s.graph (s.inode ip).inum).nlink = 0) := by
    rw [← List.count_eq_zero]
    constructor
    · rintro ⟨h1, hv, hz⟩
      rw [(h.slot_node (.inr hmem) hv).2.1]
      exact ⟨by omega, by omega, hv, hz⟩
    · rintro ⟨h1, h2, hv, hz⟩
      rw [(h.slot_node (.inr hmem) hv).2.1] at hz
      exact ⟨by omega, hv, hz⟩
  by_cases hc : (s.inode ip).ref = 1 ∧ (s.inode ip).valid = true ∧ (s.inode ip).nlink = 0
  · have hc' := hcond.mp hc
    rw [if_pos hc']
    obtain ⟨hco, hty⟩ := h.cache.coherent ip hr hc.2.1
    refine wp_post (iput_delete hco (hco ▸ hty) h.vol.owned hc fun _ => by simp [Err]) ?_
    rintro _ s' ⟨d, t, l, ht, rfl⟩
    exact ht.delete h hr hc.2.1 hc'.1 (List.count_eq_zero.mpr hc'.2.1) hothers _ rfl l
  · rw [if_neg (hcond.not.mp hc)]
    exact wp_post (iput_idle h hp hc) fun _ _ hs => hs.1

section Put

variable (h : FsOk sb s hold held doomed) (hp : held.Perm (ip :: held'))
  (hdoom : ∀ n ∈ doomed, ∃ i ∈ held', (s.inode i).inum = n)
include h hp hdoom

theorem FsInv.stays :
    ¬ ((s.inode ip).ref = 1 ∧ (s.inode ip).valid = true ∧ (s.inode ip).nlink = 0) := by
  have hr := h.cache.ref_pos_of_mem (hp.mem_iff.mpr (List.mem_cons_self (a := ip)))
  have hrefs := h.cache.refs ip
  obtain ⟨hself, -⟩ := count_of_perm hp
  rintro ⟨hone, hv, hz⟩
  obtain ⟨hco, hty⟩ := h.cache.coherent ip hr hv
  rcases h.cache.orphan _ (hco ▸ hty) (hco ▸ hz) with hd | ⟨i, hi, -, hpos⟩
  · obtain ⟨i, hi, hnum⟩ := hdoom _ hd
    have hri : 0 < (s.inode i).ref :=
      h.cache.ref_pos_of_mem (hp.mem_iff.mpr (List.mem_cons_of_mem _ hi))
    have hpos : 0 < held'.count i := List.count_pos_iff.mpr hi
    rw [h.cache.unique i ip hri hr hnum] at hpos
    omega
  · have he := h.cache.unique i ip (h.cache.ref_pos_of_hold hpos) hr hi
    rw [he] at hpos
    omega

theorem iput_total :
    wp (iput sb ip) (fun _ s' => Reaches sb hold held' s s' held' doomed s.graph ∧
      s'.locks = s.locks) E s :=
  iput_idle h hp (h.stays hp hdoom)

theorem iput_keep :
    wp (iput sb ip) (fun _ s' => Reaches sb hold held' s s' held' doomed s.graph) E s :=
  wp_post (iput_total h hp hdoom) fun _ _ hs => hs.1

theorem iunlockput_total (hl : s.locks ip = true) :
    wp (iunlockput sb ip) (fun _ s' => Reaches sb hold held' s s' held' doomed s.graph ∧
      s'.locks = Function.update s.locks ip false) E s := by
  have hmem : ip ∈ held := hp.mem_iff.mpr (by simp)
  have hsub : held' ⊆ held := fun i hi => hp.mem_iff.mpr (List.mem_cons_of_mem _ hi)
  simp only [iunlockput, wp_bind]
  refine wp_post (iunlock_total h (.inr hmem) hl) ?_
  rintro _ s1 ⟨h1, hlocks⟩
  refine wp_post (iput_total h1.ok hp fun n hn => ?_) ?_
  · obtain ⟨i, hi, hnum⟩ := hdoom n hn
    exact ⟨i, hi, (h1.kept.slot i (.inr (hsub hi))).1.trans hnum⟩
  · rintro _ s2 ⟨h2, hlocks2⟩
    rw [h1.graph] at h2
    exact ⟨h1.trans h2 hsub, hlocks2.trans hlocks⟩

theorem iunlockput_keep :
    wp (iunlockput sb ip) (fun _ s' => Reaches sb hold held' s s' held' doomed s.graph)
      (Err T) s := by
  have hmem : ip ∈ held := hp.mem_iff.mpr (by simp)
  have hsub : held' ⊆ held := fun i hi => hp.mem_iff.mpr (List.mem_cons_of_mem _ hi)
  simp only [iunlockput, wp_bind]
  refine wp_post (iunlock_spec h (.inr hmem)) ?_
  intro _ s1 h1
  refine wp_post (iput_keep h1.ok hp fun n hn => ?_) ?_
  · obtain ⟨i, hi, hnum⟩ := hdoom n hn
    exact ⟨i, hi, (h1.kept.slot i (.inr (hsub hi))).1.trans hnum⟩
  · intro _ s2 h2
    rw [h1.graph] at h2
    exact h1.trans h2 hsub

end Put

theorem FsInv.undoom {n : Nat} (h : FsOk sb s hold held (n :: doomed))
    (hn : (s.graph n).kind ≠ .free → (s.graph n).nlink = 0 →
      ∃ i, (s.inode i).inum = n ∧ (s.inode i).valid = true ∧ 0 < hold i) :
    FsOk sb s hold held doomed := by
  refine ⟨⟨h.cache.unique, h.cache.coherent, h.cache.refs, h.cache.alloc, fun m ht hz => ?_⟩,
    h.vol⟩
  by_cases hm : m = n
  · subst hm
    refine .inr (hn ?_ ?_)
    · rwa [Fs.graph, graphOf_kind]
    · rwa [Fs.graph, graphOf_nlink ht]
  · exact (h.cache.orphan m ht hz).imp_left fun hd => by simpa [hm] using hd

theorem FsInv.doom_mono (h : FsOk sb s hold held doomed) (hsub : doomed ⊆ doomed') :
    FsOk sb s hold held doomed' :=
  ⟨⟨h.cache.unique, h.cache.coherent, h.cache.refs, h.cache.alloc, fun n ht hz =>
    (h.cache.orphan n ht hz).imp_left fun hd => hsub hd⟩, h.vol⟩

theorem FsInv.short_nlink (h : FsOk sb s hold held doomed) (n : Nat) :
    short (s.graph n).nlink = (s.graph n).nlink := by
  by_cases hf : (s.dinode n).type = .free
  · rw [Fs.graph, graphOf_free hf]
    rfl
  · rw [Fs.graph, graphOf_nlink hf]
    exact h.vol.links n

theorem iput_last (h : FsOk sb s hold held ((s.inode ip).inum :: doomed))
    (hp : held.Perm (ip :: held')) (hlast : ip ∉ held')
    (hv : (s.graph (s.inode ip).inum).nlink = 0 → (s.inode ip).valid = true) :
    wp (iput sb ip) (fun _ s' => Reaches sb hold held' s s' held' doomed
      (if hold ip = 0 ∧ (s.graph (s.inode ip).inum).nlink = 0
        then s.graph.drop (s.inode ip).inum else s.graph)) (Err T) s := by
  refine wp_post (iput_spec h hp) ?_
  intro _ s' hs
  have hcond : (hold ip = 0 ∧ ip ∉ held' ∧ (s.inode ip).valid = true ∧
      (s.graph (s.inode ip).inum).nlink = 0) ↔
      (hold ip = 0 ∧ (s.graph (s.inode ip).inum).nlink = 0) := by
    tauto
  simp only [hcond] at hs
  refine ⟨hs.ok.undoom fun hkind hz => ?_, hs.kept, hs.graph⟩
  have hgraph := hs.graph
  by_cases hc : hold ip = 0 ∧ (s.graph (s.inode ip).inum).nlink = 0
  · rw [if_pos hc] at hgraph
    rw [hgraph, Graph.drop, Function.update_self] at hkind
    exact absurd rfl hkind
  · rw [if_neg hc] at hgraph
    rw [hgraph] at hz
    have hpos : 0 < hold ip := by
      by_contra hneg
      exact hc ⟨by omega, hz⟩
    obtain ⟨hnum, hvalid⟩ := hs.kept.slot ip (.inl hpos)
    exact ⟨ip, hnum, hvalid (hv hz), hpos⟩

theorem iunlockput_last (h : FsOk sb s hold held ((s.inode ip).inum :: doomed))
    (hp : held.Perm (ip :: held')) (hlast : ip ∉ held') (hv : (s.inode ip).valid = true) :
    wp (iunlockput sb ip) (fun _ s' => Reaches sb hold held' s s' held' doomed
      (if hold ip = 0 ∧ (s.graph (s.inode ip).inum).nlink = 0
        then s.graph.drop (s.inode ip).inum else s.graph)) (Err T) s := by
  have hmem : ip ∈ held := hp.mem_iff.mpr (by simp)
  have hsub : held' ⊆ held := fun i hi => hp.mem_iff.mpr (List.mem_cons_of_mem _ hi)
  simp only [iunlockput, wp_bind]
  refine wp_post (iunlock_spec h (.inr hmem)) ?_
  intro _ s1 h1
  obtain ⟨hnum, hvalid⟩ := h1.kept.slot ip (.inr hmem)
  refine wp_post (iput_last (hnum ▸ h1.ok) hp hlast fun _ => hvalid hv) ?_
  intro _ s2 h2
  rw [h1.graph, hnum] at h2
  exact h1.trans h2 hsub

theorem VolInv.setInfo {nodes : Nodes} {bm : Nat → Bool} {data : Nat → Block} {n : Nat} {d : Dinode}
    (h : VolInv sb nodes bm data) (htype : d.type = (nodes n).type)
    (hsize : d.size = (nodes n).size) (haddrs : d.addrs = (nodes n).addrs)
    (hlink : short d.nlink = d.nlink) : VolInv sb (Function.update nodes n d) bm data := by
  have htypes : ∀ m, (Function.update nodes n d m).type = (nodes m).type := fun m => by
    by_cases hm : m = n <;> simp [hm, htype]
  have hsizes : ∀ m, (Function.update nodes n d m).size = (nodes m).size := fun m => by
    by_cases hm : m = n <;> simp [hm, hsize]
  have hblocks : ∀ m bn, blockAt data (Function.update nodes n d m) bn = blockAt data (nodes m) bn :=
    fun m bn => by
      by_cases hm : m = n
      · simp [hm, blockAt, haddrs]
      · simp [hm]
  refine ⟨h.fits, ?_, fun m hm => ⟨?_, fun bn hbn => ?_⟩, fun m hm => ?_, fun m hm => ?_,
    fun m => ?_⟩
  · rw [VolOwned, place_setInfo htype haddrs]
    exact h.owned
  · rw [hsizes]
    exact (h.filled m (by rwa [htypes] at hm)).size_le
  · rw [hblocks]
    exact (h.filled m (by rwa [htypes] at hm)).mapped bn (by rwa [hsizes] at hbn)
  · exact h.inums m (by rwa [htypes] at hm)
  · rw [hsizes]
    exact h.dirSize m (by rwa [htypes] at hm)
  · by_cases hm : m = n
    · rw [hm, Function.update_self, hlink]
    · rw [Function.update_of_ne hm]
      exact h.links m

theorem reaches_setInfo (h : FsOk sb s hold held doomed) (hi : 0 < hold ip ∨ ip ∈ held)
    (hv : (s.inode ip).valid = true) {d : Dinode} (htype : d.type = (s.inode ip).type)
    (hsize : d.size = (s.inode ip).size) (haddrs : d.addrs = (s.inode ip).addrs)
    (hlink : short d.nlink = d.nlink) (l : List Nat) :
    Reaches sb hold held s { s with
      inode := Function.update s.inode ip { s.inode ip with toDinode := d }
      dinode := Function.update s.dinode (s.inode ip).inum d
      logged := l } held ((s.inode ip).inum :: doomed)
      (s.graph.setLinks (s.inode ip).inum d.nlink) := by
  have hr := h.ref_pos hi
  obtain ⟨hco, hty⟩ := h.cache.coherent ip hr hv
  have hcache : CacheInv (Function.update s.inode ip { s.inode ip with toDinode := d })
      (Function.update s.dinode (s.inode ip).inum d) hold held ((s.inode ip).inum :: doomed) :=
    h.cache.modify hr (by rw [htype]; exact hty) (fun _ => .inl (by simp))
      fun m hm _ => List.mem_cons_of_mem _ hm
  have hvol := h.vol.setInfo (by rw [htype, ← hco]) (by rw [hsize, ← hco])
    (by rw [haddrs, ← hco]) hlink
  have hgraph : graphOf (Function.update s.dinode (s.inode ip).inum d) s.data =
      s.graph.setLinks (s.inode ip).inum d.nlink :=
    graphOf_setInfo (by rw [← hco]; exact hty) (by rw [htype, ← hco]) (by rw [hsize, ← hco])
      (by rw [haddrs, ← hco])
  refine ⟨⟨hcache, hvol⟩, ⟨rfl, rfl, fun i _ => ?_, fun i _ => ?_⟩, hgraph⟩
  · by_cases he : i = ip <;> simp [he]
  · simp only [Fs.graph] at hgraph ⊢
    rw [hgraph, Graph.setLinks_kind]

theorem wp_setInfo {α : Type} {f : Inode → Inode} {d : Dinode} {k : Unit → FsM α}
    {Q : α → Fs → Prop} (h : FsOk sb s hold held doomed) (hi : 0 < hold ip ∨ ip ∈ held)
    (hv : (s.inode ip).valid = true) (hf : f (s.inode ip) = { s.inode ip with toDinode := d })
    (htype : d.type = (s.inode ip).type) (hsize : d.size = (s.inode ip).size)
    (haddrs : d.addrs = (s.inode ip).addrs) (hlink : short d.nlink = d.nlink)
    (hQ : ∀ s', Reaches sb hold held s s' held ((s.inode ip).inum :: doomed)
      (s.graph.setLinks (s.inode ip).inum d.nlink) → wp (k ()) Q (Err T) s') :
    wp (modInode ip f >>= fun _ => iupdate sb ip >>= k) Q (Err T) s := by
  simp only [modInode, iupdate, getInode, setDinode, logBlock, wp_bind, wp_get, wp_pure,
    wp_modify, Fs.setInode, Function.update_self, hf]
  exact hQ _ (reaches_setInfo h hi hv htype hsize haddrs hlink _)

theorem addNlink_spec (v : Int) (h : FsOk sb s hold held doomed) (hi : 0 < hold ip ∨ ip ∈ held)
    (hv : (s.inode ip).valid = true) :
    wp (addNlink sb ip v) (fun _ s' => Reaches sb hold held s s' held
      ((s.inode ip).inum :: doomed) (s.graph.setLinks (s.inode ip).inum
        (short ((s.graph (s.inode ip).inum).nlink + v)))) (Err T) s := by
  rw [(h.slot_node hi hv).2.1, addNlink, ← bind_pure (iupdate sb ip)]
  exact wp_setInfo h hi hv (d := { (s.inode ip).toDinode with
    nlink := short ((s.inode ip).nlink + v) }) rfl rfl rfl rfl (short_short _) fun _ hs => hs

theorem ialloc_spec (type : FileType) (htype : type ≠ .free) (h : FsOk sb s hold held doomed) :
    wp (ialloc sb type) (fun r s' => (r = none ∧ s' = s) ∨ ∃ ip n, r = some ip ∧
      (s.graph n).kind = .free ∧ 0 < n ∧ n < sb.ninodes ∧ (s'.inode ip).inum = n ∧
      Reaches sb hold held s s' (ip :: held) (n :: doomed)
        (Function.update s.graph n { kind := type })) (Err T) s := by
  simp only [ialloc, wp_bind, wp_get]
  cases hf : (List.range sb.ninodes).find? fun n => 0 < n ∧ (s.dinode n).type = .free with
  | none => simp
  | some n =>
    have hlt : n < sb.ninodes := by simpa using List.mem_of_find?_eq_some hf
    obtain ⟨hpos, hfree⟩ : 0 < n ∧ (s.dinode n).type = .free := by simpa using List.find?_some hf
    simp only [setDinode, logBlock, wp_bind, wp_modify, wp_pure]
    have hcache : CacheInv s.inode (Function.update s.dinode n { type := type }) hold held
        (n :: doomed) := by
      refine h.cache.setNode (fun i hr hv he => ?_) (fun i hpos he => ?_) (fun _ _ => by simp)
        fun m hm => List.mem_cons_of_mem _ hm
      · obtain ⟨hco, hty⟩ := h.cache.coherent i hr hv
        rw [hco, he] at hty
        exact hty hfree
      · exact h.cache.alloc i hpos (he ▸ hfree)
    have hvol : VolInv sb (Function.update s.dinode n { type := type }) s.bitmap s.data := by
      refine h.vol.trim (fun _ _ => rfl) rfl (fun _ => ⟨hpos, hlt⟩) rfl ?_
      rw [VolOwned, place_reAddr_free hfree]
      exact h.vol.owned
    have hne : ∀ i, 0 < hold i → (s.inode i).inum ≠ n := fun i hpos he =>
      h.cache.alloc i hpos (he ▸ hfree)
    have hgraph : graphOf (Function.update s.dinode n { type := type }) s.data =
        Function.update s.graph n { kind := type } := graphOf_new htype
    have hnew : ∀ l, Reaches sb hold held s { s with
        dinode := Function.update s.dinode n { type := type }, logged := l } held (n :: doomed)
        (Function.update s.graph n { kind := type }) := fun l => by
      refine ⟨⟨hcache, hvol⟩, ⟨rfl, rfl, fun _ _ => ⟨rfl, id⟩, fun i hpos => ?_⟩, hgraph⟩
      simp only [Fs.graph] at hgraph ⊢
      rw [hgraph, Function.update_of_ne (hne i hpos)]
    refine wp_post (iget_spec n (hnew _).ok) ?_
    rintro ip s' ⟨hs, hnum, -⟩
    refine .inr ⟨ip, n, rfl, ?_, hpos, hlt, hnum, ?_⟩
    · rw [Fs.graph, graphOf_kind, hfree]
    · rw [(hnew _).graph] at hs
      exact (hnew _).trans hs fun _ hm => hm

end OsProject
