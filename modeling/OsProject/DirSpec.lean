import OsProject.WriteSpec

/-! Directories: `writeDirent`, `dirlookup`, `dirlink` and `isdirempty` on the graph. -/

namespace OsProject

variable {sb : Superblock} {s s' : Fs} {nodes : Nodes} {hold : Slot → Nat} {held : List Slot}
  {doomed : List Nat} {ip dp : Slot} {T : Prop} {E : Panic → Prop}

structure Dirent.Fits (de : Dirent) : Prop where
  inum : de.inum < 2 ^ 16
  length : de.name.length ≤ DIRSIZ
  bytes : 0 ∉ de.name

theorem takeWhile_padded {l : Name} {m : Nat} (hlen : l.length ≤ m) (hl : 0 ∉ l) :
    ((List.range m).map fun i => l.getD i 0).takeWhile (· ≠ 0) = l := by
  have hpad : ((List.range m).map fun i => l.getD i 0) = l ++ List.replicate (m - l.length) 0 := by
    refine List.ext_getElem (by simp; omega) fun i h1 h2 => ?_
    simp only [List.getElem_map, List.getElem_range]
    by_cases hi : i < l.length
    · rw [List.getElem_append_left hi, List.getD_eq_getElem _ _ hi]
    · rw [List.getElem_append_right (by omega), List.getD_eq_default _ _ (by omega)]
      simp
  have hall : ∀ x ∈ l, decide (x ≠ 0) = true := fun x hx => by
    simp only [decide_eq_true_eq]
    rintro rfl
    exact hl hx
  rw [hpad, List.takeWhile_append_of_pos hall]
  cases hm : m - l.length <;> simp [List.replicate_succ]

theorem decodeDirent_encodeDirent {de : Dirent} (h : de.Fits) :
    decodeDirent ((List.range 16).map (encodeDirent de)) = de := by
  have hinum := h.inum
  have hname : (((List.range 16).map (encodeDirent de)).drop 2).take DIRSIZ =
      (List.range DIRSIZ).map fun i => de.name.getD i 0 := by
    rfl
  have h0 : ((List.range 16).map (encodeDirent de)).getD 0 0 = UInt8.ofNat de.inum := rfl
  have h1 : ((List.range 16).map (encodeDirent de)).getD 1 0 = UInt8.ofNat (de.inum / 256) := rfl
  rw [decodeDirent, hname, takeWhile_padded h.length h.bytes, h0, h1]
  have hsum : (UInt8.ofNat de.inum).toNat + 256 * (UInt8.ofNat (de.inum / 256)).toNat = de.inum := by
    simp only [UInt8.toNat_ofNat']
    omega
  rw [hsum]

theorem empty_fits : Dirent.Fits {} := ⟨by decide, by decide, by simp⟩

theorem WriteDone.graph_entry {de : Dirent} {t : Fs} {k : Nat}
    (hd : WriteDone sb hold held doomed dp (fun i => some (encodeDirent de i)) (16 * k) 16 16 s t
      nodes) (h : FsOk sb s hold held doomed) (hr : 0 < (s.inode dp).ref)
    (hv : (s.inode dp).valid = true) (hdir : (s.dinode (s.inode dp).inum).type = .dir)
    (hde : de.Fits) (l : List Nat) :
    (resized t dp (max (s.inode dp).size (16 * k + 16)) l).graph =
      s.graph.setEnt (s.inode dp).inum k de := by
  obtain ⟨hco, -⟩ := h.cache.coherent dp hr hv
  have hdvd : 16 ∣ (s.inode dp).size := by
    rw [hco]
    exact h.vol.dirSize _ hdir
  have hoff := hd.off_le
  have hnode := hd.resized_dinode hr hv (max (s.inode dp).size (16 * k + 16)) l
  have htype : ((resized t dp (max (s.inode dp).size (16 * k + 16)) l).dinode
      (s.inode dp).inum).type = .dir := by
    rw [hnode, Function.update_self]
    exact (hd.grew.type _).trans hdir
  have hlink : ((resized t dp (max (s.inode dp).size (16 * k + 16)) l).dinode
      (s.inode dp).inum).nlink = (s.dinode (s.inode dp).inum).nlink := by
    rw [hnode, Function.update_self]
    exact hd.grew.nlink _
  have hsize : ((resized t dp (max (s.inode dp).size (16 * k + 16)) l).dinode
      (s.inode dp).inum).size = max (s.inode dp).size (16 * k + 16) := by
    rw [hnode, Function.update_self]
  have hent : entryAt (resized t dp (max (s.inode dp).size (16 * k + 16)) l).dinode
      (resized t dp (max (s.inode dp).size (16 * k + 16)) l).data (s.inode dp).inum =
      Function.update (entryAt s.dinode s.data (s.inode dp).inum) k de := by
    funext j
    by_cases hj : j = k
    · subst hj
      have hbytes : bytesFrom (byteAt (resized t dp (max (s.inode dp).size (16 * j + 16)) l).dinode
          (resized t dp (max (s.inode dp).size (16 * j + 16)) l).data (s.inode dp).inum)
          (16 * j) 16 = (List.range 16).map (encodeDirent de) := by
        refine List.map_congr_left fun i hi => ?_
        rw [hd.byteAt_resized hr hv]
        refine (hd.wrote i (List.mem_range.mp hi)).2.2 _ ?_
        simp
      rw [Function.update_self, entryAt, hsize, if_pos (by omega), hbytes,
        decodeDirent_encodeDirent hde]
    · rw [Function.update_of_ne hj]
      by_cases hin : 16 * j < (s.inode dp).size
      · have hbytes : bytesFrom (byteAt
            (resized t dp (max (s.inode dp).size (16 * k + 16)) l).dinode
            (resized t dp (max (s.inode dp).size (16 * k + 16)) l).data (s.inode dp).inum)
            (16 * j) 16 = bytesFrom (byteAt s.dinode s.data (s.inode dp).inum) (16 * j) 16 := by
          refine List.map_congr_left fun i hi => ?_
          have hi' : i < 16 := List.mem_range.mp hi
          exact hd.byteAt_outside hr hv h hd.grew (by rw [hdir]; decide) (by rw [← hco]; omega)
            (.inr (by omega))
        rw [entryAt, entryAt, hsize, if_pos (by omega), if_pos (by rw [← hco]; omega), hbytes]
      · rw [entryAt, entryAt, hsize, if_neg (by omega), if_neg (by rw [← hco]; omega)]
  funext m
  by_cases hm : m = (s.inode dp).inum
  · rw [hm, Fs.graph, graphOf_dir htype, hlink, hsize, hent, Graph.setEnt, Function.update_self,
      Fs.graph, graphOf_dir hdir, ← hco]
    congr 1
    simp only
    omega
  · rw [hd.graph_of_ne hr hv h _ l (.inl hm), Graph.setEnt, Function.update_of_ne hm]

theorem WriteDone.graph_none {src : Nat → Option UInt8} {t : Fs} {off n : Nat}
    (hd : WriteDone sb hold held doomed dp src off n 0 s t nodes)
    (h : FsOk sb s hold held doomed) (hr : 0 < (s.inode dp).ref)
    (hv : (s.inode dp).valid = true) (hsome : ∀ i, (src i).isSome) (l : List Nat) :
    (resized t dp (s.inode dp).size l).graph = s.graph := by
  obtain ⟨hco, -⟩ := h.cache.coherent dp hr hv
  have hg := (hd.full hsome).1
  have hnode := hd.resized_dinode hr hv (s.inode dp).size l
  funext m
  by_cases hm : m = (s.inode dp).inum
  · refine graphOf_congr ?_ ?_ (fun _ => ?_) fun hdir j i hj hi => ?_
    · rw [← hg.type m, hnode, hm, Function.update_self]
    · rw [← hg.nlink m, hnode, hm, Function.update_self]
    · rw [hnode, hm, Function.update_self, ← hco]
    · have hdvd := h.vol.dirSize m hdir
      exact hd.byteAt_outside hr hv h hg (by rw [hdir]; decide) (by omega) (.inr (by omega))
  · exact hd.graph_of_ne hr hv h _ l (.inl hm)

theorem FsInv.ent_beyond (h : FsOk sb s hold held doomed) {n k : Nat}
    (hk : (s.graph n).cnt ≤ k) : ((s.graph n).ent k).inum = 0 := by
  rw [Fs.graph, graphOf_beyond hk (h.vol.dirSize n)]

section Directory

variable (h : FsOk sb s hold held doomed) (hi : 0 < hold dp ∨ dp ∈ held)
  (hv : (s.inode dp).valid = true) (hdir : (s.graph (s.inode dp).inum).kind = .dir)
include h hi hv hdir

theorem writeDirent_spec {k : Nat} {de : Dirent} (hde : de.Fits) :
    wp (writeDirent sb dp de (16 * k)) (fun r s' => Reaches sb hold held s s' held doomed
      (if r = 16 then s.graph.setEnt (s.inode dp).inum k de else s.graph)) E s := by
  have hr := h.ref_pos hi
  obtain ⟨hco, hty⟩ := h.cache.coherent dp hr hv
  have hty' : (s.dinode (s.inode dp).inum).type = .dir := by rwa [Fs.graph, graphOf_kind] at hdir
  have hsize : (s.inode dp).size ≤ MAXFILE * BSIZE := by
    rw [hco]
    exact (h.vol.filled _ (hco ▸ hty)).size_le
  have hdvd : 16 ∣ (s.inode dp).size := by
    rw [hco]
    exact h.vol.dirSize _ hty'
  rw [writeDirent]
  refine wp_post (writei_core h hr hv (by decide)) ?_
  rintro r s' (⟨rfl, rfl⟩ | ⟨n, t, nodes, l, rfl, hd, rfl⟩)
  · rw [if_neg (by decide)]
    exact .refl h
  · obtain ⟨-, hfull⟩ := hd.full fun _ => rfl
    have hoff := hd.off_le
    have hle := hd.le
    have hcase : n = 16 ∨ n = 0 := by
      simp only [show BSIZE = 1024 from rfl] at hfull
      omega
    have hok := hd.fsOk hr hv hsize (fun _ => by omega) l
    rcases hcase with rfl | rfl
    · have hgraph := hd.graph_entry h hr hv hty' hde l
      rw [if_pos (by decide)]
      exact ⟨hok, hd.kept _ l fun m => by rw [hgraph, Graph.setEnt_kind], hgraph⟩
    · have hsame : max (s.inode dp).size (16 * k + 0) = (s.inode dp).size := by omega
      rw [hsame] at hok ⊢
      have hgraph := hd.graph_none h hr hv (fun _ => rfl) l
      rw [if_neg (by decide)]
      exact ⟨hok, hd.kept _ l fun m => by rw [hgraph], hgraph⟩

theorem FsInv.direntOffs :
    direntOffs (s.inode dp).size =
      (List.range (s.graph (s.inode dp).inum).cnt).map (16 * ·) ∧
    16 * (((s.inode dp).size + 15) / 16) = 16 * (s.graph (s.inode dp).inum).cnt := by
  obtain ⟨hco, -⟩ := h.cache.coherent dp (h.ref_pos hi) hv
  have hty : (s.dinode (s.inode dp).inum).type = .dir := by rwa [Fs.graph, graphOf_kind] at hdir
  have hdvd : 16 ∣ (s.inode dp).size := by
    rw [hco]
    exact h.vol.dirSize _ hty
  have hcnt : ((s.inode dp).size + 15) / 16 = (s.graph (s.inode dp).inum).cnt := by
    rw [Fs.graph, graphOf_dir hty, ← hco]
    simp only
    omega
  rw [OsProject.direntOffs, hcnt]
  exact ⟨rfl, rfl⟩

theorem dirScan_spec {name : Name} {ks : List Nat} (hks : ∀ k ∈ ks, k < (s.graph (s.inode dp).inum).cnt) :
    wp (dirScan sb dp name (ks.map (16 * ·))) (fun r s' => s' = s ∧
      r = (ks.find? fun k => ((s.graph (s.inode dp).inum).ent k).inum ≠ 0 ∧
        ((s.graph (s.inode dp).inum).ent k).name = name).map fun k =>
          (16 * k, ((s.graph (s.inode dp).inum).ent k).inum)) E s := by
  induction ks with
  | nil => simp [dirScan]
  | cons k ks ih =>
    have hks' := ih fun j hj => hks j (List.mem_cons_of_mem _ hj)
    simp only [List.map_cons, dirScan, wp_bind]
    refine wp_post (readDirent_spec h hi hv hdir (hks k (by simp))) ?_
    rintro de s' ⟨rfl, rfl⟩
    simp only [wp_ite, wp_pure]
    refine ⟨fun hz => ?_, fun hnz => ⟨fun hname => ?_, fun hname => ?_⟩⟩
    · simpa [hz] using hks'
    · simp [hnz, hname]
    · simpa [hname] using hks'

theorem dirlookup_total {name : Name} (hE : (∀ i, (s.inode i).ref ≠ 0) → E .igetNoInodes) :
    wp (dirlookup sb dp name) (fun r s' =>
      ((s.graph (s.inode dp).inum).find name = none ∧ r = none ∧ s' = s) ∨
      ∃ k ip, (s.graph (s.inode dp).inum).find name = some k ∧ r = some (ip, 16 * k) ∧
        Reaches sb hold held s s' (ip :: held) doomed s.graph ∧
        (s'.inode ip).inum = ((s.graph (s.inode dp).inum).ent k).inum ∧
        ∀ i, (s'.inode i).locked = (s.inode i).locked) E s := by
  have htype : (s.inode dp).type = .dir := (h.slot_node hi hv).1.symm.trans hdir
  simp only [dirlookup, getInode, wp_bind, wp_get, wp_pure, wp_ite, wp_throw]
  refine ⟨fun _ => ?_, fun hnd => absurd htype hnd⟩
  rw [(h.direntOffs hi hv hdir).1]
  refine wp_post (dirScan_spec h hi hv hdir fun k hk => List.mem_range.mp hk) ?_
  rintro r s' ⟨rfl, rfl⟩
  rw [← Node.find]
  cases hf : (s'.graph (s'.inode dp).inum).find name with
  | none => simp
  | some k =>
    simp only [Option.map_some, wp_bind]
    refine wp_post (iget_total _ h hE) ?_
    rintro ip s1 ⟨hs, hnum, hlock⟩
    exact .inr ⟨k, ip, rfl, rfl, hs, hnum, hlock⟩

theorem dirlookup_spec {name : Name} :
    wp (dirlookup sb dp name) (fun r s' =>
      ((s.graph (s.inode dp).inum).find name = none ∧ r = none ∧ s' = s) ∨
      ∃ k ip, (s.graph (s.inode dp).inum).find name = some k ∧ r = some (ip, 16 * k) ∧
        Reaches sb hold held s s' (ip :: held) doomed s.graph ∧
        (s'.inode ip).inum = ((s.graph (s.inode dp).inum).ent k).inum ∧
        ∀ i, (s'.inode i).locked = (s.inode i).locked) (Err T) s :=
  dirlookup_total h hi hv hdir fun _ => by simp [Err]

theorem dirFindFree_spec {i m : Nat} (hcnt : i + m = (s.graph (s.inode dp).inum).cnt)
    (hfull : ∀ j < i, ((s.graph (s.inode dp).inum).ent j).inum ≠ 0) :
    wp (dirFindFree sb dp (s.inode dp).size ((List.range' i m).map (16 * ·))) (fun r s' => s' = s ∧
      ∃ k, r = 16 * k ∧ (s.graph (s.inode dp).inum).FirstFree k) E s := by
  induction m generalizing i with
  | zero =>
    simp only [List.range'_zero, List.map_nil, dirFindFree, wp_pure]
    exact ⟨trivial, _, (h.direntOffs hi hv hdir).2, h.ent_beyond le_rfl, fun j hj =>
      hfull j (by omega)⟩
  | succ m ih =>
    simp only [List.range'_succ, List.map_cons, dirFindFree, wp_bind]
    refine wp_post (readDirent_spec h hi hv hdir (by omega)) ?_
    rintro de s' ⟨rfl, rfl⟩
    simp only [wp_ite, wp_pure]
    refine ⟨fun hz => ⟨trivial, i, rfl, hz, hfull⟩, fun hnz => ih (by omega) fun j hj => ?_⟩
    by_cases hji : j = i
    · rw [hji]
      exact hnz
    · exact hfull j (by omega)

theorem dirlink_spec {name : Name} {inum : Nat}
    (hdoom : ∀ n ∈ doomed, ∃ i ∈ held, (s.inode i).inum = n)
    (hde : Dirent.Fits { inum := inum, name := name }) :
    wp (dirlink sb dp name inum) (fun r s' =>
      (r = -1 ∧ Reaches sb hold held s s' held doomed s.graph) ∨
      (r = 0 ∧ ∃ k, (s.graph (s.inode dp).inum).find name = none ∧
        (s.graph (s.inode dp).inum).FirstFree k ∧ Reaches sb hold held s s' held doomed
          (s.graph.setEnt (s.inode dp).inum k { inum := inum, name := name }))) (Err T) s := by
  simp only [dirlink, wp_bind]
  refine wp_post (dirlookup_spec h hi hv hdir) ?_
  rintro r s1 (⟨hnone, rfl, rfl⟩ | ⟨k, ip, -, rfl, hs, -, -⟩)
  · simp only [getInode, wp_bind, wp_get, wp_pure]
    rw [(h.direntOffs hi hv hdir).1, List.range_eq_range']
    refine wp_post (dirFindFree_spec h hi hv hdir (Nat.zero_add _)
      fun j hj => absurd hj (Nat.not_lt_zero j)) ?_
    rintro off s2 ⟨rfl, k, rfl, hfree⟩
    refine wp_post (writeDirent_spec h hi hv hdir hde) ?_
    intro r s3 hs
    simp only [wp_ite, wp_pure]
    refine ⟨fun hr => .inr ⟨trivial, k, hnone, hfree, ?_⟩, fun hr => .inl ⟨trivial, ?_⟩⟩
    · rwa [if_pos hr] at hs
    · rwa [if_neg hr] at hs
  · simp only [wp_bind, wp_pure]
    refine wp_post (iput_keep hs.ok (List.Perm.refl _) fun n hn => ?_) ?_
    · obtain ⟨i, hmem, hnum⟩ := hdoom n hn
      exact ⟨i, hmem, (hs.kept.slot i (.inr hmem)).1.trans hnum⟩
    · intro _ s2 hs2
      rw [hs.graph] at hs2
      exact .inl ⟨trivial, hs.trans hs2 fun _ hm => hm⟩

theorem dirEmptyFrom_spec {ks : List Nat} (hks : ∀ k ∈ ks, k < (s.graph (s.inode dp).inum).cnt) :
    wp (dirEmptyFrom sb dp (ks.map (16 * ·))) (fun r s' => s' = s ∧ (r = true →
      ∀ k ∈ ks, ((s.graph (s.inode dp).inum).ent k).inum = 0)) (Err T) s := by
  induction ks with
  | nil => simp [dirEmptyFrom]
  | cons k ks ih =>
    simp only [List.map_cons, dirEmptyFrom, wp_bind]
    refine wp_post (readDirent_spec h hi hv hdir (hks k (by simp))) ?_
    rintro de s' ⟨rfl, rfl⟩
    simp only [wp_ite, wp_pure]
    refine ⟨fun hz => ?_, fun _ => ⟨trivial, fun hr => absurd hr (by decide)⟩⟩
    refine wp_post (ih fun j hj => hks j (List.mem_cons_of_mem _ hj)) ?_
    rintro r s1 ⟨rfl, hall⟩
    refine ⟨rfl, fun hr j hj => ?_⟩
    rcases List.mem_cons.mp hj with rfl | hj
    · exact hz
    · exact hall hr j hj

theorem isdirempty_spec :
    wp (isdirempty sb dp) (fun r s' => s' = s ∧ (r = true →
      ∀ k, 2 ≤ k → ((s.graph (s.inode dp).inum).ent k).inum = 0)) (Err T) s := by
  have hmem : ∀ k, k ∈ (List.range (s.graph (s.inode dp).inum).cnt).drop 2 ↔
      2 ≤ k ∧ k < (s.graph (s.inode dp).inum).cnt := fun k => by
    rw [List.range_eq_range', List.drop_range', List.mem_range'_1]
    omega
  simp only [isdirempty, getInode, wp_bind, wp_get, wp_pure]
  rw [(h.direntOffs hi hv hdir).1, ← List.map_drop]
  refine wp_post (dirEmptyFrom_spec h hi hv hdir fun k hk => ((hmem k).mp hk).2) ?_
  rintro r s' ⟨rfl, hall⟩
  refine ⟨rfl, fun hr k hk => ?_⟩
  by_cases hlt : k < (s'.graph (s'.inode dp).inum).cnt
  · exact hall hr k ((hmem k).mpr ⟨hk, hlt⟩)
  · exact h.ent_beyond (by omega)

end Directory

end OsProject
