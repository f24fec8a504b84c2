import OsProject.InodeSpec

/-! `readi` changes nothing and returns the bytes of the file. -/

namespace OsProject

variable {sb : Superblock} {s : Fs} {nodes : Nodes} {hold : Slot → Nat} {held : List Slot}
  {doomed : List Nat} {ip : Slot} {T : Prop} {E : Panic → Prop}

theorem bmap_mapped {bn : Nat} (hco : (s.inode ip).toDinode = nodes (s.inode ip).inum)
    (hn : (nodes (s.inode ip).inum).type ≠ .free) (hbn : bn < MAXFILE)
    (hb : place nodes s.data ((s.inode ip).inum, bn) ≠ 0) :
    wp (bmap sb ip bn) (fun b s' => b = place nodes s.data ((s.inode ip).inum, bn) ∧ s' = s)
      E s := by
  have hmax := MAXFILE_eq
  rw [place_of_le hn hbn.le, ← hco] at hb ⊢
  simp only [bmap, wp_ite, wp_bind, wp_pure, wp_throw]
  refine ⟨fun hd => ?_, fun hd => ⟨fun hj => ?_, fun hj => by omega⟩⟩
  · have hat : blockAt s.data (s.inode ip).toDinode bn = (s.inode ip).addrs bn := if_pos hd
    rw [hat] at hb ⊢
    simp only [loadAddr, getInode, wp_bind, wp_get, wp_pure, wp_ite]
    exact ⟨fun hz => absurd hz hb, fun _ => ⟨trivial, trivial⟩⟩
  · have hat : blockAt s.data (s.inode ip).toDinode bn = if (s.inode ip).addrs NDIRECT = 0 then 0
        else word (s.data ((s.inode ip).addrs NDIRECT)) (bn - NDIRECT) := by
      rw [blockAt, if_neg hd, if_pos hbn]
    rw [hat] at hb ⊢
    have hind : (s.inode ip).addrs NDIRECT ≠ 0 := fun hz => hb (if_pos hz)
    rw [if_neg hind] at hb ⊢
    simp only [loadAddr, getInode, wp_bind, wp_get, wp_pure, wp_ite]
    refine ⟨fun hz => absurd hz hind, fun _ => ⟨fun hz => absurd hz hind, fun _ => ?_⟩⟩
    simp only [loadWord, wp_bind, wp_get, wp_pure, wp_ite]
    exact ⟨fun hz => absurd hz hb, fun _ => ⟨trivial, trivial⟩⟩

theorem BSIZE_pos : 0 < BSIZE := by decide

theorem Filled.place_ne {data : Nat → Block} {n o : Nat} (h : Filled data (nodes n))
    (hn : (nodes n).type ≠ .free) (ho : o < (nodes n).size) :
    o / BSIZE < MAXFILE ∧ place nodes data (n, o / BSIZE) ≠ 0 := by
  have hle : o / BSIZE * BSIZE ≤ o := Nat.div_mul_le_self o BSIZE
  have hlt : o / BSIZE < MAXFILE := by
    have hsize := h.size_le
    exact Nat.div_lt_of_lt_mul (by rw [Nat.mul_comm]; omega)
  refine ⟨hlt, ?_⟩
  rw [place_of_le hn hlt.le]
  exact h.mapped _ (by omega)

theorem bytesFrom_add (c : Nat → UInt8) (off a b : Nat) :
    bytesFrom c off (a + b) = bytesFrom c off a ++ bytesFrom c (off + a) b := by
  simp [bytesFrom, List.range_add, Nat.add_assoc]

theorem block_offset (off i : Nat) (h : off % BSIZE + i < BSIZE) :
    (off + i) / BSIZE = off / BSIZE ∧ (off + i) % BSIZE = off % BSIZE + i := by
  have h1 := Nat.div_add_mod off BSIZE
  have hcomm : off / BSIZE * BSIZE = BSIZE * (off / BSIZE) := Nat.mul_comm _ _
  have hdiv : (off + i) / BSIZE = off / BSIZE := by
    rw [Nat.div_eq_iff BSIZE_pos]
    omega
  have h2 := Nat.div_add_mod (off + i) BSIZE
  rw [hdiv] at h2
  exact ⟨hdiv, by omega⟩

theorem bytesFrom_block {data : Nat → Block} {n off m : Nat} (hm : off % BSIZE + m ≤ BSIZE) :
    bytesFrom (data (place nodes data (n, off / BSIZE))) (off % BSIZE) m =
      bytesFrom (byteAt nodes data n) off m := by
  refine List.map_congr_left fun i hi => ?_
  have hlt : i < m := List.mem_range.mp hi
  obtain ⟨hdiv, hmod⟩ := block_offset off i (by omega)
  rw [byteAt, hdiv, hmod]

theorem FsInv.size_le (h : FsInv sb s nodes hold held doomed) (hr : 0 < (s.inode ip).ref)
    (hv : (s.inode ip).valid = true) : (s.inode ip).size ≤ MAXFILE * BSIZE := by
  obtain ⟨hco, hty⟩ := h.cache.coherent ip hr hv
  rw [hco]
  exact (h.vol.filled _ (hco ▸ hty)).size_le

theorem FsInv.size_lt (h : FsInv sb s nodes hold held doomed) (hr : 0 < (s.inode ip).ref)
    (hv : (s.inode ip).valid = true) : (s.inode ip).size < 2 ^ 32 :=
  (h.size_le hr hv).trans_lt (by decide)

def readable (size off n : Nat) : Nat := if off + n < 2 ^ 32 then min n (size - off) else 0

theorem readable_of_le {size off n : Nat} (h : off + n ≤ size) (hsize : size < 2 ^ 32) :
    readable size off n = n := by
  rw [readable, if_pos (by omega)]
  omega

theorem storable_of_all {dst : Nat → Bool} (hall : ∀ i, dst i = true) (tot m : Nat) :
    storable dst tot m = m := by
  rw [storable, List.takeWhile_eq_self_iff.mpr fun i _ => hall _, List.length_range]

theorem storable_le (dst : Nat → Bool) (tot m : Nat) : storable dst tot m ≤ m := by
  have hle := (List.takeWhile_sublist (l := List.range m) fun i => dst (tot + i)).length_le
  rwa [List.length_range] at hle

theorem storable_eq_iff {dst : Nat → Bool} {tot m : Nat} :
    storable dst tot m = m ↔ (List.range m).all fun i => dst (tot + i) := by
  rw [List.all_eq_true, ← List.takeWhile_eq_self_iff, storable]
  constructor
  · intro h
    exact (List.takeWhile_sublist _).eq_of_length (by rw [h, List.length_range])
  · intro h
    rw [h, List.length_range]

theorem storable_add (dst : Nat → Bool) (tot a b : Nat) : storable dst tot (a + b) =
    if storable dst tot a = a then a + storable dst (tot + a) b else storable dst tot a := by
  have hshift : ((fun i => dst (tot + i)) ∘ fun i => a + i) = fun i => dst (tot + a + i) := by
    funext i
    simp [Nat.add_assoc]
  have happ : storable dst tot (a + b) = (if storable dst tot a = a then List.range a ++
      ((List.range b).takeWhile fun i => dst (tot + a + i)).map fun i => a + i
      else (List.range a).takeWhile fun i => dst (tot + i)).length := by
    rw [storable, List.range_add, List.takeWhile_append, List.takeWhile_map, hshift,
      List.length_range]
    rfl
  rw [happ]
  split_ifs
  · simp [storable]
  · rfl

theorem storable_pos {dst : Nat → Bool} {tot m : Nat} :
    0 < storable dst tot m ↔ 0 < m ∧ dst tot = true := by
  cases m with
  | zero => simp [storable]
  | succ m =>
    rw [Nat.add_comm, storable_add, storable, List.range_one]
    cases hd : dst tot <;> simp [List.takeWhile, hd]

section Loop

variable (hco : (s.inode ip).toDinode = s.dinode (s.inode ip).inum)
  (hn : (s.dinode (s.inode ip).inum).type ≠ .free)
  (hfill : Filled s.data (s.dinode (s.inode ip).inum))

include hco hn hfill

theorem readLoop_spec {dst : Nat → Bool} {n : Nat} (fuel : Nat) :
    ∀ {off tot : Nat} {acc : List UInt8}, off + (n - tot) ≤ (s.inode ip).size → tot ≤ n →
    n - tot ≤ fuel →
    wp (readLoop sb ip dst fuel off n tot acc) (fun r s' => s' = s ∧
      r = (if storable dst tot (n - tot) = n - tot then (n : Int) else -1, acc ++
        bytesFrom (byteAt s.dinode s.data (s.inode ip).inum) off (storable dst tot (n - tot))))
      E s := by
  induction fuel with
  | zero =>
    intro off tot acc _ htot hfuel
    obtain rfl : tot = n := by omega
    simp [readLoop, storable, bytesFrom]
  | succ fuel ih =>
    intro off tot acc hsize htot hfuel
    simp only [readLoop, wp_ite, wp_bind, wp_pure]
    refine ⟨fun hlt => ?_, fun hge => ⟨trivial, ?_⟩⟩
    · obtain ⟨hmax, hmapped⟩ := hfill.place_ne hn (o := off) (by rw [← hco]; omega)
      refine wp_post (bmap_mapped hco hn hmax hmapped) ?_
      rintro b s' ⟨rfl, rfl⟩
      have hmod : off % BSIZE < BSIZE := Nat.mod_lt off BSIZE_pos
      refine ⟨fun hz => absurd hz hmapped, fun _ => ?_⟩
      simp only [wp_get]
      -- the bytes of this block and those of the later ones
      have hadd := storable_add dst tot (min (n - tot) (BSIZE - off % BSIZE))
        (n - (tot + min (n - tot) (BSIZE - off % BSIZE)))
      rw [show min (n - tot) (BSIZE - off % BSIZE) +
        (n - (tot + min (n - tot) (BSIZE - off % BSIZE))) = n - tot by omega] at hadd
      rw [← storable_eq_iff]
      refine ⟨fun hall => ?_, fun hstop => ⟨trivial, ?_⟩⟩
      · rw [if_pos hall] at hadd
        refine wp_post (ih (by omega) (by omega) (by omega)) ?_
        rintro r u ⟨rfl, rfl⟩
        refine ⟨rfl, Prod.ext (if_congr (by omega) rfl rfl) ?_⟩
        simp only
        rw [hadd, bytesFrom_block (by omega), List.append_assoc, ← bytesFrom_add]
      · rw [if_neg hstop] at hadd
        have hle := storable_le dst tot (min (n - tot) (BSIZE - off % BSIZE))
        rw [if_neg (by omega), hadd, bytesFrom_block (by omega)]
    · obtain rfl : tot = n := by omega
      simp [storable, bytesFrom]

theorem readi_stored {dst : Nat → Bool} {off n : Nat} (hlt : n < 2 ^ 32) :
    wp (readi sb ip dst off n) (fun r s' => s' = s ∧
      r = (if storable dst 0 (readable (s.inode ip).size off n) = readable (s.inode ip).size off n
          then (readable (s.inode ip).size off n : Int) else -1,
        bytesFrom (byteAt s.dinode s.data (s.inode ip).inum) off
          (storable dst 0 (readable (s.inode ip).size off n)))) E s := by
  have hsize : (s.inode ip).size ≤ MAXFILE * BSIZE := by
    rw [hco]
    exact hfill.size_le
  have hmax : MAXFILE * BSIZE < 2 ^ 32 := by decide
  simp only [readi, getInode, wp_bind, wp_get, wp_pure, wp_ite]
  by_cases hnowrap : off + n < 2 ^ 32
  · rw [readable, if_pos hnowrap, Nat.mod_eq_of_lt hnowrap]
    refine ⟨fun hout => ⟨trivial, ?_⟩, fun hok => ?_⟩
    · have hzero : min n ((s.inode ip).size - off) = 0 := by omega
      rw [hzero]
      rfl
    · have hlen : (if (s.inode ip).size < off + n then (s.inode ip).size - off else n) =
          min n ((s.inode ip).size - off) := by
        split_ifs <;> omega
      rw [hlen]
      exact readLoop_spec hco hn hfill _ (by omega) (Nat.zero_le _) le_rfl
  · rw [readable, if_neg hnowrap]
    refine ⟨fun _ => ⟨trivial, rfl⟩, fun hok => ?_⟩
    -- the sum wraps, so that it is below `off`
    have hmod : (off + n) % 2 ^ 32 = off + n - 2 ^ 32 := by
      rw [Nat.mod_eq_sub_mod (by omega), Nat.mod_eq_of_lt (by omega)]
    omega

theorem readi_filled {dst : Nat → Bool} {off n : Nat} (hlt : n < 2 ^ 32) :
    wp (readi sb ip dst off n) (fun r s' => s' = s ∧
      ((∀ i, dst i = true) → r = ((readable (s.inode ip).size off n : Int),
        bytesFrom (byteAt s.dinode s.data (s.inode ip).inum) off
          (readable (s.inode ip).size off n)))) E s := by
  refine wp_post (readi_stored hco hn hfill hlt) ?_
  rintro r s' ⟨rfl, rfl⟩
  refine ⟨rfl, fun hall => ?_⟩
  rw [storable_of_all hall, if_pos rfl]

end Loop

theorem readi_spec {dst : Nat → Bool} {off n : Nat} (h : FsOk sb s hold held doomed)
    (hr : 0 < (s.inode ip).ref) (hv : (s.inode ip).valid = true) (hn : n < 2 ^ 32) :
    wp (readi sb ip dst off n) (fun r s' => s' = s ∧
      ((∀ i, dst i = true) → r = ((readable (s.inode ip).size off n : Int),
        bytesFrom (byteAt s.dinode s.data (s.inode ip).inum) off
          (readable (s.inode ip).size off n)))) E s := by
  obtain ⟨hco, hty⟩ := h.cache.coherent ip hr hv
  have hfree : (s.dinode (s.inode ip).inum).type ≠ .free := hco ▸ hty
  exact readi_filled hco hfree (h.vol.filled _ hfree) hn

theorem readDirent_spec {panic : Panic} {k : Nat} (h : FsOk sb s hold held doomed)
    (hi : 0 < hold ip ∨ ip ∈ held) (hv : (s.inode ip).valid = true)
    (hdir : (s.graph (s.inode ip).inum).kind = .dir)
    (hk : k < (s.graph (s.inode ip).inum).cnt) :
    wp (readDirent sb ip panic (16 * k)) (fun de s' => s' = s ∧
      de = (s.graph (s.inode ip).inum).ent k) E s := by
  have hr := h.ref_pos hi
  obtain ⟨hco, -⟩ := h.cache.coherent ip hr hv
  have hty : (s.dinode (s.inode ip).inum).type = .dir := by rwa [Fs.graph, graphOf_kind] at hdir
  rw [Fs.graph, graphOf_dir hty] at hk ⊢
  simp only at hk
  have hsize : 16 * k + 16 ≤ (s.inode ip).size := by
    rw [hco]
    omega
  simp only [readDirent, wp_bind]
  have hlt := h.size_lt hr hv
  refine wp_post (readi_spec h hr hv (by decide)) ?_
  rintro r s' ⟨rfl, hres⟩
  rw [hres (fun _ => rfl), readable_of_le hsize hlt]
  simp only [wp_ite, wp_pure, wp_throw]
  refine ⟨fun _ => ⟨trivial, ?_⟩, fun hne => absurd rfl hne⟩
  rw [entryAt, if_pos (by rw [← hco]; omega)]

end OsProject
