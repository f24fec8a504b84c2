import OsProject.FsInvariant
import OsProject.Hoare

/-! What `balloc`, `bmap` and `itrunc` do to the ownership of blocks. -/

namespace OsProject

variable {sb : Superblock} {s : Fs} {nodes : Nodes} {hold : Slot → Nat} {held : List Slot}
  {doomed : List Nat} {ip : Slot}

def Fs.Full (sb : Superblock) (s : Fs) : Prop := ∀ b < sb.size, s.bitmap b = true

theorem balloc_spec {E : Panic → Prop} : wp (balloc sb) (fun b s' => (b = 0 ∧ s' = s ∧ s.Full sb) ∨
    (b < sb.size ∧ s.bitmap b = false ∧ ∃ l, s' = { s with
      bitmap := Function.update s.bitmap b true
      data := Function.update s.data b fun _ => 0
      logged := l })) E s := by
  simp only [balloc, wp_bind, wp_get]
  cases hf : (List.range sb.size).find? fun b => s.bitmap b = false with
  | none =>
    simp only [wp_pure]
    refine .inl ⟨trivial, trivial, fun b hb => ?_⟩
    simpa using List.find?_eq_none.mp hf b (List.mem_range.mpr hb)
  | some b =>
    have hlt : b < sb.size := by simpa using List.mem_of_find?_eq_some hf
    have hfree : s.bitmap b = false := by simpa using List.find?_some hf
    simp only [wp_bind, wp_modify, logBlock, bzero, wp_pure]
    exact .inr ⟨hlt, hfree, _, rfl⟩

def addrPlace (i : Nat) : Nat := if i = NDIRECT then MAXFILE else i

theorem addrPlace_le {i : Nat} (hi : i ≤ NDIRECT) : addrPlace i ≤ MAXFILE := by
  rw [addrPlace, MAXFILE_eq]
  split_ifs <;> omega

theorem place_addrPlace {data : Nat → Block} {n i : Nat} (hn : (nodes n).type ≠ .free)
    (hi : i ≤ NDIRECT) : place nodes data (n, addrPlace i) = (nodes n).addrs i := by
  by_cases he : i = NDIRECT
  · subst he
    rw [addrPlace, if_pos rfl, place_indirect hn]
  · have hlt : i < NDIRECT := by omega
    rw [place_of_le hn (addrPlace_le hi), addrPlace, if_neg he, blockAt, if_pos hlt]

theorem Owned.setAddr {bitmap : Nat → Bool} {data : Nat → Block} {n i b : Nat}
    (h : VolOwned sb nodes bitmap data {b}) (hn : (nodes n).type ≠ .free) (hi : i ≤ NDIRECT)
    (hzero : (nodes n).addrs i = 0) (hb : data b = fun _ => 0) :
    place (Function.update nodes n ((nodes n).setAddr i b)) data =
        Function.update (place nodes data) (n, addrPlace i) b ∧
      VolOwned sb (Function.update nodes n ((nodes n).setAddr i b)) bitmap data ∅ := by
  have hplace : place (Function.update nodes n ((nodes n).setAddr i b)) data =
      Function.update (place nodes data) (n, addrPlace i) b := by
    by_cases he : i = NDIRECT
    · subst he
      rw [addrPlace, if_pos rfl]
      refine place_setAddr_indirect hn hzero fun j _ => ?_
      rw [hb]
      exact getLE_zero _ _
    · rw [addrPlace, if_neg he]
      exact place_setAddr_direct hn (by omega) b
  refine ⟨hplace, ?_⟩
  rw [VolOwned, hplace]
  exact h.put (by rw [place_addrPlace hn hi, hzero])

theorem loadAddr_spec {E : Panic → Prop} {i : Nat} (hi : i ≤ NDIRECT)
    (h : FsInv sb s nodes hold held doomed) (hr : 0 < (s.inode ip).ref)
    (hv : (s.inode ip).valid = true) :
    wp (loadAddr sb ip i) (fun b s' => ∃ nodes', FsInv sb s' nodes' hold held doomed ∧
      Grew ip 0 0 s s' nodes nodes' ∧ b = (nodes' (s.inode ip).inum).addrs i ∧
      (∀ x ≠ ((s.inode ip).inum, addrPlace i), place nodes' s'.data x = place nodes s.data x) ∧
      (b = 0 → s'.Full sb)) E s := by
  obtain ⟨hco, hty⟩ := h.cache.coherent ip hr hv
  have hn : (nodes (s.inode ip).inum).type ≠ .free := hco ▸ hty
  have haddr : (s.inode ip).addrs i = (nodes (s.inode ip).inum).addrs i := by rw [← hco]
  simp only [loadAddr, getInode, wp_bind, wp_get, wp_pure, wp_ite]
  refine ⟨fun hz => ?_, fun hnz => ⟨nodes, h, .refl 0 0 hco, haddr, fun _ _ => rfl,
    fun hz => absurd hz hnz⟩⟩
  refine wp_post balloc_spec ?_
  rintro b s' (⟨rfl, rfl, hfull⟩ | ⟨hlt, hfree, l, rfl⟩)
  · exact ⟨fun _ => ⟨nodes, h, .refl 0 0 hco, by rw [← haddr, hz], fun _ _ => rfl, fun _ => hfull⟩,
      fun hne => absurd rfl hne⟩
  · obtain ⟨hb0, hplace, howned⟩ := h.vol.owned.alloc hlt hfree
    obtain ⟨-, hfresh, -⟩ := h.vol.owned.not_placed hlt hfree
    refine ⟨fun hz' => absurd hz' hb0, fun _ => ?_⟩
    obtain ⟨hplace', howned'⟩ := howned.setAddr hn hi (by rw [← haddr, hz])
      (Function.update_self b (fun _ => 0) s.data)
    simp only [setAddr, modInode, wp_modify]
    have hgrew : Grew ip 0 0 s (Fs.setInode { s with
        bitmap := Function.update s.bitmap b true
        data := Function.update s.data b fun _ => 0
        logged := l } ip { s.inode ip with addrs := Function.update (s.inode ip).addrs i b })
        nodes (Function.update nodes (s.inode ip).inum
          ((nodes (s.inode ip).inum).setAddr i b)) := by
      refine ⟨rfl, rfl, rfl, ⟨_, rfl, by rw [Dinode.setAddr, ← hco]⟩, ?_, ?_⟩
      · intro x hx
        simp only [Fs.setInode]
        rw [hplace', hplace, Function.update_of_ne]
        rintro rfl
        rw [place_addrPlace hn hi, ← haddr, hz] at hx
        exact hx rfl
      · intro m o _ hx _
        have hne : (m, o / BSIZE) ≠ ((s.inode ip).inum, addrPlace i) := by
          intro he
          rw [he, place_addrPlace hn hi, ← haddr, hz] at hx
          exact hx rfl
        simp only [byteAt, Fs.setInode]
        rw [hplace', hplace, Function.update_of_ne hne, Function.update_of_ne (hfresh _)]
    refine ⟨_, hgrew.fsInv h hr hv howned', hgrew, ?_, fun x hx => ?_, fun hz' => absurd hz' hb0⟩
    · simp [Dinode.setAddr]
    · simp only [Fs.setInode]
      rw [hplace', hplace, Function.update_of_ne hx]

theorem place_word {data : Nat → Block} {n j : Nat} (hn : (nodes n).type ≠ .free)
    (hind : (nodes n).addrs NDIRECT ≠ 0) (hj : j < NINDIRECT) :
    place nodes data (n, NDIRECT + j) = word (data ((nodes n).addrs NDIRECT)) j := by
  have hlt : NDIRECT + j < MAXFILE := by rw [MAXFILE_eq]; omega
  simp [place_of_le hn hlt.le, blockAt, hlt, hind]

theorem Owned.setWord {bitmap : Nat → Bool} {data : Nat → Block} {n j b : Nat}
    (h : VolOwned sb nodes bitmap data {b}) (hsize : sb.size < 2 ^ 32)
    (hn : (nodes n).type ≠ .free) (hind : (nodes n).addrs NDIRECT ≠ 0) (hj : j < NINDIRECT)
    (hzero : word (data ((nodes n).addrs NDIRECT)) j = 0) :
    place nodes (Function.update data ((nodes n).addrs NDIRECT)
        (putLE (data ((nodes n).addrs NDIRECT)) (4 * j) 4 b)) =
        Function.update (place nodes data) (n, NDIRECT + j) b ∧
      VolOwned sb nodes bitmap (Function.update data ((nodes n).addrs NDIRECT)
        (putLE (data ((nodes n).addrs NDIRECT)) (4 * j) 4 b)) ∅ := by
  have hlt : b < sb.size := (h.loose_free b rfl).2.1
  have hplace := @place_setWord nodes data n j b hn hind hj (by omega)
    fun m hm hne => h.indirect_inj hn hm hne hind
  refine ⟨hplace, ?_⟩
  rw [VolOwned, hplace]
  exact h.put (by rw [place_word hn hind hj, hzero])

theorem loadWord_spec {E : Panic → Prop} {j : Nat} (hj : j < NINDIRECT)
    (h : FsInv sb s nodes hold held doomed) (hr : 0 < (s.inode ip).ref)
    (hv : (s.inode ip).valid = true) (hind : (nodes (s.inode ip).inum).addrs NDIRECT ≠ 0) :
    wp (loadWord sb ((nodes (s.inode ip).inum).addrs NDIRECT) j)
      (fun b s' => FsInv sb s' nodes hold held doomed ∧ Grew ip 0 0 s s' nodes nodes ∧
        b = place nodes s'.data ((s.inode ip).inum, NDIRECT + j) ∧
        (∀ x ≠ ((s.inode ip).inum, NDIRECT + j), place nodes s'.data x = place nodes s.data x) ∧
        (b = 0 → s'.Full sb)) E s := by
  obtain ⟨hco, hty⟩ := h.cache.coherent ip hr hv
  have hn : (nodes (s.inode ip).inum).type ≠ .free := hco ▸ hty
  have hword : place nodes s.data ((s.inode ip).inum, NDIRECT + j) = _ := place_word hn hind hj
  simp only [loadWord, wp_bind, wp_get, wp_ite, wp_pure]
  refine ⟨fun hz => ?_, fun hnz => ⟨h, .refl 0 0 hco, hword.symm, fun _ _ => trivial,
    fun hz => absurd hz hnz⟩⟩
  refine wp_post balloc_spec ?_
  rintro b s' (⟨rfl, rfl, hfull⟩ | ⟨hlt, hfree, l, rfl⟩)
  · exact ⟨fun _ => ⟨h, .refl 0 0 hco, by rw [hword, hz], fun _ _ => rfl, fun _ => hfull⟩,
      fun hne => absurd rfl hne⟩
  · obtain ⟨hb0, hplace, howned⟩ := h.vol.owned.alloc hlt hfree
    obtain ⟨-, hfresh, -⟩ := h.vol.owned.not_placed hlt hfree
    have hneb : (nodes (s.inode ip).inum).addrs NDIRECT ≠ b :=
      ne_indirect_of_not_placed hfresh hn
    obtain ⟨hplace', howned'⟩ := howned.setWord h.vol.fits.1 hn hind hj
      (by rw [Function.update_of_ne hneb, hz])
    refine ⟨fun hz' => absurd hz' hb0, fun _ => ?_⟩
    simp only [wp_modify, logBlock]
    have hne : ∀ x, place nodes s.data x ≠ 0 → x ≠ ((s.inode ip).inum, NDIRECT + j) := by
      rintro x hx rfl
      rw [hword, hz] at hx
      exact hx rfl
    have hgrew : Grew ip 0 0 s { s with
        bitmap := Function.update s.bitmap b true
        data := Function.update (Function.update s.data b fun _ => 0)
          ((nodes (s.inode ip).inum).addrs NDIRECT)
          (putLE (Function.update s.data b (fun _ => 0)
            ((nodes (s.inode ip).inum).addrs NDIRECT)) (4 * j) 4 b)
        logged := absorb l ((nodes (s.inode ip).inum).addrs NDIRECT) } nodes nodes := by
      refine ⟨rfl, rfl, rfl, ⟨(s.inode ip).addrs, by simp, by simp [← hco]⟩, ?_, ?_⟩
      · intro x hx
        rw [hplace', hplace, Function.update_of_ne (hne x hx)]
      · intro m o ho hx _
        have hnei := h.vol.owned.content_ne_indirect ho hx hn
        simp only [byteAt]
        rw [hplace', hplace, Function.update_of_ne (hne _ hx), Function.update_of_ne (Ne.symm hnei),
          Function.update_of_ne (hfresh _)]
    exact ⟨hgrew.fsInv h hr hv howned', hgrew, by rw [hplace', Function.update_self],
      fun x hx => by rw [hplace', hplace, Function.update_of_ne hx], fun hz' => absurd hz' hb0⟩

theorem bmap_spec {E : Panic → Prop} {bn : Nat} (hE : bn < MAXFILE ∨ E .bmapOutOfRange)
    (h : FsInv sb s nodes hold held doomed) (hr : 0 < (s.inode ip).ref)
    (hv : (s.inode ip).valid = true) :
    wp (bmap sb ip bn) (fun b s' => ∃ nodes', FsInv sb s' nodes' hold held doomed ∧
      Grew ip 0 0 s s' nodes nodes' ∧ bn < MAXFILE ∧
      b = place nodes' s'.data ((s.inode ip).inum, bn) ∧
      (∀ x ≠ ((s.inode ip).inum, bn), (NDIRECT ≤ bn → x ≠ ((s.inode ip).inum, MAXFILE)) →
        place nodes' s'.data x = place nodes s.data x) ∧ (b = 0 → s'.Full sb)) E s := by
  have hmax := MAXFILE_eq
  obtain ⟨hco, hty⟩ := h.cache.coherent ip hr hv
  simp only [bmap, wp_ite, wp_bind, wp_pure, wp_throw]
  refine ⟨fun hd => ?_, fun hd => ⟨fun hj => ?_, fun _ => hE.resolve_left (by omega)⟩⟩
  · have haddr : addrPlace bn = bn := if_neg (by omega)
    refine wp_post (loadAddr_spec hd.le h hr hv) ?_
    rintro b s' ⟨nodes', h', hg, hb, hothers, hfull⟩
    have hn : (nodes' (s.inode ip).inum).type ≠ .free := by
      rw [hg.type]
      exact hco ▸ hty
    rw [haddr] at hothers
    refine ⟨nodes', h', hg, by omega, ?_, fun x hx _ => hothers x hx, hfull⟩
    rw [hb, place_of_le hn (by omega), blockAt, if_pos hd]
  · have haddr : addrPlace NDIRECT = MAXFILE := if_pos rfl
    refine wp_post (loadAddr_spec le_rfl h hr hv) ?_
    rintro b s' ⟨nodes', h', hg, rfl, hothers, hfull⟩
    rw [haddr] at hothers
    refine ⟨fun hz => ⟨nodes', h', hg, by omega, ?_, fun x _ hx => hothers x (hx (by omega)),
      fun _ => hfull hz⟩, fun hind => ?_⟩
    · have hn : (nodes' (s.inode ip).inum).type ≠ .free := by
        rw [hg.type]
        exact hco ▸ hty
      rw [place_of_le hn (by omega), blockAt, if_neg hd, if_pos (by omega), if_pos hz]
    have hr' : 0 < (s'.inode ip).ref := by rwa [hg.ref]
    have hv' : (s'.inode ip).valid = true := by rwa [hg.valid]
    have hinum := hg.inum ip
    have hbn : NDIRECT + (bn - NDIRECT) = bn := by omega
    rw [← hinum] at hind hothers ⊢
    refine wp_post (loadWord_spec hj h' hr' hv' hind) ?_
    rintro c s'' ⟨h'', hg', rfl, hothers', hfull'⟩
    rw [hbn] at hothers' hfull' ⊢
    exact ⟨nodes', h'', hg.trans hg', by omega, rfl,
      fun x hx hx' => (hothers' x hx).trans (hothers x (hx' (by omega))), hfull'⟩

end OsProject
