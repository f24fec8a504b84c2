import OsProject.BlockMap
import OsProject.FsState

/-! The volume as inodes and their blocks. Place `p < MAXFILE` of an inode holds block `p` of its
content, and place `MAXFILE` its indirect block. -/

namespace OsProject

abbrev Nodes := Nat → Dinode

def blockAt (data : Nat → Block) (d : Dinode) (p : Nat) : Nat :=
  if p < NDIRECT then d.addrs p
  else if p < MAXFILE then
    if d.addrs NDIRECT = 0 then 0 else word (data (d.addrs NDIRECT)) (p - NDIRECT)
  else d.addrs NDIRECT

def place (nodes : Nodes) (data : Nat → Block) (x : Nat × Nat) : Nat :=
  if (nodes x.1).type ≠ .free ∧ x.2 ≤ MAXFILE then blockAt data (nodes x.1) x.2 else 0

abbrev VolOwned (sb : Superblock) (nodes : Nodes) (bitmap : Nat → Bool) (data : Nat → Block)
    (loose : Set Nat) : Prop :=
  Owned (place nodes data) bitmap sb.nmeta sb.size loose

def Dinode.setAddr (d : Dinode) (i b : Nat) : Dinode :=
  { d with addrs := Function.update d.addrs i b }

@[simp] theorem Dinode.setAddr_type (d : Dinode) (i b : Nat) : (d.setAddr i b).type = d.type := rfl

theorem MAXFILE_eq : MAXFILE = NDIRECT + NINDIRECT := rfl

theorem NINDIRECT_pos : 0 < NINDIRECT := by decide

theorem place_of_le {nodes : Nodes} {data : Nat → Block} {n p : Nat}
    (hn : (nodes n).type ≠ .free) (hp : p ≤ MAXFILE) :
    place nodes data (n, p) = blockAt data (nodes n) p := if_pos ⟨hn, hp⟩

theorem place_indirect {nodes : Nodes} {data : Nat → Block} {n : Nat}
    (hn : (nodes n).type ≠ .free) : place nodes data (n, MAXFILE) = (nodes n).addrs NDIRECT := by
  have h : ¬ MAXFILE < NDIRECT := by decide
  simp [place_of_le hn, blockAt, h]

theorem place_eq_of_nodes {nodes nodes' : Nodes} {data : Nat → Block} {n p : Nat}
    (h : nodes' n = nodes n) : place nodes' data (n, p) = place nodes data (n, p) := by
  simp only [place, h]

theorem word_putLE_self {b : Block} {j v : Nat} (hv : v < 2 ^ 32) :
    word (putLE b (4 * j) 4 v) j = v := getLE_putLE_of_lt hv

theorem word_putLE_of_ne {b : Block} {i j v : Nat} (h : i ≠ j) :
    word (putLE b (4 * j) 4 v) i = word b i :=
  getLE_putLE_disjoint (by omega)

theorem place_update {nodes : Nodes} {data : Nat → Block} {n q b : Nat} {d : Dinode}
    (htype : d.type = (nodes n).type) (hn : (nodes n).type ≠ .free) (hq : q ≤ MAXFILE)
    (hself : blockAt data d q = b)
    (hother : ∀ p, p ≤ MAXFILE → p ≠ q → blockAt data d p = blockAt data (nodes n) p) :
    place (Function.update nodes n d) data = Function.update (place nodes data) (n, q) b := by
  funext ⟨m, p⟩
  by_cases hm : m = n
  · subst hm
    by_cases hp : p = q
    · subst hp
      rw [Function.update_self, place_of_le (by simpa [htype] using hn) hq, Function.update_self,
        hself]
    · rw [Function.update_of_ne (by simp [hp])]
      by_cases hle : p ≤ MAXFILE
      · rw [place_of_le (by simpa [htype] using hn) hle, place_of_le hn hle, Function.update_self,
          hother p hle hp]
      · simp [place, hle]
  · rw [Function.update_of_ne (by simp [hm]), place_eq_of_nodes (Function.update_of_ne hm _ _)]

theorem place_setAddr_direct {nodes : Nodes} {data : Nat → Block} {n i : Nat}
    (hn : (nodes n).type ≠ .free) (hi : i < NDIRECT) (b : Nat) :
    place (Function.update nodes n ((nodes n).setAddr i b)) data =
      Function.update (place nodes data) (n, i) b := by
  have hmax : i ≤ MAXFILE := by rw [MAXFILE_eq]; omega
  have hne : NDIRECT ≠ i := by omega
  refine place_update rfl hn hmax (by simp [blockAt, hi, Dinode.setAddr]) fun p _ hp => ?_
  simp [blockAt, Dinode.setAddr, hp, hne]

theorem place_setAddr_indirect {nodes : Nodes} {data : Nat → Block} {n b : Nat}
    (hn : (nodes n).type ≠ .free) (hzero : (nodes n).addrs NDIRECT = 0)
    (hb : ∀ j < NINDIRECT, word (data b) j = 0) :
    place (Function.update nodes n ((nodes n).setAddr NDIRECT b)) data =
      Function.update (place nodes data) (n, MAXFILE) b := by
  have hlt : ¬ MAXFILE < NDIRECT := by decide
  refine place_update rfl hn le_rfl (by simp [blockAt, hlt, Dinode.setAddr]) fun p hp hne => ?_
  by_cases hd : p < NDIRECT
  · have hpd : p ≠ NDIRECT := by omega
    simp [blockAt, hd, Dinode.setAddr, hpd]
  · have hpm : p < MAXFILE := by omega
    have hj : p - NDIRECT < NINDIRECT := by rw [MAXFILE_eq] at hpm; omega
    simp [blockAt, hd, hpm, hzero, Dinode.setAddr, hb _ hj]

theorem blockAt_congr_data {data data' : Nat → Block} {d : Dinode} {p : Nat}
    (h : d.addrs NDIRECT ≠ 0 → ∀ j < NINDIRECT,
      word (data' (d.addrs NDIRECT)) j = word (data (d.addrs NDIRECT)) j) :
    blockAt data' d p = blockAt data d p := by
  by_cases hd : p < NDIRECT
  · simp [blockAt, hd]
  · by_cases hm : p < MAXFILE
    · by_cases hz : d.addrs NDIRECT = 0
      · simp [blockAt, hd, hm, hz]
      · have hj : p - NDIRECT < NINDIRECT := by rw [MAXFILE_eq] at hm; omega
        simp [blockAt, hd, hm, hz, h hz _ hj]
    · simp [blockAt, hd, hm]

theorem place_congr_data {nodes : Nodes} {data data' : Nat → Block}
    (h : ∀ n, (nodes n).type ≠ .free → (nodes n).addrs NDIRECT ≠ 0 → ∀ j < NINDIRECT,
      word (data' ((nodes n).addrs NDIRECT)) j = word (data ((nodes n).addrs NDIRECT)) j) :
    place nodes data' = place nodes data := by
  funext ⟨n, p⟩
  by_cases hn : (nodes n).type = .free
  · simp [place, hn]
  · by_cases hp : p ≤ MAXFILE
    · rw [place_of_le hn hp, place_of_le hn hp, blockAt_congr_data (h n hn)]
    · simp [place, hp]

theorem place_update_data {nodes : Nodes} {data : Nat → Block} {b : Nat} (blk : Block)
    (h : ∀ n, (nodes n).type ≠ .free → (nodes n).addrs NDIRECT ≠ b) :
    place nodes (Function.update data b blk) = place nodes data :=
  place_congr_data fun n hn _ j _ => by rw [Function.update_of_ne (h n hn)]

theorem place_setWord {nodes : Nodes} {data : Nat → Block} {n j b : Nat}
    (hn : (nodes n).type ≠ .free) (hind : (nodes n).addrs NDIRECT ≠ 0) (hj : j < NINDIRECT)
    (hb : b < 2 ^ 32)
    (hothers : ∀ m, (nodes m).type ≠ .free → m ≠ n →
      (nodes m).addrs NDIRECT ≠ (nodes n).addrs NDIRECT) :
    place nodes (Function.update data ((nodes n).addrs NDIRECT)
        (putLE (data ((nodes n).addrs NDIRECT)) (4 * j) 4 b)) =
      Function.update (place nodes data) (n, NDIRECT + j) b := by
  have hq : NDIRECT + j < MAXFILE := by rw [MAXFILE_eq]; omega
  funext ⟨m, p⟩
  by_cases hm : m = n
  · subst hm
    by_cases hp : p = NDIRECT + j
    · subst hp
      rw [Function.update_self, place_of_le hn hq.le]
      simp [blockAt, hq, hind, word_putLE_self hb]
    · rw [Function.update_of_ne (by simp [hp])]
      by_cases hle : p ≤ MAXFILE
      · rw [place_of_le hn hle, place_of_le hn hle]
        by_cases hd : p < NDIRECT
        · simp [blockAt, hd]
        · have hne : p - NDIRECT ≠ j := by omega
          simp [blockAt, hd, word_putLE_of_ne hne]
      · simp [place, hle]
  · rw [Function.update_of_ne (by simp [hm])]
    by_cases hf : (nodes m).type = .free
    · simp [place, hf]
    · by_cases hle : p ≤ MAXFILE
      · rw [place_of_le hf hle, place_of_le hf hle]
        refine blockAt_congr_data fun _ i _ => ?_
        rw [Function.update_of_ne (hothers m hf hm)]
      · simp [place, hle]

section Ownership

variable {sb : Superblock} {nodes : Nodes} {bitmap : Nat → Bool} {data : Nat → Block}
  {loose : Set Nat}

theorem Owned.indirect_inj (h : VolOwned sb nodes bitmap data loose) {n m : Nat}
    (hn : (nodes n).type ≠ .free) (hm : (nodes m).type ≠ .free) (hne : m ≠ n)
    (hind : (nodes n).addrs NDIRECT ≠ 0) :
    (nodes m).addrs NDIRECT ≠ (nodes n).addrs NDIRECT := by
  intro he
  have hx := h.inj (n, MAXFILE) (m, MAXFILE) (by rwa [place_indirect hn])
    (by rw [place_indirect hn, place_indirect hm, he])
  exact hne (congrArg Prod.fst hx).symm

theorem Owned.content_ne_indirect (h : VolOwned sb nodes bitmap data loose) {n p m : Nat}
    (hp : p < MAXFILE) (hb : place nodes data (n, p) ≠ 0) (hm : (nodes m).type ≠ .free) :
    (nodes m).addrs NDIRECT ≠ place nodes data (n, p) := by
  intro he
  have hx := h.inj (n, p) (m, MAXFILE) hb (by rw [place_indirect hm, he])
  exact absurd (congrArg Prod.snd hx) (by simp only; omega)

theorem ne_indirect_of_not_placed {b m : Nat} (hb : ∀ x, place nodes data x ≠ b)
    (hm : (nodes m).type ≠ .free) : (nodes m).addrs NDIRECT ≠ b := by
  have hne := hb (m, MAXFILE)
  rwa [place_indirect hm] at hne

theorem Owned.alloc (h : VolOwned sb nodes bitmap data ∅) {b : Nat} (hb : b < sb.size)
    (hu : bitmap b = false) :
    b ≠ 0 ∧ place nodes (Function.update data b fun _ => 0) = place nodes data ∧
      VolOwned sb nodes (Function.update bitmap b true) (Function.update data b fun _ => 0) {b} := by
  obtain ⟨hlo, hfree, -⟩ := h.not_placed hb hu
  have hpos := h.pos
  have hplace : place nodes (Function.update data b fun _ => 0) = place nodes data :=
    place_update_data _ fun n hn => ne_indirect_of_not_placed hfree hn
  refine ⟨by omega, hplace, ?_⟩
  have htake := h.take hb hu
  rw [VolOwned, hplace]
  simpa using htake

end Ownership

def byteAt (nodes : Nodes) (data : Nat → Block) (n o : Nat) : UInt8 :=
  data (place nodes data (n, o / BSIZE)) (o % BSIZE)

structure Filled (data : Nat → Block) (d : Dinode) : Prop where
  size_le : d.size ≤ MAXFILE * BSIZE
  mapped : ∀ bn, bn * BSIZE < d.size → blockAt data d bn ≠ 0

structure VolInv (sb : Superblock) (nodes : Nodes) (bitmap : Nat → Bool)
    (data : Nat → Block) : Prop where
  fits : sb.size < 2 ^ 32 ∧ sb.ninodes ≤ 2 ^ 16
  owned : VolOwned sb nodes bitmap data ∅
  filled : ∀ n, (nodes n).type ≠ .free → Filled data (nodes n)
  inums : ∀ n, (nodes n).type ≠ .free → 0 < n ∧ n < sb.ninodes
  dirSize : ∀ n, (nodes n).type = .dir → 16 ∣ (nodes n).size
  links : ∀ n, short (nodes n).nlink = (nodes n).nlink

end OsProject
