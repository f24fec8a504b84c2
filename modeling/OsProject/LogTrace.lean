import OsProject.Log

/-! The blocks that the copying loops of the log write, and the on-disk header: what
`write_head` stores is what `read_head` reads back. -/

namespace OsProject

def InLog (start b : Nat) : Prop := start ≤ b ∧ b ≤ start + LOGBLOCKS

def HomeEq (start : Nat) (d e : Disk) : Prop := ∀ b, ¬ InLog start b → d b = e b

structure HeadOk (start : Nat) (lh : List Nat) : Prop where
  length_le : lh.length ≤ LOGBLOCKS
  home : ∀ b ∈ lh, ¬ InLog start b
  word : ∀ b ∈ lh, b < 2 ^ 32

def TxOk (start : Nat) (tx : Tx) : Prop := ∀ w ∈ tx, ¬ InLog start w.1 ∧ w.1 < 2 ^ 32

instance (start b : Nat) : Decidable (InLog start b) :=
  inferInstanceAs (Decidable (start ≤ b ∧ b ≤ start + LOGBLOCKS))

instance (start : Nat) (tx : Tx) : Decidable (TxOk start tx) :=
  inferInstanceAs (Decidable (∀ w ∈ tx, ¬ InLog start w.1 ∧ w.1 < 2 ^ 32))

def copies (c : Disk) (ps : List (Nat × Nat)) : List (Nat × Block) :=
  ps.map (fun p => (p.2, c p.1))

theorem HeadOk.nil (start : Nat) : HeadOk start [] := ⟨by simp, by simp, by simp⟩

theorem mem_logSlots {start : Nat} {lh : List Nat} {p : Nat × Nat}
    (h : p ∈ logSlots start lh) : p.1 ∈ lh ∧ start < p.2 ∧ p.2 ≤ start + lh.length := by
  obtain ⟨b, s⟩ := p
  obtain ⟨hs, hl, hb⟩ := List.mem_zipIdx h
  exact ⟨hb ▸ List.getElem_mem _, by dsimp only; omega, by dsimp only; omega⟩

theorem HeadOk.slot_inLog {start : Nat} {lh : List Nat} (h : HeadOk start lh) {p : Nat × Nat}
    (hp : p ∈ logSlots start lh) : InLog start p.2 := by
  have hs := mem_logSlots hp
  have hl := h.length_le
  exact ⟨by omega, by omega⟩

theorem HeadOk.slot_ne {start : Nat} {lh : List Nat} (h : HeadOk start lh) {p q : Nat × Nat}
    (hp : p ∈ logSlots start lh) (hq : q ∈ logSlots start lh) : p.1 ≠ q.2 := by
  intro he
  exact h.home p.1 (mem_logSlots hp).1 (he ▸ h.slot_inLog hq)

theorem foldl_copyBlock (ps : List (Nat × Nat)) (st : LogState)
    (h : ∀ p ∈ ps, ∀ q ∈ ps, p.1 ≠ q.2) :
    ps.foldl copyBlock st =
      { st with
        disk := applyWrites (copies st.cache ps) st.disk
        cache := applyWrites (copies st.cache ps) st.cache
        trace := st.trace ++ copies st.cache ps } := by
  induction ps generalizing st with
  | nil => simp [copies]
  | cons p ps ih =>
    have hps : ∀ q ∈ ps, ∀ r ∈ ps, q.1 ≠ r.2 :=
      fun q hq r hr => h q (by simp [hq]) r (by simp [hr])
    have hc : copies (copyBlock st p).cache ps = copies st.cache ps := by
      apply List.map_congr_left
      intro q hq
      simp [copyBlock, bwrite, putBuffer,
        Function.update_of_ne (h q (by simp [hq]) p (by simp))]
    rw [List.foldl_cons, ih _ hps, hc]
    simp [copies, copyBlock, bwrite, putBuffer]

theorem putWords_below (l : List Nat) (k off w : Nat) (b : Block) (h : off + w ≤ 4 * (k + 1)) :
    getLE ((l.zipIdx k).foldl (fun b e => putLE b (4 * (e.2 + 1)) 4 e.1) b) off w =
      getLE b off w := by
  induction l generalizing k b with
  | nil => rfl
  | cons x l ih =>
    rw [List.zipIdx_cons, List.foldl_cons, ih (k + 1) _ (by omega),
      getLE_putLE_disjoint (by omega)]

theorem putWords_get (l : List Nat) (k : Nat) (b : Block) (hl : ∀ x ∈ l, x < 2 ^ 32)
    (i : Nat) (hi : i < l.length) :
    getLE ((l.zipIdx k).foldl (fun b e => putLE b (4 * (e.2 + 1)) 4 e.1) b) (4 * (k + i + 1)) 4 =
      l[i] := by
  induction l generalizing k b i with
  | nil => simp at hi
  | cons x l ih =>
    rw [List.zipIdx_cons, List.foldl_cons]
    cases i with
    | zero =>
      rw [Nat.add_zero, putWords_below l (k + 1) _ _ _ (by omega)]
      exact getLE_putLE_of_lt (hl x (by simp))
    | succ i =>
      have hh := ih (k + 1) (putLE b (4 * (k + 1)) 4 x) (fun y hy => hl y (by simp [hy])) i
        (by simpa using hi)
      simpa only [List.getElem_cons_succ, Nat.add_right_comm k 1 i, ← Nat.add_assoc] using hh

theorem decodeHead_encodeHead {start : Nat} {lh : List Nat} (h : HeadOk start lh) (b : Block) :
    decodeHead (encodeHead lh b) = lh := by
  have hlen : lh.length < 2 ^ 31 := lt_of_le_of_lt h.length_le (by decide)
  have hn : getLE (encodeHead lh b) 0 4 = lh.length := by
    rw [encodeHead, putWords_below lh 0 0 4 _ (by omega)]
    exact getLE_putLE_of_lt (by omega)
  have hi : (int32 (getLE (encodeHead lh b) 0 4)).toNat = lh.length := by
    rw [hn, int32, if_pos hlen, Int.toNat_natCast]
  apply List.ext_getElem
  · simp [decodeHead, hi]
  · intro i hi1 hi2
    have hh := putWords_get lh 0 (putLE b 0 4 lh.length) h.word i hi2
    simpa [decodeHead, encodeHead] using hh

@[simp] theorem encodeHead_nil_encodeHead_nil (b : Block) :
    encodeHead [] (encodeHead [] b) = encodeHead [] b := by
  have h := putLE_getLE (encodeHead [] b) 0 4
  rwa [show getLE (encodeHead [] b) 0 4 = 0 from getLE_putLE_of_lt (by decide)] at h

@[simp] theorem decodeHead_encodeHead_nil (b : Block) : decodeHead (encodeHead [] b) = [] :=
  decodeHead_encodeHead (HeadOk.nil 0) b

def homeWrites (c : Disk) (lh : List Nat) : List (Nat × Block) :=
  lh.map (fun b => (b, c b))

theorem copies_swap {start : Nat} {lh : List Nat} {c d : Disk}
    (h : ∀ p ∈ logSlots start lh, d p.2 = c p.1) :
    copies d ((logSlots start lh).map Prod.swap) = homeWrites c lh := by
  have hl : lh = (logSlots start lh).map Prod.fst := by simp [logSlots]
  have hh : (logSlots start lh).map (fun p => (p.1, d p.2)) =
      (logSlots start lh).map (fun p => (p.1, c p.1)) :=
    List.map_congr_left (fun p hp => by rw [h p hp])
  rw [homeWrites]
  nth_rewrite 2 [hl]
  simpa only [copies, List.map_map, Function.comp_def, Prod.fst_swap, Prod.snd_swap] using hh

theorem logSlots_read {start : Nat} {lh : List Nat} (c d : Disk) {p : Nat × Nat}
    (hp : p ∈ logSlots start lh) : applyWrites (copies c (logSlots start lh)) d p.2 = c p.1 := by
  have hf : ∀ q ∈ logSlots start lh, lh.getD (q.2 - (start + 1)) 0 = q.1 := by
    rintro ⟨b, s⟩ hq
    obtain ⟨_, hs, hb⟩ := List.mem_zipIdx hq
    rw [hb, List.getD_eq_getElem]
  have hh : applyWrites (copies c (logSlots start lh)) d p.2 =
      c (lh.getD (p.2 - (start + 1)) 0) := by
    apply applyWrites_eq_of_forall (f := fun s => c (lh.getD (s - (start + 1)) 0))
    · intro w hw
      obtain ⟨q, hq, rfl⟩ := List.mem_map.mp hw
      simp only [hf q hq]
    · intro hne
      exact absurd rfl (hne (p.2, c p.1) (List.mem_map.mpr ⟨p, hp, rfl⟩))
  rw [hh, hf p hp]

theorem applyWrites_homeWrites {c d : Disk} {lh : List Nat} {b : Nat} (h : b ∉ lh → d b = c b) :
    applyWrites (homeWrites c lh) d b = c b := by
  apply applyWrites_eq_of_forall
  · intro w hw
    obtain ⟨q, _, rfl⟩ := List.mem_map.mp hw
    rfl
  · intro hne
    apply h
    intro hb
    exact hne (b, c b) (List.mem_map.mpr ⟨b, hb, rfl⟩) rfl

theorem HeadOk.homeWrites_ne {start : Nat} {lh : List Nat} (h : HeadOk start lh) {c : Disk}
    {b : Nat} (hb : InLog start b) : ∀ w ∈ homeWrites c lh, w.1 ≠ b := by
  intro w hw he
  obtain ⟨q, hq, rfl⟩ := List.mem_map.mp hw
  subst he
  exact h.home q hq hb

theorem HeadOk.copies_ne {start : Nat} {lh : List Nat} (h : HeadOk start lh) {c : Disk}
    {b : Nat} (hb : ¬ InLog start b) : ∀ w ∈ copies c (logSlots start lh), w.1 ≠ b := by
  intro w hw he
  obtain ⟨p, hp, rfl⟩ := List.mem_map.mp hw
  subst he
  exact hb (h.slot_inLog hp)

theorem copies_ne_start {start : Nat} {lh : List Nat} {c : Disk} :
    ∀ w ∈ copies c (logSlots start lh), w.1 ≠ start := by
  intro w hw he
  obtain ⟨p, hp, rfl⟩ := List.mem_map.mp hw
  exact absurd he (Nat.ne_of_gt (mem_logSlots hp).2.1)

theorem inLog_start (start : Nat) : InLog start start := ⟨le_refl _, by omega⟩

end OsProject
