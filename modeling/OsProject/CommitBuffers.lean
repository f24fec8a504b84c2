import OsProject.BioSpec
import OsProject.LogSpace
import OsProject.LogTrace

/-! The buffers that `commit` needs. Every logged block keeps its buffer pinned, and `write_log`
needs one more buffer for the log block, so a commit of `NBUF` blocks panics. -/

namespace OsProject

variable {s : Bio} {held lh : List Nat} {start : Nat} {p : Nat × Nat}

theorem writeLogBlock_spec (h : Refs s held []) (hmem : p.1 ∈ held) (hne : p.1 ≠ p.2)
    (hroom : p.2 ∈ held ∨ held.toFinset.card < NBUF) (hlen : held.length + 2 < 2 ^ 32) :
    wp (Bio.writeLogBlock p) (fun _ s' => Refs s' held []) (fun _ => False) s := by
  simp only [Bio.writeLogBlock, wp_bind]
  refine wp_post (bread_spec h (by simp) (by omega) hroom) ?_
  rintro i s1 ⟨h1, hi1, -⟩
  refine wp_post (bread_spec h1 (by simpa using hne) (by simpa using hlen)
    (.inl (List.mem_cons_of_mem _ hmem))) ?_
  rintro j s2 ⟨h2, hj2, hk2⟩
  refine wp_post (store_spec h2 i _) ?_
  rintro _ s3 ⟨h3, hk3⟩
  have hi3 : (s3.buf i).IsBlock ROOTDEV p.2 := hk3 i _ (by simp) (hk2 i _ (by simp) hi1)
  refine wp_post (bwrite_spec h3 hi3 (by simp)) ?_
  rintro _ s4 ⟨h4, hk4⟩
  have hj4 : (s4.buf j).IsBlock ROOTDEV p.1 := hk4 j _ (by simp) (hk3 j _ (by simp) hj2)
  refine wp_post (brelse_spec h4 (by simpa using hne) (by simp) hj4) ?_
  rintro _ s5 ⟨h5, hk5⟩
  have hi5 : (s5.buf i).IsBlock ROOTDEV p.2 := hk5 i _ (by simp) (hk4 i _ (by simp) hi3)
  refine wp_post (brelse_spec h5 (by simp) (by simp) hi5) ?_
  exact fun _ s6 h6 => h6.1

theorem installBlock_spec (h : Refs s (p.1 :: held) []) (hne : p.1 ≠ p.2)
    (hroom : p.2 ∈ p.1 :: held ∨ (p.1 :: held).toFinset.card < NBUF)
    (hlen : held.length + 3 < 2 ^ 32) :
    wp (Bio.installBlock false p) (fun _ s' => Refs s' held []) (fun _ => False) s := by
  simp only [Bio.installBlock, wp_bind]
  refine wp_post (bread_spec h (by simp) (by simp; omega) hroom) ?_
  rintro i s1 ⟨h1, hi1, -⟩
  refine wp_post (bread_spec h1 (by simpa using hne) (by simpa using hlen) (.inl (by simp))) ?_
  rintro j s2 ⟨h2, hj2, hk2⟩
  refine wp_post (store_spec h2 j _) ?_
  rintro _ s3 ⟨h3, hk3⟩
  have hi3 : (s3.buf i).IsBlock ROOTDEV p.2 := hk3 i _ (by simp) (hk2 i _ (by simp) hi1)
  have hj3 : (s3.buf j).IsBlock ROOTDEV p.1 := hk3 j _ (by simp) hj2
  refine wp_post (bwrite_spec h3 hj3 (by simp)) ?_
  rintro _ s4 ⟨h4, hk4⟩
  have hi4 := hk4 i _ (by simp) hi3
  have hj4 := hk4 j _ (by simp) hj3
  simp only [Bool.false_eq_true, if_false]
  refine wp_seq (bunpin_spec h4 (by simp) hj4) ?_
  rintro _ s5 ⟨h5, hk5⟩
  have h5' := h5.perm (List.Perm.refl _) (List.Perm.swap p.2 p.1 [])
  refine wp_seq (brelse_spec h5' (by simpa using hne.symm) (by simp) (hk5 i _ (by simp) hi4)) ?_
  rintro _ s6 ⟨h6, hk6⟩
  refine wp_post (brelse_spec h6 (by simp) (by simp)
    (hk6 j _ (by simp) (hk5 j _ (by simp) hj4))) ?_
  exact fun _ s7 h7 => h7.1

theorem writeHead_spec (h : Refs s held []) (hroom : start ∈ held ∨ held.toFinset.card < NBUF)
    (hlen : held.length + 1 < 2 ^ 32) :
    wp (Bio.writeHead start lh) (fun _ s' => Refs s' held []) (fun _ => False) s := by
  simp only [Bio.writeHead, wp_bind]
  refine wp_post (bread_spec h (by simp) hlen hroom) ?_
  rintro i s1 ⟨h1, hi1, -⟩
  refine wp_post (store_spec h1 i _) ?_
  rintro _ s2 ⟨h2, hk2⟩
  have hi2 := hk2 i _ (by simp) hi1
  refine wp_post (bwrite_spec h2 hi2 (by simp)) ?_
  rintro _ s3 ⟨h3, hk3⟩
  refine wp_post (brelse_spec h3 (by simp) (by simp) (hk3 i _ (by simp) hi2)) ?_
  exact fun _ s4 h4 => h4.1

structure HomeBlocks (start : Nat) (lh : List Nat) : Prop where
  nodup : lh.Nodup
  home : ∀ b ∈ lh, ¬ InLog start b

theorem slot_inLog (hle : lh.length ≤ LOGBLOCKS) (hp : p ∈ logSlots start lh) :
    InLog start p.2 := by
  have hs := mem_logSlots hp
  exact ⟨by omega, by omega⟩

theorem commit_spec (h : Refs s lh []) (hh : HomeBlocks start lh) (hlt : lh.length < NBUF) :
    wp (Bio.commit start lh) (fun _ s' => Refs s' [] []) (fun _ => False) s := by
  have hle : lh.length ≤ LOGBLOCKS := Nat.le_of_lt hlt
  have hbound : LOGBLOCKS + 4 < 2 ^ 32 := by decide
  have hne : ∀ q ∈ logSlots start lh, q.1 ≠ q.2 := fun q hq he =>
    hh.home q.1 (mem_logSlots hq).1 (he ▸ slot_inLog hle hq)
  have hroom : ∀ {l : List Nat}, l.length ≤ lh.length → l.toFinset.card < NBUF := fun {l} hl =>
    lt_of_le_of_lt (List.toFinset_card_le l) (by omega)
  simp only [Bio.commit, wp_ite, wp_pure, wp_bind]
  refine ⟨fun hpos => ?_, fun hz => ?_⟩
  · have hwrite : wp (Bio.writeLog start lh) (fun _ s' => Refs s' lh []) (fun _ => False) s := by
      refine wp_post (wp_forM (I := fun l t => Refs t lh [] ∧ l ⊆ logSlots start lh) ?_
        ⟨h, List.Subset.refl _⟩) fun _ _ ht => ht.1
      rintro q l t ⟨ht, hsub⟩
      have hq := hsub (List.mem_cons_self)
      refine wp_post (writeLogBlock_spec ht (mem_logSlots hq).1 (hne q hq)
        (.inr (hroom (Nat.le_refl _))) (by omega)) ?_
      exact fun _ t' ht' => ⟨ht', fun x hx => hsub (List.mem_cons_of_mem _ hx)⟩
    refine wp_post hwrite ?_
    intro _ s1 h1
    refine wp_post (writeHead_spec h1 (.inr (hroom (Nat.le_refl _))) (by omega)) ?_
    intro _ s2 h2
    have hinstall : wp (Bio.installTrans start lh false) (fun _ s' => Refs s' [] [])
        (fun _ => False) s2 := by
      refine wp_post (wp_forM (I := fun l t => Refs t (l.map Prod.fst) [] ∧
        l ⊆ logSlots start lh ∧ l.length ≤ lh.length) ?_ ⟨?_, List.Subset.refl _, ?_⟩)
        fun _ _ ht => ht.1
      · rintro q l t ⟨ht, hsub, hl⟩
        rw [List.length_cons] at hl
        rw [List.map_cons] at ht
        refine wp_post (installBlock_spec ht (hne q (hsub List.mem_cons_self))
          (.inr (hroom (by simpa using hl))) (by rw [List.length_map]; omega)) ?_
        exact fun _ t' ht' => ⟨ht', fun x hx => hsub (List.mem_cons_of_mem _ hx), by omega⟩
      · rw [logSlots, List.zipIdx_map_fst]
        exact h2
      · rw [logSlots, List.length_zipIdx]
    refine wp_post hinstall ?_
    intro _ s3 h3
    exact writeHead_spec h3 (.inr (by decide)) (by decide)
  · rw [List.length_eq_zero_iff.mp (by omega : lh.length = 0)] at h
    exact h

theorem commit_full (h : Refs s lh []) (hh : HomeBlocks start lh) (hfull : NBUF ≤ lh.length) :
    Bio.commit start lh s = .error .noBuffers := by
  have hlog : start + 1 ∉ lh := fun hmem =>
    hh.home _ hmem ⟨by omega, Nat.add_le_add_left (by decide) start⟩
  cases lh with
  | nil => simp [NBUF, MAXOPBLOCKS] at hfull
  | cons b lh =>
    have hcard : NBUF ≤ (b :: lh).toFinset.card := by
      rwa [List.toFinset_card_of_nodup hh.nodup]
    have hread := bread_full h hlog hcard
    have hfirst : Bio.writeLogBlock (b, start + 1) s = .error .noBuffers := bind_of_error hread
    have hwrite : Bio.writeLog start (b :: lh) s = .error .noBuffers := by
      rw [Bio.writeLog, logSlots, List.zipIdx_cons, List.forM_cons]
      exact bind_of_error hfirst
    rw [Bio.commit, if_pos (by simp)]
    exact bind_of_error hwrite

def WritesHome {ι : Type} (start : Nat) (_ : LogSys ι) : LogEvent ι → Prop
  | .logWrite _ b => ¬ InLog start b
  | _ => True

instance {ι : Type} (start : Nat) (t : LogSys ι) : (e : LogEvent ι) → Decidable (WritesHome start t e)
  | .logWrite _ b => inferInstanceAs (Decidable (¬ InLog start b))
  | .beginOp _ | .endOp _ | .commit _ | .wake _ => inferInstanceAs (Decidable True)

section Runs

variable {ι : Type} [DecidableEq ι]

theorem lh_home_step {t : LogSys ι} {e : LogEvent ι} (h : ∀ b ∈ t.lh, ¬ InLog start b)
    (he : WritesHome start t e) : ∀ b ∈ (logStep t e).lh, ¬ InLog start b := by
  intro b hb
  rcases logStep_lh t e with hs | hs | ⟨i, b', rfl, hs⟩
  · exact h b (hs ▸ hb)
  · simp [hs] at hb
  · rw [hs, LogSys.mem_absorb] at hb
    rcases hb with hold | rfl
    · exact h b hold
    · exact he

variable [Fintype ι]

/-- A commit of blocks that the operations of a run have logged finds a buffer whenever it needs
one exactly when there are fewer than `NBUF` of them. -/
theorem commit_buffers_iff (events : List (LogEvent ι)) (hop : Meets logStep OpWithin {} events)
    (hhome : Meets logStep (WritesHome start) {} events)
    (hpins : Refs s (events.foldl logStep {}).lh []) :
    Bio.commit start (events.foldl logStep {}).lh s ≠ .error .noBuffers ↔
      (events.foldl logStep {}).lh.length < NBUF := by
  have hres : Reserved (events.foldl logStep {}) := inv_of_meets (fun _ _ h he => h.step he) .boot hop
  have hblocks : HomeBlocks start (events.foldl logStep {}).lh :=
    ⟨hres.nodup, inv_of_meets (I := fun t => ∀ b ∈ t.lh, ¬ InLog start b)
      (fun _ _ h he => lh_home_step h he) (by simp) hhome⟩
  constructor
  · intro hok
    by_contra hfull
    exact hok (commit_full hpins hblocks (by omega))
  · intro hlt he
    exact wp_error (commit_spec hpins hblocks hlt) he

end Runs

/-- A cache whose first buffers hold the blocks of `lh`, each of them pinned. -/
def pinnedCache (lh : List Nat) : Bio where
  buf i :=
    match lh[i.val]? with
    | some b => { valid := true, dev := ROOTDEV, blockno := b, refcnt := 1 }
    | none => {}

theorem pinnedCache_dev {i : Fin NBUF} :
    ((pinnedCache lh).buf i).dev = ROOTDEV ↔ ∃ b, lh[i.val]? = some b := by
  cases hb : lh[i.val]? <;> simp [pinnedCache, hb, ROOTDEV]

theorem pinnedCache_blockno {i : Fin NBUF} {b : Nat} (hb : lh[i.val]? = some b) :
    ((pinnedCache lh).buf i).blockno = b ∧ ((pinnedCache lh).buf i).refcnt = 1 := by
  simp [pinnedCache, hb]

theorem refs_pinnedCache (hnodup : lh.Nodup) (hle : lh.length ≤ NBUF) :
    Refs (pinnedCache lh) lh [] := by
  have hbound : NBUF < 2 ^ 32 := by decide
  refine ⟨List.reverse_perm _, fun i j hi hj => ?_, fun i => ?_, fun b hb => ?_, fun i => ?_, by simp,
    by omega⟩
  · obtain ⟨b, hb⟩ := pinnedCache_dev.mp hi
    obtain ⟨b', hb'⟩ := pinnedCache_dev.mp hj.1
    have he : b' = b := by
      rw [← (pinnedCache_blockno hb').1, hj.2, (pinnedCache_blockno hb).1]
    obtain ⟨hli, hgi⟩ := List.getElem?_eq_some_iff.mp hb
    obtain ⟨hlj, hgj⟩ := List.getElem?_eq_some_iff.mp hb'
    exact Fin.ext ((hnodup.getElem_inj_iff).mp (by rw [hgi, hgj, he]))
  · cases hb : lh[i.val]? with
    | some b =>
      obtain ⟨hn, hr⟩ := pinnedCache_blockno hb
      rw [if_pos (pinnedCache_dev.mpr ⟨b, hb⟩), hn, hr,
        List.count_eq_one_of_mem hnodup (List.mem_of_getElem? hb)]
      rfl
    | none =>
      rw [if_neg fun hd => by simpa [hb] using pinnedCache_dev.mp hd]
      simp [pinnedCache, hb]
  · obtain ⟨n, hn, hg⟩ := List.getElem_of_mem hb
    have hb' : lh[(⟨n, by omega⟩ : Fin NBUF).val]? = some b := by
      rw [List.getElem?_eq_getElem hn, hg]
    exact ⟨⟨n, by omega⟩, pinnedCache_dev.mpr ⟨b, hb'⟩, (pinnedCache_blockno hb').1⟩
  · cases hb : lh[i.val]? <;> simp [pinnedCache, hb]

theorem commit_two_blocks :
    Bio.commit 2 [100, 101] (pinnedCache [100, 101]) ≠ .error .noBuffers :=
  (commit_buffers_iff (ι := Fin 1)
    [.beginOp 0, .logWrite 0 100, .logWrite 0 101, .logWrite 0 100, .endOp 0] (by decide +kernel)
    (by decide +kernel) (refs_pinnedCache (by decide) (by decide))).mpr (by decide +kernel)

theorem commit_full_log :
    Meets logStep OpWithin {} fillAndEnd ∧ Meets logStep (WritesHome 2) {} fillAndEnd ∧
    Refs (pinnedCache (fillAndEnd.foldl logStep {}).lh) (fillAndEnd.foldl logStep {}).lh [] ∧
    Bio.commit 2 (fillAndEnd.foldl logStep {}).lh (pinnedCache (fillAndEnd.foldl logStep {}).lh) =
      .error .noBuffers := by
  have hrefs : Refs (pinnedCache (fillAndEnd.foldl logStep {}).lh)
      (fillAndEnd.foldl logStep {}).lh [] :=
    refs_pinnedCache (by decide +kernel) (by decide +kernel)
  exact ⟨by decide +kernel, by decide +kernel, hrefs,
    commit_full hrefs ⟨by decide +kernel, by decide +kernel⟩ (by decide +kernel)⟩

theorem logWrite_pins {b : Nat} {data : Block} (h : Refs s lh [])
    (hroom : b ∈ lh ∨ lh.toFinset.card < NBUF) (hlen : lh.length + 2 < 2 ^ 32) :
    wp (Bio.logWrite lh b data) (fun _ s' => Refs s' (LogSys.absorb lh b) []) (fun _ => False)
      s := by
  rw [Bio.logWrite]
  refine wp_seq (bread_spec h (by simp) (by omega) hroom) ?_
  rintro i s1 ⟨h1, hi1, -⟩
  refine wp_seq (store_spec h1 i _) ?_
  rintro _ s2 ⟨h2, hk2⟩
  have hi2 := hk2 i _ (by simp) hi1
  by_cases hb : b ∈ lh
  · rw [if_pos hb, LogSys.absorb, if_pos hb]
    refine wp_post (brelse_spec h2 (by simp) (by simp) hi2) ?_
    exact fun _ s3 h3 => h3.1
  · rw [if_neg hb, LogSys.absorb, if_neg hb]
    refine wp_seq (bpin_spec h2 (by simpa using hlen) hi2) ?_
    rintro _ s3 ⟨h3, hk3⟩
    refine wp_post (brelse_spec h3 (by simp) (by simp) (hk3 i _ (by simp) hi2)) ?_
    exact fun _ s4 h4 => h4.1.perm (List.perm_append_singleton b lh).symm (List.Perm.refl _)

/-- The blocks `ws` are written one after the other, and the header grows from `lh`. -/
def Bio.logWrites (ws : List (Nat × Block)) (lh : List Nat) : BioM (List Nat) :=
  ws.foldlM (fun lh w => do
    Bio.logWrite lh w.1 w.2
    return LogSys.absorb lh w.1) lh

/-- Afterwards exactly the blocks of the header are referenced. A header without repeats stays so,
and then each of them is referenced once. -/
theorem logWrites_pin {ws : List (Nat × Block)} (h : Refs s lh [])
    (hroom : (lh ++ ws.map Prod.fst).toFinset.card ≤ NBUF)
    (hlen : lh.length + ws.length + 2 < 2 ^ 32) :
    wp (Bio.logWrites ws lh)
      (fun lh' s' => lh' = ws.foldl (fun lh w => LogSys.absorb lh w.1) lh ∧ Refs s' lh' [] ∧
        (lh.Nodup → lh'.Nodup)) (fun _ => False) s := by
  induction ws generalizing s lh with
  | nil => exact ⟨rfl, h, id⟩
  | cons w ws ih =>
    have hall : (LogSys.absorb lh w.1 ++ ws.map Prod.fst).toFinset =
        (lh ++ (w :: ws).map Prod.fst).toFinset := by
      ext b
      by_cases hb : w.1 ∈ lh <;> simp [LogSys.absorb, hb]
    have hnew : w.1 ∈ lh ∨ lh.toFinset.card < NBUF := by
      refine or_iff_not_imp_left.mpr fun hb => lt_of_lt_of_le (Finset.card_lt_card ?_) hroom
      refine (Finset.ssubset_iff_of_subset fun b hb' => ?_).mpr ⟨w.1, by simp, by simpa using hb⟩
      simp_all
    have hgrow : (LogSys.absorb lh w.1).length ≤ lh.length + 1 := by
      rw [LogSys.absorb]
      split_ifs <;> simp
    rw [Bio.logWrites, List.foldlM_cons, wp_bind, wp_bind]
    rw [List.length_cons] at hlen
    refine wp_post (logWrite_pins h hnew (by omega)) fun _ s' h' => ?_
    rw [wp_pure]
    refine wp_post (ih h' (hall ▸ hroom) (by omega)) ?_
    rintro lh' t ⟨hlh, ht, hnodup⟩
    exact ⟨hlh, ht, fun hd => hnodup (LogSys.nodup_absorb hd w.1)⟩

theorem logWrites_pin_absorbed :
    wp (Bio.logWrites [(102, fun _ => 0), (100, fun _ => 1)] [100, 101])
      (fun lh' s' => lh' = [100, 101, 102] ∧ Refs s' lh' [] ∧ lh'.Nodup) (fun _ => False)
      (pinnedCache [100, 101]) :=
  wp_post (logWrites_pin (refs_pinnedCache (by decide) (by decide)) (by decide) (by decide))
    fun _ _ h => ⟨h.1, h.2.1, h.2.2 (by decide)⟩

end OsProject
