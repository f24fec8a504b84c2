import OsProject.LogRecovery

/-! Crash atomicity of the redo log. At every crash point either the on-disk header is empty
and no home block has changed since the last commit, or the header and the log blocks hold the
whole transaction, and recovery installs it. -/

namespace OsProject

structure Logged (st : LogState) (tx : Tx) (st' : LogState) : Prop where
  disk : st'.disk = st.disk
  trace : st'.trace = st.trace
  cache : st'.cache = applyWrites tx st.cache
  mem_lh : ∀ b, b ∈ st'.lh ↔ b ∈ st.lh ∨ ∃ w ∈ tx, w.1 = b
  length_lh : st.lh.length ≤ LOGBLOCKS → st'.lh.length ≤ LOGBLOCKS

theorem logWrite_logged {st st' : LogState} {w : Nat × Block} (h : logWrite st w = some st') :
    Logged st [w] st' := by
  by_cases hfull : st.lh.length ≥ LOGBLOCKS
  · simp [logWrite, hfull] at h
  · by_cases hw : w.1 ∈ st.lh
    · obtain rfl : putBuffer st w.1 w.2 = st' := by simpa [logWrite, hfull, putBuffer, hw] using h
      refine ⟨rfl, rfl, rfl, ?_, id⟩
      intro b
      simp only [putBuffer, List.mem_singleton, exists_eq_left]
      exact ⟨.inl, fun hb => hb.elim id (fun he => he ▸ hw)⟩
    · obtain rfl : { putBuffer st w.1 w.2 with lh := st.lh ++ [w.1] } = st' := by
        simpa [logWrite, hfull, putBuffer, hw] using h
      refine ⟨rfl, rfl, rfl, by simp [eq_comm], ?_⟩
      intro _
      simp only [List.length_append, List.length_singleton]
      omega

theorem logTx_logged {st st' : LogState} {tx : Tx} (h : logTx st tx = some st') :
    Logged st tx st' := by
  induction tx generalizing st with
  | nil =>
    obtain rfl : st = st' := by simpa [logTx] using h
    exact ⟨rfl, rfl, rfl, by simp, id⟩
  | cons w tx ih =>
    simp only [logTx, List.foldlM_cons, Option.bind_eq_bind, Option.bind_eq_some_iff] at h
    obtain ⟨mid, hw, hrest⟩ := h
    have hw := logWrite_logged hw
    have hrest := ih hrest
    refine ⟨hrest.disk.trans hw.disk, hrest.trace.trans hw.trace, ?_, ?_, ?_⟩
    · rw [hrest.cache, hw.cache]
      rfl
    · intro b
      rw [hrest.mem_lh, hw.mem_lh]
      simp [or_assoc]
    · exact fun hl => hrest.length_lh (hw.length_lh hl)

structure Idle (start : Nat) (st : LogState) : Prop where
  lh : st.lh = []
  cache : st.cache = st.disk
  clean : decodeHead (st.disk start) = []

structure Pending (start : Nat) (st : LogState) : Prop where
  head : HeadOk start st.lh
  cache : ∀ b, b ∉ st.lh → st.cache b = st.disk b
  clean : decodeHead (st.disk start) = []

theorem Idle.pending {start : Nat} {st st' : LogState} {tx : Tx} (hi : Idle start st)
    (hok : TxOk start tx) (h : Logged st tx st') : Pending start st' := by
  have hmem : ∀ b, b ∈ st'.lh ↔ ∃ w ∈ tx, w.1 = b := by
    intro b
    rw [h.mem_lh, hi.lh]
    simp
  refine ⟨⟨h.length_lh (by simp [hi.lh]), ?_, ?_⟩, ?_, h.disk ▸ hi.clean⟩
  · intro b hb
    obtain ⟨w, hw, rfl⟩ := (hmem b).mp hb
    exact (hok w hw).1
  · intro b hb
    obtain ⟨w, hw, rfl⟩ := (hmem b).mp hb
    exact (hok w hw).2
  · intro b hb
    rw [h.cache, h.disk, hi.cache]
    apply applyWrites_of_not_mem
    exact fun w hw he => hb ((hmem b).mpr ⟨w, hw, he⟩)

/-- The writes of `write_log`, the committing header write, the writes of `install_trans`
and the header write that erases the transaction. -/
def commitTrace (start : Nat) (st : LogState) : List (Nat × Block) :=
  copies st.cache (logSlots start st.lh) ++ (start, encodeHead st.lh (st.cache start)) ::
    (homeWrites st.cache st.lh ++ [(start, encodeHead [] (encodeHead st.lh (st.cache start)))])

theorem commit_eq {start : Nat} {st : LogState} (h : HeadOk start st.lh)
    (hpos : 0 < st.lh.length) :
    commit start st =
      ⟨applyWrites (commitTrace start st) st.disk, applyWrites (commitTrace start st) st.cache, [],
        st.trace ++ commitTrace start st⟩ := by
  let c1 := Function.update (applyWrites (copies st.cache (logSlots start st.lh)) st.cache) start
    (encodeHead st.lh (st.cache start))
  have hs : applyWrites (copies st.cache (logSlots start st.lh)) st.cache start = st.cache start :=
    applyWrites_of_not_mem copies_ne_start
  have hw : writeHead start (writeLog start st) =
      ⟨Function.update (applyWrites (copies st.cache (logSlots start st.lh)) st.disk) start
          (encodeHead st.lh (st.cache start)), c1, st.lh,
        st.trace ++ copies st.cache (logSlots start st.lh) ++
          [(start, encodeHead st.lh (st.cache start))]⟩ := by
    simp only [writeHead, writeLog, foldl_copyBlock _ st (fun p hp q hq => h.slot_ne hp hq),
      bwrite, putBuffer, hs, Function.update_self, c1]
  have hne : ∀ x ∈ (logSlots start st.lh).map Prod.swap,
      ∀ y ∈ (logSlots start st.lh).map Prod.swap, x.1 ≠ y.2 := by
    intro x hx y hy
    obtain ⟨p, hp, rfl⟩ := List.mem_map.mp hx
    obtain ⟨q, hq, rfl⟩ := List.mem_map.mp hy
    exact (h.slot_ne hq hp).symm
  have hc : copies c1 ((logSlots start st.lh).map Prod.swap) = homeWrites st.cache st.lh := by
    apply copies_swap
    intro p hp
    exact (Function.update_of_ne (Nat.ne_of_gt (mem_logSlots hp).2.1) _ _).trans
      (logSlots_read _ _ hp)
  have hs' : applyWrites (homeWrites st.cache st.lh) c1 start = encodeHead st.lh (st.cache start) := by
    rw [applyWrites_of_not_mem (h.homeWrites_ne (inLog_start start))]
    exact Function.update_self _ _ _
  rw [commit, if_pos hpos, hw]
  simp only [installTrans, foldl_copyBlock _ _ hne, hc, writeHead, bwrite, putBuffer, hs',
    Function.update_self, commitTrace, applyWrites_append, applyWrites_cons, applyWrites_nil, c1,
    List.append_assoc, List.cons_append, List.nil_append]

theorem Pending.recover_committed {start : Nat} {st : LogState} (h : Pending start st)
    {d : Disk} (hhead : d start = encodeHead st.lh (st.cache start))
    (hslots : ∀ p ∈ logSlots start st.lh, d p.2 = st.cache p.1)
    (hhome : ∀ b, ¬ InLog start b → b ∉ st.lh → d b = st.disk b) :
    HeadOk start (decodeHead (d start)) ∧ HomeEq start (recoverDisk start d) st.cache := by
  have hdec : decodeHead (d start) = st.lh := by rw [hhead, decodeHead_encodeHead h.head]
  refine ⟨hdec ▸ h.head, ?_⟩
  intro b hb
  rw [recoverDisk_eq (hdec ▸ h.head), hdec, recoveryTrace, copies_swap hslots, applyWrites_append,
    applyWrites_cons, applyWrites_nil, homeEq_update_start _ _ b hb]
  exact applyWrites_homeWrites (fun hn => (hhome b hb hn).trans (h.cache b hn).symm)

theorem recover_clean {start : Nat} {d e : Disk} (hclean : decodeHead (d start) = [])
    (hhome : HomeEq start d e) :
    HeadOk start (decodeHead (d start)) ∧ HomeEq start (recoverDisk start d) e := by
  refine ⟨hclean ▸ HeadOk.nil start, ?_⟩
  rw [recoverDisk_clean hclean]
  exact (homeEq_update_start d _).trans hhome

def loggedDisk (start : Nat) (st : LogState) : Disk :=
  Function.update (applyWrites (copies st.cache (logSlots start st.lh)) st.disk) start
    (encodeHead st.lh (st.cache start))

theorem loggedDisk_start (start : Nat) (st : LogState) :
    loggedDisk start st start = encodeHead st.lh (st.cache start) := Function.update_self _ _ _

theorem loggedDisk_slot {start : Nat} {st : LogState} {p : Nat × Nat}
    (hp : p ∈ logSlots start st.lh) : loggedDisk start st p.2 = st.cache p.1 :=
  (Function.update_of_ne (Nat.ne_of_gt (mem_logSlots hp).2.1) _ _).trans (logSlots_read _ _ hp)

theorem loggedDisk_home {start : Nat} {st : LogState} (h : HeadOk start st.lh) :
    HomeEq start (loggedDisk start st) st.disk := fun b hb =>
  (homeEq_update_start _ _ b hb).trans (applyWrites_of_not_mem (h.copies_ne hb))

theorem applyWrites_commitTrace (start : Nat) (st : LogState) (ws : List (Nat × Block)) :
    applyWrites (copies st.cache (logSlots start st.lh) ++
      (start, encodeHead st.lh (st.cache start)) :: ws) st.disk =
        applyWrites ws (loggedDisk start st) := by
  rw [applyWrites_append, applyWrites_cons, loggedDisk]

theorem Pending.commitTrace_home {start : Nat} {st : LogState} (h : Pending start st) :
    HomeEq start (applyWrites (commitTrace start st) st.disk) st.cache := by
  intro b hb
  rw [commitTrace, applyWrites_commitTrace, applyWrites_append, applyWrites_cons, applyWrites_nil,
    homeEq_update_start _ _ b hb]
  exact applyWrites_homeWrites (fun hn => (loggedDisk_home h.head b hb).trans (h.cache b hn).symm)

theorem commitTrace_start (start : Nat) (st : LogState) :
    decodeHead (applyWrites (commitTrace start st) st.disk start) = [] := by
  simp [commitTrace, applyWrites_append]

theorem Pending.recover_installing {start : Nat} {st : LogState} (h : Pending start st)
    (m : Nat) (d : Disk)
    (hd : d = applyWrites ((homeWrites st.cache st.lh).take m) (loggedDisk start st)) :
    HeadOk start (decodeHead (d start)) ∧ HomeEq start (recoverDisk start d) st.cache := by
  have hlog : ∀ b, InLog start b → d b = loggedDisk start st b := fun b hb => by
    rw [hd]
    exact applyWrites_of_not_mem (fun w hw =>
      h.head.homeWrites_ne hb w (List.mem_of_mem_take hw))
  apply h.recover_committed
  · rw [hlog start (inLog_start start), loggedDisk_start]
  · intro p hp
    rw [hlog p.2 (h.head.slot_inLog hp), loggedDisk_slot hp]
  · intro b hb hn
    rw [hd, applyWrites_of_not_mem, loggedDisk_home h.head b hb]
    intro w hw he
    obtain ⟨q, hq, rfl⟩ := List.mem_map.mp (List.mem_of_mem_take hw)
    exact hn (he ▸ hq)

theorem Pending.crash_commit {start : Nat} {st : LogState} (h : Pending start st) (k : Nat) :
    HeadOk start (decodeHead (crashAt st.disk (commitTrace start st) k start)) ∧
      (HomeEq start (recoverDisk start (crashAt st.disk (commitTrace start st) k)) st.disk ∨
        HomeEq start (recoverDisk start (crashAt st.disk (commitTrace start st) k)) st.cache) := by
  simp only [crashAt]
  rcases take_append_cons_cases (copies st.cache (logSlots start st.lh))
    (homeWrites st.cache st.lh ++ [(start, encodeHead [] (encodeHead st.lh (st.cache start)))])
    (start, encodeHead st.lh (st.cache start)) k with ⟨j, hj⟩ | ⟨j, hj⟩
  · -- only log blocks have been written, and the header still says that nothing is committed
    rw [commitTrace, hj]
    have hs : applyWrites ((copies st.cache (logSlots start st.lh)).take j) st.disk start =
        st.disk start :=
      applyWrites_of_not_mem (fun w hw => copies_ne_start w (List.mem_of_mem_take hw))
    have hr := recover_clean (e := st.disk) (by rw [hs, h.clean]) (fun b hb =>
      applyWrites_of_not_mem (fun w hw => h.head.copies_ne hb w (List.mem_of_mem_take hw)))
    exact ⟨hr.1, .inl hr.2⟩
  · rcases take_append_cons_cases (homeWrites st.cache st.lh) []
      (start, encodeHead [] (encodeHead st.lh (st.cache start))) j with ⟨m, hm⟩ | ⟨m, hm⟩
    · have hr := h.recover_installing m _ rfl
      rw [commitTrace, hj, applyWrites_commitTrace, hm]
      exact ⟨hr.1, .inr hr.2⟩
    · have ht : (commitTrace start st).take k = commitTrace start st := by
        rw [commitTrace, hj, hm, List.take_nil]
      have hr := recover_clean (commitTrace_start start st) h.commitTrace_home
      rw [ht]
      exact ⟨hr.1, .inr hr.2⟩

def commitWrites (start : Nat) (st : LogState) : List (Nat × Block) :=
  if 0 < st.lh.length then commitTrace start st else []

theorem Pending.cache_eq_of_nil {start : Nat} {st : LogState} (h : Pending start st)
    (hlh : ¬ 0 < st.lh.length) : st.cache = st.disk :=
  funext (fun b => h.cache b (by simp [List.eq_nil_of_length_eq_zero (Nat.eq_zero_of_not_pos hlh)]))

theorem Pending.commit_spec {start : Nat} {st : LogState} (h : Pending start st) :
    Idle start (commit start st) ∧ HomeEq start (commit start st).disk st.cache ∧
      (commit start st).trace = st.trace ++ commitWrites start st ∧
      (commit start st).disk = applyWrites (commitWrites start st) st.disk := by
  by_cases hpos : 0 < st.lh.length
  · have hcache : applyWrites (commitTrace start st) st.cache =
        applyWrites (commitTrace start st) st.disk := by
      funext b
      apply applyWrites_congr
      intro hne
      apply h.cache
      intro hb
      exact hne (b, st.cache b) (by simp [commitTrace, homeWrites, hb]) rfl
    rw [commit_eq h.head hpos, commitWrites, if_pos hpos]
    exact ⟨⟨rfl, hcache, commitTrace_start start st⟩, h.commitTrace_home, rfl, rfl⟩
  · have hc := h.cache_eq_of_nil hpos
    have he : commit start st = st := by rw [commit, if_neg hpos]
    rw [he, commitWrites, if_neg hpos]
    exact ⟨⟨List.eq_nil_of_length_eq_zero (by omega), hc, h.clean⟩, fun b _ => by rw [hc],
      by simp, rfl⟩

theorem Pending.crash_commitWrites {start : Nat} {st : LogState} (h : Pending start st) (k : Nat) :
    HeadOk start (decodeHead (crashAt st.disk (commitWrites start st) k start)) ∧
      (HomeEq start (recoverDisk start (crashAt st.disk (commitWrites start st) k)) st.disk ∨
        HomeEq start (recoverDisk start (crashAt st.disk (commitWrites start st) k)) st.cache) := by
  by_cases hpos : 0 < st.lh.length
  · rw [commitWrites, if_pos hpos]
    exact h.crash_commit k
  · have hr := recover_clean h.clean (e := st.disk) (fun _ _ => rfl)
    simpa [commitWrites, hpos, crashAt] using ⟨hr.1, Or.inl hr.2⟩

structure RunOk (start : Nat) (d0 : Disk) (txs : List Tx) (st : LogState) : Prop where
  idle : Idle start st
  disk : st.disk = applyWrites st.trace d0
  home : HomeEq start st.disk (applyWrites txs.flatten d0)

theorem runTxs_append_singleton {start : Nat} {st st' : LogState} {txs : List Tx} {tx : Tx}
    (h : runTxs start st (txs ++ [tx]) = some st') :
    ∃ mid mid', runTxs start st txs = some mid ∧ logTx mid tx = some mid' ∧
      commit start mid' = st' := by
  simp only [runTxs, List.foldlM_append, List.foldlM_cons, List.foldlM_nil, Option.bind_eq_bind,
    Option.bind_eq_some_iff, Option.map_eq_some_iff, Option.pure_def, Option.some.injEq] at h
  obtain ⟨mid, hmid, st'', ⟨mid', hlog, hcommit⟩, rfl⟩ := h
  exact ⟨mid, mid', hmid, hlog, hcommit⟩

theorem runOk_of_runTxs {start : Nat} {d0 : Disk} (hclean : decodeHead (d0 start) = [])
    {txs : List Tx} (hok : ∀ tx ∈ txs, TxOk start tx) {st : LogState}
    (h : runTxs start (boot d0) txs = some st) : RunOk start d0 txs st := by
  induction txs using List.reverseRecOn generalizing st with
  | nil =>
    obtain rfl : boot d0 = st := by simpa [runTxs] using h
    exact ⟨⟨rfl, rfl, hclean⟩, rfl, fun _ _ => rfl⟩
  | append_singleton txs tx ih =>
    obtain ⟨mid, mid', hmid, hlog, rfl⟩ := runTxs_append_singleton h
    have hm := ih (fun t ht => hok t (by simp [ht])) hmid
    have hl := logTx_logged hlog
    have hc := (hm.idle.pending (hok tx (by simp)) hl).commit_spec
    refine ⟨hc.1, ?_, ?_⟩
    · rw [hc.2.2.2, hc.2.2.1, hl.disk, hl.trace, hm.disk, applyWrites_append]
    · rw [List.flatten_append, List.flatten_singleton, applyWrites_append]
      have hh := hm.home.applyWrites tx
      rw [← hm.idle.cache, ← hl.cache] at hh
      exact hc.2.1.trans hh

theorem runTxs_trace_le {start : Nat} {d0 : Disk} (hclean : decodeHead (d0 start) = [])
    {txs : List Tx} (hok : ∀ tx ∈ txs, TxOk start tx) {st : LogState}
    (h : runTxs start (boot d0) txs = some st) {i : Nat} {si : LogState}
    (hi : runTxs start (boot d0) (txs.take i) = some si) :
    si.trace.length ≤ st.trace.length := by
  induction txs using List.reverseRecOn generalizing st with
  | nil => simp_all
  | append_singleton txs tx ih =>
    obtain ⟨mid, mid', hmid, hlog, rfl⟩ := runTxs_append_singleton h
    have hok' : ∀ t ∈ txs, TxOk start t := fun t ht => hok t (by simp [ht])
    have hl := logTx_logged hlog
    have hc := ((runOk_of_runTxs hclean hok' hmid).idle.pending (hok tx (by simp)) hl).commit_spec
    rcases Nat.lt_or_ge txs.length i with hlt | hge
    · rw [List.take_of_length_le (by simpa using hlt), h] at hi
      cases hi
      exact le_refl _
    · rw [List.take_append_of_le_length hge] at hi
      have hh := ih hok' hmid hi
      rw [hc.2.2.1, hl.trace, List.length_append]
      omega

/-- `j` counts the transactions whose writes are all among the first `k` of the run, and at
most the one that the `k`-th write interrupts besides. -/
def CutAt (start : Nat) (d0 : Disk) (txs : List Tx) (k j : Nat) : Prop :=
  ∀ i ≤ txs.length, ∀ si, runTxs start (boot d0) (txs.take i) = some si →
    (si.trace.length ≤ k → i ≤ j) ∧ (k < si.trace.length → j ≤ i)

theorem crash_run {start : Nat} {d0 : Disk} (hclean : decodeHead (d0 start) = [])
    {txs : List Tx} (hok : ∀ tx ∈ txs, TxOk start tx) {st : LogState}
    (hrun : runTxs start (boot d0) txs = some st) (k : Nat) :
    ∃ j ≤ txs.length, CutAt start d0 txs k j ∧
      HomeEq start (recoverDisk start (crashAt d0 st.trace k))
        (applyWrites (txs.take j).flatten d0) ∧
      HeadOk start (decodeHead (crashAt d0 st.trace k start)) := by
  induction txs using List.reverseRecOn generalizing st with
  | nil =>
    obtain rfl : boot d0 = st := by simpa [runTxs] using hrun
    have hr := recover_clean (d := d0) hclean (fun _ _ => rfl)
    exact ⟨0, le_refl _, fun i hi si _ => ⟨fun _ => hi, fun _ => Nat.zero_le i⟩,
      by simpa [boot, crashAt] using hr.2, by simpa [boot, crashAt] using hr.1⟩
  | append_singleton txs tx ih =>
    obtain ⟨mid, mid', hmid, hlog, rfl⟩ := runTxs_append_singleton hrun
    have hok' : ∀ t ∈ txs, TxOk start t := fun t ht => hok t (by simp [ht])
    have hm := runOk_of_runTxs hclean hok' hmid
    have hl := logTx_logged hlog
    have hp := hm.idle.pending (hok tx (by simp)) hl
    have hc := hp.commit_spec
    have htrace : (commit start mid').trace = mid.trace ++ commitWrites start mid' := by
      rw [hc.2.2.1, hl.trace]
    have hafter : HomeEq start mid'.cache (applyWrites (txs ++ [tx]).flatten d0) := by
      rw [hl.cache, hm.idle.cache, List.flatten_append, List.flatten_singleton, applyWrites_append]
      exact hm.home.applyWrites tx
    rcases Nat.lt_or_ge k mid.trace.length with hk | hk
    · -- the crash interrupts an earlier transaction
      obtain ⟨j, hj, hi, hhome, hhead⟩ := ih hok' hmid
      have hcrash : crashAt d0 (commit start mid').trace k = crashAt d0 mid.trace k := by
        rw [crashAt, htrace, List.take_append_of_le_length hk.le, crashAt]
      rw [hcrash]
      refine ⟨j, by simp; omega, ?_, by rwa [List.take_append_of_le_length hj], hhead⟩
      intro i hile si hsi
      rcases Nat.lt_or_ge txs.length i with hlt | hge
      · rw [List.take_of_length_le (by simpa using hlt), hrun] at hsi
        cases hsi
        rw [htrace, List.length_append]
        exact ⟨fun _ => by omega, fun _ => by omega⟩
      · rw [List.take_append_of_le_length hge] at hsi
        exact hi i hge si hsi
    · obtain ⟨m, rfl⟩ : ∃ m, k = mid.trace.length + m := ⟨k - mid.trace.length, by omega⟩
      have hcrash : crashAt d0 (commit start mid').trace (mid.trace.length + m) =
          crashAt mid'.disk (commitWrites start mid') m := by
        rw [crashAt, htrace, List.take_length_add_append, applyWrites_append, ← hm.disk, crashAt,
          hl.disk]
      have hprefix : ∀ i ≤ txs.length, ∀ si,
          runTxs start (boot d0) ((txs ++ [tx]).take i) = some si →
            si.trace.length ≤ mid.trace.length := by
        intro i hile si hsi
        rw [List.take_append_of_le_length hile] at hsi
        exact runTxs_trace_le hclean hok' hmid hsi
      have hcr := hp.crash_commitWrites m
      rw [hcrash]
      rcases Nat.lt_or_ge m (commitWrites start mid').length with hlt | hge
      · -- the crash interrupts the last transaction
        have hlast : ∀ j, txs.length ≤ j → j ≤ txs.length + 1 →
            CutAt start d0 (txs ++ [tx]) (mid.trace.length + m) j := by
          intro j hj hj' i hile si hsi
          rcases Nat.lt_or_ge txs.length i with hti | hti
          · rw [List.take_of_length_le (by simpa using hti), hrun] at hsi
            cases hsi
            rw [htrace, List.length_append]
            exact ⟨fun _ => by omega, fun _ => by omega⟩
          · have hh := hprefix i hti si hsi
            exact ⟨fun _ => by omega, fun _ => by omega⟩
        rcases hcr.2 with ho | hn
        · refine ⟨txs.length, by simp, hlast _ (le_refl _) (by omega), ?_, hcr.1⟩
          rw [List.take_left]
          exact ho.trans (hl.disk ▸ hm.home)
        · refine ⟨txs.length + 1, by simp, hlast _ (by omega) (le_refl _), ?_, hcr.1⟩
          rw [List.take_of_length_le (by simp)]
          exact hn.trans hafter
      · -- every write of the run has reached the disk
        have hfull : crashAt mid'.disk (commitWrites start mid') m = (commit start mid').disk := by
          rw [crashAt, List.take_of_length_le hge, hc.2.2.2]
        have hr := recover_clean hc.1.clean hc.2.1
        rw [hfull]
        refine ⟨txs.length + 1, by simp, ?_, ?_, hr.1⟩
        · intro i hile si hsi
          have hh := runTxs_trace_le hclean hok hrun hsi
          rw [htrace, List.length_append] at hh
          simp only [List.length_append, List.length_singleton] at hile
          exact ⟨fun _ => hile, fun _ => by omega⟩
        · rw [List.take_of_length_le (by simp)]
          exact hr.2.trans hafter

/-- Recovery after a crash at any write of a run of transactions leaves the home blocks of a
prefix of them: all that were committed before the crash, and the interrupted one as a whole
or not at all. Recoveries that crash themselves change nothing, and the log is clean again. -/
theorem crash_recovers_prefix {start : Nat} {d0 : Disk} (hclean : decodeHead (d0 start) = [])
    {txs : List Tx} (hok : ∀ tx ∈ txs, TxOk start tx) {st : LogState}
    (hrun : runTxs start (boot d0) txs = some st) (k : Nat) :
    (∃ j ≤ txs.length, CutAt start d0 txs k j ∧
      HomeEq start (recoverDisk start (crashAt d0 st.trace k))
        (applyWrites (txs.take j).flatten d0)) ∧
      decodeHead (recoverDisk start (crashAt d0 st.trace k) start) = [] ∧
      ∀ ks, recoverDisk start (crashedRecoveries start (crashAt d0 st.trace k) ks) =
        recoverDisk start (crashAt d0 st.trace k) := by
  obtain ⟨j, hj, hcut, hhome, hhead⟩ := crash_run hclean hok hrun k
  refine ⟨⟨j, hj, hcut, hhome⟩, ?_, fun ks => recoverDisk_crashedRecoveries ks hhead⟩
  rw [recoverDisk_start hhead, decodeHead_encodeHead_nil]

theorem crash_recovers_prefix_absorbed :
    ∃ st, runTxs 2 (boot fun _ _ => 0)
        [[(60, fun _ => 1), (61, fun _ => 2)], [(60, fun _ => 3), (60, fun _ => 4)]] = some st ∧
      ∃ j ≤ 2, HomeEq 2 (recoverDisk 2 (crashAt (fun _ _ => 0) st.trace 8))
        (applyWrites ([[(60, fun _ => 1), (61, fun _ => 2)],
          [(60, fun _ => 3), (60, fun _ => 4)]].take j).flatten fun _ _ => 0) := by
  have hrun : (runTxs 2 (boot fun _ _ => 0)
      [[(60, fun _ => 1), (61, fun _ => 2)], [(60, fun _ => 3), (60, fun _ => 4)]]).isSome := rfl
  obtain ⟨st, hst⟩ := Option.isSome_iff_exists.mp hrun
  obtain ⟨⟨j, hj, _, hhome⟩, _⟩ := crash_recovers_prefix (by decide)
    (by decide) hst 8
  exact ⟨st, hst, j, hj, hhome⟩

end OsProject
