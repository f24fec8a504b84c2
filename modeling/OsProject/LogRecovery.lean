import OsProject.LogTrace

/-! Recovery as a whole. It installs the blocks the header names and erases the header, and it
may be cut off and started again any number of times. -/

namespace OsProject

def recoverDisk (start : Nat) (d : Disk) : Disk := (recoverFromLog start (boot d)).disk

def crashAt (d : Disk) (trace : List (Nat × Block)) (k : Nat) : Disk :=
  applyWrites (trace.take k) d

def crashedRecoveries (start : Nat) (d : Disk) (ks : List Nat) : Disk :=
  ks.foldl (fun d k => crashAt d (recoverFromLog start (boot d)).trace k) d

def recoveryTrace (start : Nat) (lh : List Nat) (d : Disk) : List (Nat × Block) :=
  copies d ((logSlots start lh).map Prod.swap) ++ [(start, encodeHead [] (d start))]

theorem recoverFromLog_boot {start : Nat} {d : Disk} (h : HeadOk start (decodeHead (d start))) :
    recoverFromLog start (boot d) =
      ⟨applyWrites (recoveryTrace start (decodeHead (d start)) d) d,
        applyWrites (recoveryTrace start (decodeHead (d start)) d) d, [],
        recoveryTrace start (decodeHead (d start)) d⟩ := by
  have hne : ∀ p ∈ (logSlots start (decodeHead (d start))).map Prod.swap,
      ∀ q ∈ (logSlots start (decodeHead (d start))).map Prod.swap, p.1 ≠ q.2 := by
    intro x hx y hy
    obtain ⟨p, hp, rfl⟩ := List.mem_map.mp hx
    obtain ⟨q, hq, rfl⟩ := List.mem_map.mp hy
    exact (h.slot_ne hq hp).symm
  have hs : applyWrites (copies d ((logSlots start (decodeHead (d start))).map Prod.swap)) d start =
      d start := by
    apply applyWrites_of_not_mem
    intro w hw
    obtain ⟨x, hx, rfl⟩ := List.mem_map.mp hw
    obtain ⟨p, hp, rfl⟩ := List.mem_map.mp hx
    have hb := h.home p.1 (mem_logSlots hp).1
    intro he
    rw [show p.1 = start from he] at hb
    exact hb (inLog_start start)
  simp only [recoverFromLog, installTrans, readHead, boot, foldl_copyBlock _ _ hne, writeHead,
    bwrite, putBuffer, hs, recoveryTrace, applyWrites_append, applyWrites_cons, applyWrites_nil,
    Function.update_self, List.nil_append]

theorem recoverDisk_eq {start : Nat} {d : Disk} (h : HeadOk start (decodeHead (d start))) :
    recoverDisk start d = applyWrites (recoveryTrace start (decodeHead (d start)) d) d := by
  rw [recoverDisk, recoverFromLog_boot h]

theorem recoverDisk_clean {start : Nat} {d : Disk} (h : decodeHead (d start) = []) :
    recoverDisk start d = Function.update d start (encodeHead [] (d start)) := by
  rw [recoverDisk_eq (h ▸ HeadOk.nil start), h]
  rfl

theorem recoverDisk_start {start : Nat} {d : Disk} (h : HeadOk start (decodeHead (d start))) :
    recoverDisk start d start = encodeHead [] (d start) := by
  rw [recoverDisk_eq h, recoveryTrace, applyWrites_append, applyWrites_cons, applyWrites_nil,
    Function.update_self]

theorem homeEq_update_start {start : Nat} (d : Disk) (x : Block) :
    HomeEq start (Function.update d start x) d := by
  intro b hb
  apply Function.update_of_ne
  rintro rfl
  exact hb (inLog_start b)

theorem HomeEq.trans {start : Nat} {d e f : Disk} (h : HomeEq start d e) (h' : HomeEq start e f) :
    HomeEq start d f := fun b hb => (h b hb).trans (h' b hb)

theorem HomeEq.applyWrites {start : Nat} {d e : Disk} (h : HomeEq start d e)
    (ws : List (Nat × Block)) : HomeEq start (applyWrites ws d) (applyWrites ws e) :=
  fun b hb => applyWrites_congr (fun _ => h b hb)

theorem recoverDisk_crashAt {start : Nat} {d : Disk} (h : HeadOk start (decodeHead (d start)))
    (k : Nat) :
    HeadOk start (decodeHead (crashAt d (recoverFromLog start (boot d)).trace k start)) ∧
      recoverDisk start (crashAt d (recoverFromLog start (boot d)).trace k) =
        recoverDisk start d := by
  rw [recoverFromLog_boot h]
  simp only [crashAt]
  rcases take_append_cons_cases (copies d ((logSlots start (decodeHead (d start))).map Prod.swap))
    [] (start, encodeHead [] (d start)) k with ⟨j, hj⟩ | ⟨j, hj⟩
  · rw [recoveryTrace, hj]
    have hin : ∀ b, InLog start b → applyWrites
        ((copies d ((logSlots start (decodeHead (d start))).map Prod.swap)).take j) d b = d b := by
      intro b hb
      apply applyWrites_of_not_mem
      intro w hw he
      obtain ⟨x, hx, rfl⟩ := List.mem_map.mp (List.mem_of_mem_take hw)
      obtain ⟨p, hp, rfl⟩ := List.mem_map.mp hx
      subst he
      exact h.home p.1 (mem_logSlots hp).1 hb
    have hs := hin start (inLog_start start)
    refine ⟨by rwa [hs], ?_⟩
    have ht : copies (applyWrites
        ((copies d ((logSlots start (decodeHead (d start))).map Prod.swap)).take j) d)
          ((logSlots start (decodeHead (d start))).map Prod.swap) =
        copies d ((logSlots start (decodeHead (d start))).map Prod.swap) := by
      apply List.map_congr_left
      intro x hx
      obtain ⟨p, hp, rfl⟩ := List.mem_map.mp hx
      rw [Prod.fst_swap, hin p.2 (h.slot_inLog hp)]
    rw [recoverDisk_eq (by rwa [hs]), recoverDisk_eq h, recoveryTrace, hs, ht, recoveryTrace,
      applyWrites_append, applyWrites_take, ← applyWrites_append]
  · have hd : applyWrites ((recoveryTrace start (decodeHead (d start)) d).take k) d =
        recoverDisk start d := by
      rw [recoverDisk_eq h, recoveryTrace, hj, List.take_nil]
    have hs := recoverDisk_start h
    have hc : decodeHead (recoverDisk start d start) = [] := by
      rw [hs, decodeHead_encodeHead_nil]
    rw [hd]
    refine ⟨hc ▸ HeadOk.nil start, ?_⟩
    rw [recoverDisk_clean hc, hs, encodeHead_nil_encodeHead_nil, ← hs, Function.update_eq_self]

theorem recoverDisk_crashedRecoveries {start : Nat} (ks : List Nat) {d : Disk}
    (h : HeadOk start (decodeHead (d start))) :
    recoverDisk start (crashedRecoveries start d ks) = recoverDisk start d := by
  induction ks generalizing d with
  | nil => rfl
  | cons k ks ih =>
    have hk := recoverDisk_crashAt h k
    exact (ih hk.1).trans hk.2

end OsProject
