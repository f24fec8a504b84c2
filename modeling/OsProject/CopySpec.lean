import OsProject.CopyNeed

/-! `copyout` and `copyin`: which bytes they move, and when they succeed. -/

namespace OsProject.Vm

def storeBytes (va : Nat) (bs : List UInt8) (w : Nat) (e : Nat × PageData) : Nat × PageData :=
  (e.1, fun o => if va ≤ w * PGSIZE + o then bs.getD (w * PGSIZE + o - va) (e.2 o) else e.2 o)

def copyOut (f : Nat → Option (Nat × PageData)) (va : Nat) (bs : List UInt8) :
    Nat → Option (Nat × PageData) := fun w =>
  if w ∈ touched va bs.length then some (storeBytes va bs w ((f w).getD faulted)) else f w

def faultIn (f : Nat → Option (Nat × PageData)) (vs : Finset Nat) : Nat → Option (Nat × PageData) :=
  fun w => if w ∈ vs then some ((f w).getD faulted) else f w

/-- The byte at the address `a`. A missing page reads as zero. -/
def byteAt (f : Nat → Option (Nat × PageData)) (a : Nat) : UInt8 :=
  ((f (a / PGSIZE)).getD faulted).2 ⟨a % PGSIZE, Nat.mod_lt _ (by decide)⟩

section Views

variable {f : Nat → Option (Nat × PageData)} {va w : Nat} {bs bs' : List UInt8} {e : Nat × PageData}

theorem storeBytes_untouched (h : w ∉ touched va bs.length) : storeBytes va bs w e = e := by
  refine Prod.ext rfl (funext fun o => ?_)
  rw [storeBytes]
  dsimp only
  split_ifs with hle
  · rw [List.getD_eq_default]
    by_contra hlt
    refine h (mem_touched.mpr ⟨w * PGSIZE + o - va, Nat.not_le.mp hlt, ?_⟩)
    have ho := o.isLt
    rw [Nat.add_sub_cancel' hle]
    unfold PGSIZE at *
    omega
  · rfl

theorem storeBytes_append (va : Nat) (bs bs' : List UInt8) (w : Nat) (e : Nat × PageData) :
    storeBytes (va + bs.length) bs' w (storeBytes va bs w e) = storeBytes va (bs ++ bs') w e := by
  refine Prod.ext rfl (funext fun o => ?_)
  simp only [storeBytes]
  by_cases h1 : va ≤ w * PGSIZE + o
  · by_cases h2 : va + bs.length ≤ w * PGSIZE + o
    · rw [if_pos h2, if_pos h1, if_pos h1, List.getD_append_right _ _ _ _ (by omega),
        List.getD_eq_default bs _ (by omega), Nat.sub_sub]
    · rw [if_neg h2, if_pos h1, if_pos h1, List.getD_append _ _ _ _ (by omega)]
  · rw [if_neg (by omega), if_neg h1, if_neg h1]

theorem copyOut_append (f : Nat → Option (Nat × PageData)) (va : Nat) (bs bs' : List UInt8) :
    copyOut (copyOut f va bs) (va + bs.length) bs' = copyOut f va (bs ++ bs') := by
  funext w
  have hsplit : touched va (bs ++ bs').length =
      touched va bs.length ∪ touched (va + bs.length) bs'.length := by
    rw [List.length_append, touched_split (Nat.le_add_right _ _), Nat.add_sub_cancel_left]
  -- in a page that the first part does not touch, storing it changes nothing
  have hfirst : (copyOut f va bs w).getD faulted = storeBytes va bs w ((f w).getD faulted) := by
    unfold copyOut
    split_ifs with h1
    · rfl
    · rw [storeBytes_untouched h1]
  rw [copyOut, hfirst, storeBytes_append, copyOut, copyOut, hsplit]
  by_cases h2 : w ∈ touched (va + bs.length) bs'.length
  · rw [if_pos h2, if_pos (Finset.mem_union_right _ h2)]
  · rw [if_neg h2]
    by_cases h1 : w ∈ touched va bs.length
    · rw [if_pos h1, if_pos (Finset.mem_union_left _ h1), ← storeBytes_append,
        storeBytes_untouched h2]
    · rw [if_neg h1, if_neg (fun h => (Finset.mem_union.mp h).elim h1 h2)]

theorem copyOut_nil (f : Nat → Option (Nat × PageData)) (va : Nat) : copyOut f va [] = f := by
  funext w
  rw [copyOut, if_neg (by simp [touched])]

theorem faultIn_union (f : Nat → Option (Nat × PageData)) (vs vs' : Finset Nat) :
    faultIn (faultIn f vs) vs' = faultIn f (vs ∪ vs') := by
  funext w
  unfold faultIn
  by_cases h : w ∈ vs <;> by_cases h' : w ∈ vs' <;> simp [h, h']

theorem byteAt_faultIn (f : Nat → Option (Nat × PageData)) (vs : Finset Nat) (a : Nat) :
    byteAt (faultIn f vs) a = byteAt f a := by
  unfold byteAt faultIn
  split_ifs <;> rfl

end Views

section Bytes

variable {ι τ : Type} {L : Layout} {B : Books ι τ} {m : Phys}
  {own : Nat → Option (Use ι τ)} {i : ι} {b : τ} {r sz va v pa : Nat} {E : VmPanic → Prop}
  {bs : List UInt8}

theorem samePage_putBytes {mem : Buffer} {p off q : Nat} (hp : p % PGSIZE = 0)
    (hbs : off + bs.length ≤ PGSIZE) (hq : q ≠ p) : SamePage mem (putBytes mem (p + off) bs) q := by
  intro a ha
  unfold putBytes
  split_ifs with hle
  · rw [List.getD_eq_default]
    unfold PGROUNDDOWN PGSIZE at *
    omega
  · rfl

theorem Frames.putBytes (F : Frames L B m own) (hr : B.root i = some r) (hv : va / PGSIZE < B.top i)
    (hpa : entryPage (leaf m.mem r (va / PGSIZE)) = some pa) (hpos : 0 < bs.length)
    (hbs : va % PGSIZE + bs.length ≤ PGSIZE) :
    Edited L B B i b r m own ⟨putBytes m.mem (pa + va % PGSIZE) bs, m.freelist⟩ own
      (copyOut (view m.mem r) va bs) ∧
    (∀ q, q.length ≤ 2 → node (childOf (putBytes m.mem (pa + va % PGSIZE) bs)) r q =
      node (childOf m.mem) r q) ∧
    ∀ w, leaf (putBytes m.mem (pa + va % PGSIZE) bs) r w = leaf m.mem r w := by
  have hpage := F.user hr hv hpa
  have hsame : ∀ q, q ≠ pa → SamePage m.mem (Vm.putBytes m.mem (pa + va % PGSIZE) bs) q :=
    fun q hq => samePage_putBytes hpage.1.1 hbs hq
  have hspace := F.space_same hr (x := Vm.putBytes m.mem (pa + va % PGSIZE) bs)
    fun t q _ ho => hsame t (by rintro rfl; rw [hpage.2] at ho; cases ho)
  have hnot : ∀ k q, own pa ≠ some (.table k q) := fun k q he => by
    rw [hpage.2] at he
    cases he
  have hlocal : Local L (fun o => o = some (.user i (va / PGSIZE))) m own
      ⟨Vm.putBytes m.mem (pa + va % PGSIZE) bs, m.freelist⟩ own := local_write hpage.1 hpage.2 hsame
  have htouched : touched va bs.length = {va / PGSIZE} := by
    have hchunk : chunk va bs.length = bs.length := by
      unfold chunk PGROUNDDOWN PGSIZE at *
      omega
    rw [← touched_chunk hpos, hchunk]
  refine ⟨⟨F.fill hpage.1 hnot hsame, hlocal.mono ?_, ?_, fun w _ => hspace.2 w⟩, hspace⟩
  · rintro o rfl
    rfl
  · intro w hw
    rw [copyOut, htouched]
    by_cases hwv : w = va / PGSIZE
    · subst hwv
      rw [if_pos (Finset.mem_singleton_self _), view, view, hspace.2, hpa]
      refine congrArg some (Prod.ext rfl (funext fun o => ?_))
      have hva := Nat.div_add_mod va PGSIZE
      simp only [storeBytes, Option.map_some, Option.getD_some, pageAt, Vm.putBytes]
      have hiff : pa + va % PGSIZE ≤ pa + o ↔ va ≤ va / PGSIZE * PGSIZE + o := by
        rw [Nat.mul_comm (va / PGSIZE)]
        omega
      have hidx : pa + o - (pa + va % PGSIZE) = va / PGSIZE * PGSIZE + o - va := by
        rw [Nat.mul_comm (va / PGSIZE)]
        omega
      rw [hidx]
      exact if_congr hiff rfl rfl
    · rw [if_neg (by simpa using hwv)]
      exact hlocal.view_eq F hr hw (hspace.2 w) (by simpa using hwv)

def Reachable (fl : Nat) : Prop := fl &&& PTE_U ≠ 0

def Writable (fl : Nat) : Prop := fl &&& PTE_U ≠ 0 ∧ fl &&& PTE_W ≠ 0

theorem flagsOf_none {mem : Buffer} : flagsOf mem r v = none ↔ view mem r v = none := by
  rw [flagsOf, Option.map_eq_none_iff]

theorem flagsOf_some {mem : Buffer} (h : entryPage (leaf mem r v) = some pa) :
    flagsOf mem r v = some (PTE_FLAGS (leaf mem r v)) := by
  rw [flagsOf, view, h]
  rfl

theorem userAddr_some {mem : Buffer} : userAddr mem r v = some pa ↔
    entryPage (leaf mem r v) = some pa ∧ Reachable (PTE_FLAGS (leaf mem r v)) := by
  rw [userAddr, Reachable, and_flags (by decide)]
  split_ifs with h
  · exact (and_iff_left h).symm
  · simp [h]

theorem userPage_spec [DecidableEq ι] [DecidableEq τ] {Q : Nat → Phys → Prop}
    (F : Frames L B m own) (hr : B.root i = some r)
    (htop : B.top i ≤ 2 ^ 26) (hsz : sz ≤ B.top i * PGSIZE) (hb : B.held b = none)
    (habove : ∀ w, B.top i ≤ w → userAddr m.mem r w = none)
    (hreach : ∀ pa, v < B.top i → entryPage (leaf m.mem r v) = some pa →
      Reachable (PTE_FLAGS (leaf m.mem r v)) → pa ≠ 0 → Q pa m)
    (hbad : ¬ Usable Reachable (flagsOf m.mem r) sz v → Q 0 m)
    (hfail : ∀ m' own', flagsOf m.mem r v = none →
      Edited L B B i b r m own m' own' (view m.mem r) → (∀ w, leaf m'.mem r w = leaf m.mem r w) →
      m.freelist.length < 1 + (lacking m.mem r {v}).card → Q 0 m')
    (hok : ∀ c m' own', v < B.top i → flagsOf m.mem r v = none → v * PGSIZE < sz →
      Edited L B B i b r m own m' own' (Function.update (view m.mem r) v (some faulted)) →
      Placed m.mem m'.mem r v c → NewTables m.mem m'.mem r (onPath v) →
      m.freelist.length = 1 + (lacking m.mem r {v}).card + m'.freelist.length → c ≠ 0 → Q c m') :
    wp (userPage L ⟨r, sz⟩ r (v * PGSIZE)) Q E m := by
  have hdiv : v * PGSIZE / PGSIZE = v := Nat.mul_div_cancel v (by decide)
  rw [userPage, wp_bind, wp_walkaddr, hdiv]
  by_cases hu : ∃ pa, userAddr m.mem r v = some pa
  · obtain ⟨pa, hpa⟩ := hu
    have hv : v < B.top i := by
      by_contra hge
      rw [habove v (by omega)] at hpa
      cases hpa
    have hmax : v * PGSIZE < MAXVA := by
      unfold MAXVA PGSIZE
      omega
    obtain ⟨hentry, huser⟩ := userAddr_some.mp hpa
    have hpos := (F.user hr hv hentry).1.pos
    rw [if_pos hmax, hpa, Option.getD_some, if_neg (by omega)]
    exact hreach pa hv hentry huser (by omega)
  · have hnone : userAddr m.mem r v = none := by
      cases ha : userAddr m.mem r v with
      | none => rfl
      | some pa => exact absurd ⟨pa, ha⟩ hu
    rw [hnone, Option.getD_none, ite_self, if_pos rfl]
    refine vmfault_spec F hr htop hsz hb ?_ ?_ ?_ <;> rw [hdiv]
    · intro h
      refine hbad ?_
      rintro (⟨fl, hfl, hok⟩ | ⟨hmissing, hlt⟩)
      · cases hpa : entryPage (leaf m.mem r v) with
        | none =>
          rw [flagsOf, view_none.mpr hpa] at hfl
          cases hfl
        | some pa =>
          rw [flagsOf_some hpa] at hfl
          cases hfl
          rw [userAddr_some.mpr ⟨hpa, hok⟩] at hnone
          cases hnone
      · rcases h with hge | hmapped
        · omega
        · exact hmapped (flagsOf_none.mp hmissing)
    · exact fun m' own' _ hmissing => hfail m' own' (flagsOf_none.mpr hmissing)
    · intro c m' own' hlt hmissing hedited hpage hnew hlen
      have hv : v < B.top i := by
        unfold PGSIZE at hlt hsz
        omega
      have hpos := (hedited.frames.user hr hv hpage.entry).1.pos
      exact hok c m' own' hv (flagsOf_none.mpr hmissing) hlt hedited hpage hnew hlen (by omega)

theorem flagsOf_congr {mem mem' : Buffer} (h : leaf mem' r v = leaf mem r v) :
    flagsOf mem' r v = flagsOf mem r v := by
  rw [flagsOf, flagsOf, view, view, h, Option.map_map, Option.map_map]
  rfl

theorem copyOut_congr {f g : Nat → Option (Nat × PageData)} {w : Nat} (h : f w = g w) :
    copyOut f va bs w = copyOut g va bs w := by
  rw [copyOut, copyOut, h]

theorem Edited.flagsOf_fault {m' : Phys} {own' : Nat → Option (Use ι τ)}
    (h : Edited L B B i b r m own m' own' (Function.update (view m.mem r) v (some faulted))) {w : Nat}
    (hw : w ≠ v) : flagsOf m'.mem r w = flagsOf m.mem r w := by
  by_cases hin : w < B.top i
  · rw [flagsOf, flagsOf, h.shows w hin, Function.update_of_ne hw]
  · exact flagsOf_congr (h.high w (by omega))

theorem Edited.fault_flags {m' : Phys} {own' : Nat → Option (Use ι τ)}
    (h : Edited L B B i b r m own m' own' (Function.update (view m.mem r) v (some faulted)))
    (hv : v < B.top i) (hpa : Placed m.mem m'.mem r v pa) :
    PTE_FLAGS (leaf m'.mem r v) = faulted.1 := by
  have hshows := h.shows v hv
  rw [Function.update_self, view, hpa.entry] at hshows
  exact congrArg Prod.fst (Option.some.inj hshows)

def Keeps (mem mem' : Buffer) (r : Nat) : Prop :=
  ∀ w, flagsOf mem r w ≠ none → leaf mem' r w = leaf mem r w

theorem Keeps.flagsOf {mem mem' : Buffer} (h : Keeps mem mem' r) (hv : flagsOf mem r v ≠ none) :
    Vm.flagsOf mem' r v = Vm.flagsOf mem r v := flagsOf_congr (h v hv)

theorem Keeps.trans {mem mem' mem'' : Buffer} (h : Keeps mem mem' r) (h' : Keeps mem' mem'' r) :
    Keeps mem mem'' r := by
  intro w hw
  rw [← h w hw]
  exact h' w (by rwa [h.flagsOf hw])

theorem Placed.keeps {mem mem' : Buffer} (h : Placed mem mem' r v pa) (hv : flagsOf mem r v = none) :
    Keeps mem mem' r := fun w hw => h.others w fun hwv => hw (hwv ▸ hv)

def CopiedOut (L : Layout) (B : Books ι τ) (i : ι) (b : τ) (r sz va : Nat) (src : List UInt8)
    (least : Nat) (m : Phys) (own : Nat → Option (Use ι τ)) (ret : Int) (m' : Phys) : Prop :=
  ∃ k own', least ≤ k ∧ k ≤ src.length ∧
    (∀ w ∈ touched va k, w < B.top i ∧ (flagsOf m.mem r w = none → w * PGSIZE < sz) ∧
      ∃ fl, flagsOf m'.mem r w = some fl ∧ Writable fl) ∧
    Keeps m.mem m'.mem r ∧
    Edited L B B i b r m own m' own' (copyOut (view m.mem r) va (src.take k)) ∧
    (ret = 0 ∧ k = src.length ∧ Admits Writable r sz m (touched va src.length) ∨
      ret = -1 ∧ ¬ Admits Writable r sz m (touched va src.length))

theorem copiedOut_fail {src : List UInt8} {m' : Phys} {own' : Nat → Option (Use ι τ)}
    (hedited : Edited L B B i b r m own m' own' (view m.mem r))
    (hleaf : ∀ w, leaf m'.mem r w = leaf m.mem r w)
    (h : ¬ Admits Writable r sz m (touched va src.length)) :
    CopiedOut L B i b r sz va src 0 m own (-1) m' := by
  refine ⟨0, own', le_rfl, Nat.zero_le _, by simp [touched_zero], fun w _ => hleaf w,
    hedited.congr fun w _ => ?_, .inr ⟨rfl, h⟩⟩
  rw [List.take_zero, copyOut_nil]

theorem copiedOut_empty (F : Frames L B m own) : CopiedOut L B i b r sz va [] 0 m own 0 m := by
  refine ⟨0, own, le_rfl, le_rfl, by simp [touched_zero], fun w _ => rfl,
    (Edited.refl F).congr fun w _ => ?_, .inl ⟨rfl, rfl, admits_empty Writable r sz m⟩⟩
  rw [List.take_nil, copyOut_nil]

theorem CopiedOut.store {src : List UInt8} {m1 m' : Phys} {own1 : Nat → Option (Use ι τ)} {ret : Int}
    (hsrc : 0 < src.length) (hv : va / PGSIZE < B.top i)
    (hflags : flagsOf m.mem r (va / PGSIZE) = some v) (hw : Writable v)
    (hstore : Edited L B B i b r m own m1 own1
      (copyOut (view m.mem r) va (src.take (chunk va src.length))))
    (hnode : ∀ q, q.length ≤ 2 → node (childOf m1.mem) r q = node (childOf m.mem) r q)
    (hleaf : ∀ w, leaf m1.mem r w = leaf m.mem r w)
    (hfree : m1.freelist = m.freelist)
    (h : CopiedOut L B i b r sz ((va / PGSIZE + 1) * PGSIZE) (src.drop (chunk va src.length)) 0 m1
      own1 ret m') :
    CopiedOut L B i b r sz va src 1 m own ret m' := by
  obtain ⟨k, own', -, hk, hpages, hkeeps, hedited, hret⟩ := h
  have hn : chunk va src.length ≤ src.length := chunk_le
  rw [List.length_drop] at hk hret
  have hadmits : Admits Writable r sz m (touched va src.length) ↔
      Admits Writable r sz m1
        (touched ((va / PGSIZE + 1) * PGSIZE) (src.length - chunk va src.length)) := by
    rw [touched_insert hsrc]
    exact admits_mapped hflags hw (congrArg List.length hfree) hnode
      fun w _ => flagsOf_congr (hleaf w)
  have hmapped : flagsOf m1.mem r (va / PGSIZE) = some v := by rw [flagsOf_congr (hleaf _), hflags]
  refine ⟨chunk va src.length + k, own', ?_, by omega, ?_, fun w hw => ?_,
    (hstore.trans hedited rfl).congr ?_, ?_⟩
  · have := chunk_pos va hsrc
    omega
  · rw [touched_add hsrc hk, Finset.forall_mem_insert]
    have hkept := hkeeps.flagsOf (hmapped ▸ Option.some_ne_none v)
    refine ⟨⟨hv, fun hnone => ?_, v, hkept.trans hmapped, hw⟩, fun w hin => ?_⟩
    · rw [hflags] at hnone
      cases hnone
    · rw [← flagsOf_congr (hleaf w)]
      exact hpages w hin
  · rw [hkeeps w (by rwa [flagsOf_congr (hleaf w)]), hleaf]
  · intro w hw
    have hlen : (src.take (chunk va src.length)).length = chunk va src.length := by
      rw [List.length_take, Nat.min_eq_left hn]
    rw [copyOut_congr (hstore.shows w hw), List.take_add, ← copyOut_append, hlen]
    by_cases hlt : chunk va src.length < src.length
    · rw [touched_next hlt]
    · rw [List.drop_of_length_le (by omega), List.take_nil, copyOut_nil, copyOut_nil]
  · rw [hadmits]
    rcases hret with ⟨h0, hk', ha⟩ | ⟨h1, ha⟩
    · exact .inl ⟨h0, by omega, ha⟩
    · exact .inr ⟨h1, ha⟩

theorem CopiedOut.fault {src : List UInt8} {m1 m' : Phys} {own1 : Nat → Option (Use ι τ)} {ret : Int}
    (hsrc : 0 < src.length) (hflags : flagsOf m.mem r (va / PGSIZE) = none)
    (hsz : va / PGSIZE * PGSIZE < sz)
    (hfault : Edited L B B i b r m own m1 own1
      (Function.update (view m.mem r) (va / PGSIZE) (some faulted)))
    (hplaced : Placed m.mem m1.mem r (va / PGSIZE) pa)
    (hmapped : flagsOf m1.mem r (va / PGSIZE) = some v) (hw : Writable v)
    (hnew : NewTables m.mem m1.mem r (onPath (va / PGSIZE)))
    (hfree : m.freelist.length = 1 + (lacking m.mem r {va / PGSIZE}).card + m1.freelist.length)
    (h : CopiedOut L B i b r sz va src 1 m1 own1 ret m') :
    CopiedOut L B i b r sz va src 0 m own ret m' := by
  obtain ⟨k, own', hk1, hk, hpages, hkeeps, hedited, hret⟩ := h
  have hnot := not_touched_next (va / PGSIZE) (src.length - chunk va src.length)
  have hadmits : Admits Writable r sz m (touched va src.length) ↔
      Admits Writable r sz m1 (touched va src.length) := by
    rw [touched_insert hsrc, admits_missing hflags hsz hnot hfree hnew, admits_mapped hmapped hw rfl]
    · exact fun q _ => rfl
    · exact fun w _ => rfl
    · exact fun w hw => hfault.flagsOf_fault (by rintro rfl; exact hnot hw)
  refine ⟨k, own', Nat.zero_le k, hk, fun w hw => ?_, (hplaced.keeps hflags).trans hkeeps,
    (hfault.trans hedited rfl).congr fun w hw => ?_, ?_⟩
  · obtain ⟨hlow, hbelow, hmapped'⟩ := hpages w hw
    refine ⟨hlow, fun hnone => ?_, hmapped'⟩
    by_cases hwv : w = va / PGSIZE
    · rw [hwv]
      exact hsz
    · exact hbelow ((hfault.flagsOf_fault hwv).trans hnone)
  · rw [copyOut, copyOut, hfault.shows w hw]
    by_cases hwv : w = va / PGSIZE
    · have hin : w ∈ touched va (src.take k).length := by
        rw [mem_touched, List.length_take]
        exact ⟨0, by omega, by rw [hwv, Nat.add_zero]⟩
      rw [if_pos hin, if_pos hin, hwv, Function.update_self, flagsOf_none.mp hflags]
      rfl
    · rw [Function.update_of_ne hwv]
  · rwa [hadmits]

theorem not_usable_above {ok : Nat → Prop} (hok : ∀ fl, ok fl → Reachable fl)
    (hsz : sz ≤ B.top i * PGSIZE) (habove : ∀ w, B.top i ≤ w → userAddr m.mem r w = none)
    (hv : B.top i ≤ v) : ¬ Usable ok (flagsOf m.mem r) sz v := by
  rintro (⟨fl, hfl, h⟩ | ⟨-, hlt⟩)
  · have hnone := habove v hv
    cases hpa : entryPage (leaf m.mem r v) with
    | none =>
      rw [flagsOf, view_none.mpr hpa] at hfl
      cases hfl
    | some pa =>
      rw [flagsOf_some hpa] at hfl
      cases hfl
      rw [userAddr_some.mpr ⟨hpa, hok _ h⟩] at hnone
      cases hnone
  · have := Nat.mul_le_mul_right PGSIZE hv
    omega

theorem Usable.mono {ok ok' : Nat → Prop} {f : Nat → Option Nat} {w : Nat} (h : Usable ok f sz w)
    (hok : ∀ fl, ok fl → ok' fl) : Usable ok' f sz w :=
  h.imp_left fun ⟨fl, hfl, hfl'⟩ => ⟨fl, hfl, hok fl hfl'⟩

theorem wp_writable {Q : Int → Phys → Prop} {k : VmM Int} (hv : v < 2 ^ 26)
    (hpa : entryPage (leaf m.mem r v) = some pa) (hne : pa ≠ 0)
    (hread : PTE_FLAGS (leaf m.mem r v) &&& PTE_W = 0 → Q (-1) m)
    (hwrite : PTE_FLAGS (leaf m.mem r v) &&& PTE_W ≠ 0 → wp k Q E m) :
    wp (if pa = 0 then pure (-1) else do
      match ← walk r (v * PGSIZE) false with
      | none => throw .kerneltrap
      | some entry =>
        let pte ← loadPte entry
        if pte &&& PTE_W = 0 then return -1
        k) Q E m := by
  have hmax : v * PGSIZE < MAXVA := by
    unfold MAXVA PGSIZE
    omega
  have hdiv : v * PGSIZE / PGSIZE = v := Nat.mul_div_cancel v (by decide)
  rw [← and_flags (by decide)] at hread hwrite
  rw [if_neg hne, wp_bind, wp_walk_lookup hmax, hdiv]
  cases ht : node (childOf m.mem) r (path v) with
  | none =>
    rw [leaf_missing ht] at hpa
    cases hpa
  | some t =>
    have hload : getLE m.mem (t + 8 * slot v) 8 = leaf m.mem r v := (leaf_eq (by omega) ht).symm
    rw [Option.map_some, wp_bind, wp_loadPte, hload]
    by_cases hw : leaf m.mem r v &&& PTE_W = 0
    · rw [if_pos hw]
      exact hread hw
    · rw [if_neg hw]
      exact hwrite hw

theorem copyoutLoop_spec [DecidableEq ι] [DecidableEq τ] (hr : B.root i = some r) (htop : B.top i ≤ 2 ^ 26)
    (hsz : sz ≤ B.top i * PGSIZE) (hb : B.held b = none) {turns : Nat} {src : List UInt8}
    (F : Frames L B m own) (habove : ∀ w, B.top i ≤ w → userAddr m.mem r w = none)
    (hturns : src.length ≤ turns) :
    wp (copyoutLoop L ⟨r, sz⟩ r turns va src) (CopiedOut L B i b r sz va src 0 m own) E m := by
  induction turns generalizing m own va src with
  | zero =>
    obtain rfl : src = [] := List.length_eq_zero_iff.mp (by omega)
    rw [copyoutLoop, if_neg (by simp)]
    exact copiedOut_empty F
  | succ turns ih =>
    by_cases hsrc : 0 < src.length
    · have hround : PGROUNDDOWN va = va / PGSIZE * PGSIZE := rfl
      have hoff : va - va / PGSIZE * PGSIZE = va % PGSIZE := by
        rw [Nat.mul_comm, Nat.mod_eq_sub]
      have hchunk : min (PGSIZE - va % PGSIZE) src.length = chunk va src.length := by
        rw [chunk, hround, hoff]
      -- the page is there: the bytes that fall into it are stored, and the loop goes on
      have hpage : ∀ m own pa, Frames L B m own →
          (∀ w, B.top i ≤ w → userAddr m.mem r w = none) → va / PGSIZE < B.top i →
          entryPage (leaf m.mem r (va / PGSIZE)) = some pa →
          Writable (PTE_FLAGS (leaf m.mem r (va / PGSIZE))) →
          wp (copyoutLoop L ⟨r, sz⟩ r turns ((va / PGSIZE * PGSIZE + PGSIZE) % 2 ^ 64)
            (src.drop (chunk va src.length))) (CopiedOut L B i b r sz va src 1 m own) E
            ⟨putBytes m.mem (pa + va % PGSIZE) (src.take (chunk va src.length)), m.freelist⟩ := by
        intro m own pa F habove hv hpa hw
        have hlen : (src.take (chunk va src.length)).length = chunk va src.length := by
          rw [List.length_take, Nat.min_eq_left chunk_le]
        obtain ⟨hedited, hnode, hleaf⟩ := F.putBytes (b := b) hr hv hpa
          (by rw [hlen]; exact chunk_pos va hsrc)
          (by rw [hlen]; unfold chunk PGROUNDDOWN PGSIZE; omega)
        have hnext : (va / PGSIZE * PGSIZE + PGSIZE) % 2 ^ 64 = (va / PGSIZE + 1) * PGSIZE := by
          unfold PGSIZE at *
          omega
        rw [hnext]
        refine wp_post (ih hedited.frames ?_ ?_) ?_
        · intro w hw
          rw [← habove w hw, userAddr, userAddr, hleaf]
        · have := chunk_pos va hsrc
          rw [List.length_drop]
          omega
        · intro ret m' h
          exact h.store hsrc hv (flagsOf_some hpa) hw hedited hnode hleaf rfl
      have hbad : ¬ Usable Writable (flagsOf m.mem r) sz (va / PGSIZE) →
          CopiedOut L B i b r sz va src 0 m own (-1) m := fun h =>
        copiedOut_fail (Edited.refl F) (fun _ => rfl)
          (by rw [touched_insert hsrc]; exact not_admits_bad h)
      have hreach : ∀ fl, Writable fl → Reachable fl := fun _ h => h.1
      rw [copyoutLoop, if_pos hsrc]
      simp only [hround, hoff, hchunk]
      by_cases hmax : MAXVA ≤ va / PGSIZE * PGSIZE
      · have hv : B.top i ≤ va / PGSIZE := by
          unfold MAXVA PGSIZE at *
          omega
        rw [if_pos hmax]
        exact hbad (not_usable_above hreach hsz habove hv)
      rw [if_neg hmax, wp_bind]
      refine userPage_spec F hr htop hsz hb habove ?_ ?_ ?_ ?_
      · intro pa hv hpa hu hne
        refine wp_writable (by omega) hpa hne ?_ ?_
        · intro hro
          refine hbad ?_
          rintro (⟨fl, hfl, hfl'⟩ | ⟨hnone, -⟩) <;> rw [flagsOf_some hpa] at *
          · cases hfl
            exact hfl'.2 hro
          · cases hnone
        · intro hw
          rw [wp_bind, wp_modify]
          refine wp_post (hpage m own pa F habove hv hpa ⟨hu, hw⟩) ?_
          rintro ret m' ⟨k, own', -, h⟩
          exact ⟨k, own', Nat.zero_le k, h⟩
      · intro h
        rw [if_pos rfl]
        exact hbad fun hus => h (hus.mono hreach)
      · intro m' own' hmissing hedited hleaf hfull
        rw [if_pos rfl]
        refine copiedOut_fail hedited hleaf ?_
        rw [touched_insert hsrc]
        exact not_admits_full hmissing hfull
      · intro c m1 own1 hv hmissing hlt hedited hc hnew hfree hne
        have hflags : PTE_FLAGS (leaf m1.mem r (va / PGSIZE)) = faulted.1 := hedited.fault_flags hv hc
        have hmapped : flagsOf m1.mem r (va / PGSIZE) = some faulted.1 := by
          rw [flagsOf_some hc.entry, hflags]
        have hw : Writable faulted.1 := by
          constructor <;> decide
        refine wp_writable (by omega) hc.entry hne ?_ ?_ <;> rw [hflags]
        · intro hro
          exact absurd hro hw.2
        · intro _
          have habove1 : ∀ w, B.top i ≤ w → userAddr m1.mem r w = none := by
            intro w hw
            rw [← habove w hw, userAddr, userAddr, hedited.high w hw]
          rw [wp_bind, wp_modify]
          refine wp_post (hpage m1 own1 c hedited.frames habove1 hv hc.entry ?_) ?_
          · rw [hflags]
            exact hw
          · intro ret m' h
            exact h.fault hsrc hmissing hlt hedited hc hmapped hw hnew hfree
    · obtain rfl : src = [] := List.length_eq_zero_iff.mp (by omega)
      rw [copyoutLoop, if_neg (by simp)]
      exact copiedOut_empty F

def CopiedIn (L : Layout) (B : Books ι τ) (i : ι) (b : τ) (r sz va len : Nat) (m : Phys)
    (own : Nat → Option (Use ι τ)) (res : Int × List UInt8) (m' : Phys) : Prop :=
  ∃ k own', k ≤ len ∧
    (∀ w ∈ touched va k, w < B.top i ∧ (flagsOf m.mem r w = none → w * PGSIZE < sz) ∧
      ∃ fl, flagsOf m'.mem r w = some fl ∧ Reachable fl) ∧
    Keeps m.mem m'.mem r ∧
    Edited L B B i b r m own m' own' (faultIn (view m.mem r) (touched va k)) ∧
    res.2 = (List.range k).map (fun j => byteAt (view m.mem r) (va + j)) ∧
    (res.1 = 0 ∧ k = len ∧ Admits Reachable r sz m (touched va len) ∨
      res.1 = -1 ∧ ¬ Admits Reachable r sz m (touched va len))

theorem copiedIn_fail {len : Nat} {m' : Phys} {own' : Nat → Option (Use ι τ)}
    (hedited : Edited L B B i b r m own m' own' (view m.mem r))
    (hleaf : ∀ w, leaf m'.mem r w = leaf m.mem r w)
    (h : ¬ Admits Reachable r sz m (touched va len)) :
    CopiedIn L B i b r sz va len m own (-1, []) m' := by
  refine ⟨0, own', Nat.zero_le _, by simp [touched_zero], fun w _ => hleaf w,
    hedited.congr fun w _ => ?_, rfl, .inr ⟨rfl, h⟩⟩
  rw [touched_zero, faultIn, if_neg (Finset.notMem_empty w)]

theorem copiedIn_empty (F : Frames L B m own) : CopiedIn L B i b r sz va 0 m own (0, []) m := by
  refine ⟨0, own, le_rfl, by simp [touched_zero], fun w _ => rfl,
    (Edited.refl F).congr fun w _ => ?_, rfl, .inl ⟨rfl, rfl, admits_empty Reachable r sz m⟩⟩
  rw [touched_zero, faultIn, if_neg (Finset.notMem_empty w)]

theorem byteAt_congr {f g : Nat → Option (Nat × PageData)} {a : Nat}
    (h : f (a / PGSIZE) = g (a / PGSIZE)) : byteAt f a = byteAt g a := by
  rw [byteAt, byteAt, h]

theorem bytesFrom_page {mem : Buffer} {n : Nat} (hpa : entryPage (leaf mem r (va / PGSIZE)) = some pa)
    (hn : va % PGSIZE + n ≤ PGSIZE) : bytesFrom mem (pa + va % PGSIZE) n =
      (List.range n).map fun j => byteAt (view mem r) (va + j) := by
  refine List.map_congr_left fun j hj => ?_
  have hj := List.mem_range.mp hj
  have hdiv : (va + j) / PGSIZE = va / PGSIZE := by
    unfold PGSIZE at *
    omega
  have hmod : (va + j) % PGSIZE = va % PGSIZE + j := by
    unfold PGSIZE at *
    omega
  rw [byteAt, hdiv, view, hpa]
  simp only [Option.map_some, Option.getD_some, pageAt, hmod, Nat.add_assoc]

theorem CopiedIn.turn {len : Nat} {m1 m' : Phys} {own1 : Nat → Option (Use ι τ)}
    {res : Int × List UInt8} (hlen : 0 < len) (hv : va / PGSIZE < B.top i)
    (hpa : entryPage (leaf m1.mem r (va / PGSIZE)) = some pa)
    (hreach : Reachable (PTE_FLAGS (leaf m1.mem r (va / PGSIZE)))) (hkeep : Keeps m.mem m1.mem r)
    (hstart : Edited L B B i b r m own m1 own1 (faultIn (view m.mem r) {va / PGSIZE}))
    (hbelow : flagsOf m.mem r (va / PGSIZE) = none → va / PGSIZE * PGSIZE < sz)
    (hother : ∀ w, w ≠ va / PGSIZE → flagsOf m1.mem r w = flagsOf m.mem r w)
    (hadmits : Admits Reachable r sz m (touched va len) ↔
      Admits Reachable r sz m1 (touched ((va / PGSIZE + 1) * PGSIZE) (len - chunk va len)))
    (h : CopiedIn L B i b r sz ((va / PGSIZE + 1) * PGSIZE) (len - chunk va len) m1 own1 res m') :
    CopiedIn L B i b r sz va len m own
      (res.1, bytesFrom m1.mem (pa + va % PGSIZE) (chunk va len) ++ res.2) m' := by
  obtain ⟨k, own', hk, hpages, hkeeps, hedited, hbytes, hret⟩ := h
  have hn : chunk va len ≤ len := chunk_le
  have hpage : va % PGSIZE + chunk va len ≤ PGSIZE := by
    unfold chunk PGROUNDDOWN PGSIZE
    omega
  have hbyte : ∀ a, a / PGSIZE < B.top i → byteAt (view m1.mem r) a = byteAt (view m.mem r) a :=
    fun a ha => (byteAt_congr (hstart.shows _ ha)).trans (byteAt_faultIn _ _ a)
  -- where bytes are left after the first chunk, they start with the next page
  have hnext : ∀ j < k, (va / PGSIZE + 1) * PGSIZE + j = va + (chunk va len + j) := by
    intro j hj
    have := touched_next (show chunk va len < len by omega)
    omega
  have hmapped := flagsOf_some hpa
  refine ⟨chunk va len + k, own', by omega, ?_, hkeep.trans hkeeps,
    (hstart.trans hedited rfl).congr ?_, ?_, ?_⟩
  · rw [touched_add hlen hk, Finset.forall_mem_insert]
    have hkept := hkeeps.flagsOf (hmapped ▸ Option.some_ne_none _)
    refine ⟨⟨hv, hbelow, _, hkept.trans hmapped, hreach⟩, fun w hin => ?_⟩
    rw [← hother w fun hwv => not_touched_next _ _ (hwv ▸ hin)]
    exact hpages w hin
  · intro w hw
    rw [touched_add hlen hk, Finset.insert_eq, ← faultIn_union, faultIn, faultIn, hstart.shows w hw]
  · dsimp only
    rw [bytesFrom_page hpa hpage, hbytes, List.range_add, List.map_append, List.map_map]
    refine congrArg₂ _ (List.map_congr_left fun j hj => ?_) (List.map_congr_left fun j hj => ?_)
    · refine hbyte _ ?_
      have hj := List.mem_range.mp hj
      unfold PGSIZE at *
      omega
    · have hj := List.mem_range.mp hj
      rw [hbyte _ (hpages _ (mem_touched.mpr ⟨j, hj, rfl⟩)).1, hnext j hj]
      rfl
  · rw [hadmits]
    refine hret.imp (fun ⟨h0, hk', ha⟩ => ⟨h0, ?_, ha⟩) id
    omega

theorem faultIn_mapped {f : Nat → Option (Nat × PageData)} (h : f v ≠ none) : faultIn f {v} = f := by
  funext w
  unfold faultIn
  split_ifs with hw
  · rw [Finset.mem_singleton.mp hw]
    cases hf : f v with
    | none => exact absurd hf h
    | some e => rfl
  · rfl

theorem faultIn_missing {f : Nat → Option (Nat × PageData)} (h : f v = none) :
    faultIn f {v} = Function.update f v (some faulted) := by
  funext w
  unfold faultIn
  by_cases hw : w = v
  · rw [if_pos (Finset.mem_singleton.mpr hw), hw, h, Function.update_self]
    rfl
  · rw [if_neg (by simpa using hw), Function.update_of_ne hw]

theorem copyinLoop_spec [DecidableEq ι] [DecidableEq τ] (hr : B.root i = some r) (htop : B.top i ≤ 2 ^ 26)
    (hsz : sz ≤ B.top i * PGSIZE) (hb : B.held b = none) {turns len : Nat}
    (F : Frames L B m own) (habove : ∀ w, B.top i ≤ w → userAddr m.mem r w = none)
    (hturns : len ≤ turns) :
    wp (copyinLoop L ⟨r, sz⟩ r turns va len) (CopiedIn L B i b r sz va len m own) E m := by
  induction turns generalizing m own va len with
  | zero =>
    obtain rfl : len = 0 := by omega
    rw [copyinLoop, if_neg (by simp)]
    exact copiedIn_empty F
  | succ turns ih =>
    by_cases hlen : 0 < len
    · have hround : PGROUNDDOWN va = va / PGSIZE * PGSIZE := rfl
      have hoff : va - va / PGSIZE * PGSIZE = va % PGSIZE := by
        rw [Nat.mul_comm, Nat.mod_eq_sub]
      have hchunk : min (PGSIZE - va % PGSIZE) len = chunk va len := by
        rw [chunk, hround, hoff]
      have hnot := not_touched_next (va / PGSIZE) (len - chunk va len)
      -- the page is there: its bytes are read, and the loop goes on
      have hpage : ∀ m1 own1 pa, va / PGSIZE < B.top i → pa ≠ 0 →
          entryPage (leaf m1.mem r (va / PGSIZE)) = some pa →
          Reachable (PTE_FLAGS (leaf m1.mem r (va / PGSIZE))) → Keeps m.mem m1.mem r →
          Edited L B B i b r m own m1 own1 (faultIn (view m.mem r) {va / PGSIZE}) →
          (flagsOf m.mem r (va / PGSIZE) = none → va / PGSIZE * PGSIZE < sz) →
          (∀ w, w ≠ va / PGSIZE → flagsOf m1.mem r w = flagsOf m.mem r w) →
          (Admits Reachable r sz m (touched va len) ↔
            Admits Reachable r sz m1 (touched ((va / PGSIZE + 1) * PGSIZE) (len - chunk va len))) →
          wp (if pa = 0 then pure (-1, []) else do
            let s ← get
            let x ← copyinLoop L ⟨r, sz⟩ r turns ((va / PGSIZE * PGSIZE + PGSIZE) % 2 ^ 64)
              (len - chunk va len)
            pure (x.1, bytesFrom s.mem (pa + va % PGSIZE) (chunk va len) ++ x.2))
            (CopiedIn L B i b r sz va len m own) E m1 := by
        intro m1 own1 pa hv hne hpa hu hkeep hstart hbelow hother hadmits
        have hnext : (va / PGSIZE * PGSIZE + PGSIZE) % 2 ^ 64 = (va / PGSIZE + 1) * PGSIZE := by
          unfold PGSIZE at *
          omega
        rw [if_neg hne, wp_bind, wp_get, wp_bind, hnext]
        refine wp_post (ih hstart.frames ?_ ?_) ?_
        · intro w hw
          rw [← habove w hw, userAddr, userAddr, hstart.high w hw]
        · have := chunk_pos va hlen
          omega
        · intro res m' h
          exact h.turn hlen hv hpa hu hkeep hstart hbelow hother hadmits
      rw [copyinLoop, if_pos hlen]
      simp only [hround, hoff, hchunk]
      rw [wp_bind]
      refine userPage_spec F hr htop hsz hb habove ?_ ?_ ?_ ?_
      · intro pa hv hpa hu hne
        have hview : view m.mem r (va / PGSIZE) ≠ none := fun h => by
          rw [view_none.mp h] at hpa
          cases hpa
        refine hpage m own pa hv hne hpa hu (fun _ _ => rfl) ?_ ?_ (fun _ _ => rfl) ?_
        · rw [faultIn_mapped hview]
          exact Edited.refl F
        · exact fun hnone => absurd (flagsOf_none.mp hnone) hview
        · rw [touched_insert hlen]
          exact admits_mapped (flagsOf_some hpa) hu rfl (fun q _ => rfl) fun w _ => rfl
      · intro h
        rw [if_pos rfl]
        refine copiedIn_fail (Edited.refl F) (fun _ => rfl) ?_
        rw [touched_insert hlen]
        exact not_admits_bad h
      · intro m' own' hmissing hedited hleaf hfull
        rw [if_pos rfl]
        refine copiedIn_fail hedited hleaf ?_
        rw [touched_insert hlen]
        exact not_admits_full hmissing hfull
      · intro c m1 own1 hv hmissing hlt hedited hc hnew hfree hne
        refine hpage m1 own1 c hv hne hc.entry ?_ (hc.keeps hmissing) ?_ (fun _ => hlt)
          (fun w hw => hedited.flagsOf_fault hw) ?_
        · rw [hedited.fault_flags hv hc]
          exact fun h => absurd h (by decide)
        · rw [faultIn_missing (flagsOf_none.mp hmissing)]
          exact hedited
        · rw [touched_insert hlen]
          refine admits_missing hmissing hlt hnot hfree hnew fun w hw => hedited.flagsOf_fault ?_
          rintro rfl
          exact hnot hw
    · obtain rfl : len = 0 := by omega
      rw [copyinLoop, if_neg (by simp)]
      exact copiedIn_empty F

end Bytes

end OsProject.Vm
