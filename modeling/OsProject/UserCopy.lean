import OsProject.CopySpec
import OsProject.PageMap

/-! The copies between the kernel and a process, for any page table of a process, any address and
any length. -/

namespace OsProject.Vm

/-- The pages of the machine as a system call finds them: the page table of the process at `r`,
whose pages below `TRAPFRAME` are its own, and other owners. Owner 0 has no page. -/
def procBooks (r : Nat) (held : Nat → Option Nat) : Books Unit Nat :=
  ⟨fun _ => TRAPFRAME / PGSIZE, fun _ => some r, held⟩

/-- A process of size `sz` with the page table at `r`. -/
structure UserSpace (L : Layout) (m : Phys) (r sz : Nat) : Prop where
  frames : ∃ held own, held 0 = none ∧ Frames L (procBooks r held) m own
  size : sz ≤ TRAPFRAME
  above : ∀ w, TRAPFRAME / PGSIZE ≤ w → userAddr m.mem r w = none

/-- The user address `va` is mapped with flags in `ok`, and `a` is the byte behind it. -/
def Backs (ok : Nat → Prop) (mem : Buffer) (r va a : Nat) : Prop :=
  ∃ pa, entryPage (leaf mem r (va / PGSIZE)) = some pa ∧
    ok (PTE_FLAGS (leaf mem r (va / PGSIZE))) ∧ a = pa + va % PGSIZE

/-- The memory that a copy may change apart from the user bytes themselves: pages that were free
and tables of the page table. -/
def Spare (m : Phys) (r a : Nat) : Prop :=
  PGROUNDDOWN a ∈ m.freelist ∨ ∃ q, q.length ≤ 2 ∧ node (childOf m.mem) r q = some (PGROUNDDOWN a)

/-- The page table after a copy: what was mapped is mapped as before, and the process sees the pages
`f`. -/
structure Sees (r : Nat) (m : Phys) (f : Nat → Option (Nat × PageData)) (m' : Phys) : Prop where
  kept : Keeps m.mem m'.mem r
  above : ∀ w, TRAPFRAME / PGSIZE ≤ w → leaf m'.mem r w = leaf m.mem r w
  shows : ∀ w, w < TRAPFRAME / PGSIZE → view m'.mem r w = f w

/-- What `copyout` of `src` to `va` comes to. Of the pages of the range it has reached, those that
were missing are there, and the bytes are stored. -/
structure CopyoutExact (L : Layout) (r sz va : Nat) (src : List UInt8) (m : Phys) (ret : Int)
    (m' : Phys) : Prop where
  space : UserSpace L m' r sz
  result : ret = 0 ∨ ret = -1
  succeeds : ret = 0 ↔ Admits Writable r sz m (touched va src.length)
  copied : ret = 0 → ∀ j (h : j < src.length), ∃ a, Backs Writable m'.mem r (va + j) a ∧
    m'.mem a = src[j]
  confined : ∀ a, m'.mem a ≠ m.mem a → Spare m r a ∨
    ∃ j < src.length, Backs Writable m.mem r (va + j) a
  sees : ∃ k ≤ src.length, (ret = 0 → k = src.length) ∧
    Sees r m (copyOut (view m.mem r) va (src.take k)) m'

/-- What `copyin` of `len` bytes from `va` comes to. Of the pages of the range it has reached, those
that were missing are there. -/
structure CopyinExact (L : Layout) (r sz va len : Nat) (m : Phys) (ret : Int) (bytes : List UInt8)
    (m' : Phys) : Prop where
  space : UserSpace L m' r sz
  result : ret = 0 ∨ ret = -1
  succeeds : ret = 0 ↔ Admits Reachable r sz m (touched va len)
  length : bytes.length ≤ len ∧ (ret = 0 → bytes.length = len)
  copied : ∀ j (h : j < bytes.length), ∃ a, Backs Reachable m'.mem r (va + j) a ∧
    bytes[j] = m'.mem a ∧ bytes[j] = byteAt (view m.mem r) (va + j)
  confined : ∀ a, m'.mem a ≠ m.mem a → Spare m r a
  sees : Sees r m (faultIn (view m.mem r) (touched va bytes.length)) m'

section Spaces

variable {L : Layout} {m m' : Phys} {r sz va a : Nat} {held : Nat → Option Nat}
  {own own' : Nat → Option (Use Unit Nat)} {f : Nat → Option (Nat × PageData)}

theorem trapframe_pages : TRAPFRAME / PGSIZE ≤ 2 ^ 26 ∧ TRAPFRAME = TRAPFRAME / PGSIZE * PGSIZE := by
  decide

theorem UserSpace.of_edited (h : UserSpace L m r sz) (hheld : held 0 = none)
    (hedited : Edited L (procBooks r held) (procBooks r held) () 0 r m own m' own' f) :
    UserSpace L m' r sz := by
  refine ⟨⟨held, own', hheld, hedited.frames⟩, h.size, fun w hw => ?_⟩
  rw [← h.above w hw, userAddr, userAddr, hedited.high w hw]

theorem Edited.changed (F : Frames L (procBooks r held) m own) (hheld : held 0 = none)
    (hedited : Edited L (procBooks r held) (procBooks r held) () 0 r m own m' own' f)
    (ha : m'.mem a ≠ m.mem a) : Spare m r a ∨ ∃ w < TRAPFRAME / PGSIZE,
      entryPage (leaf m.mem r w) = some (PGROUNDDOWN a) := by
  have hpage : L.Page (PGROUNDDOWN a) := by
    by_contra h
    exact ha (hedited.near.outside a h)
  have hrole : spaceOf () 0 (own (PGROUNDDOWN a)) := by
    by_contra h
    exact ha (hedited.near.bytes _ hpage h a rfl)
  cases hown : own (PGROUNDDOWN a) with
  | none => exact .inl (.inl ((F.free _).mpr ⟨hpage, hown⟩))
  | some u =>
    have hloc := (F.exact u _).mpr ⟨hpage, hown⟩
    rw [hown] at hrole
    cases u with
    | table i q =>
      by_cases hq : q.length ≤ 2
      · rw [loc_table _ _ rfl hq] at hloc
        exact .inl (.inr ⟨q, hq, hloc⟩)
      · simp [Books.loc, hq] at hloc
    | user i w =>
      by_cases hw : w < TRAPFRAME / PGSIZE
      · rw [loc_user _ _ rfl hw] at hloc
        exact .inr ⟨w, hw, hloc⟩
      · simp [Books.loc, procBooks, hw] at hloc
    | held t =>
      cases hrole
      exact absurd (hheld.symm.trans hloc) (Option.some_ne_none _).symm

theorem backs_of_flags {ok : Nat → Prop} {mem : Buffer} {fl : Nat}
    (h : flagsOf mem r (va / PGSIZE) = some fl) (hok : ok fl) : ∃ a, Backs ok mem r va a := by
  cases hpa : entryPage (leaf mem r (va / PGSIZE)) with
  | none =>
    rw [flagsOf, view_none.mpr hpa] at h
    cases h
  | some pa =>
    rw [flagsOf_some hpa] at h
    cases h
    exact ⟨pa + va % PGSIZE, pa, hpa, hok, rfl⟩

theorem div_page (w a : Nat) : (w * PGSIZE + a % PGSIZE) / PGSIZE = w := by
  unfold PGSIZE
  omega

theorem backs_of_page {mem : Buffer} {w : Nat} (h : entryPage (leaf mem r w) = some (PGROUNDDOWN a)) :
    Backs (fun _ => True) mem r (w * PGSIZE + a % PGSIZE) a := by
  refine ⟨PGROUNDDOWN a, by rw [div_page, h], trivial, ?_⟩
  unfold PGROUNDDOWN PGSIZE
  omega

theorem Backs.with {ok ok' : Nat → Prop} {mem : Buffer} {fl : Nat} (h : Backs ok mem r va a)
    (hfl : flagsOf mem r (va / PGSIZE) = some fl) (hok : ok' fl) : Backs ok' mem r va a := by
  obtain ⟨pa, hpa, -, ha⟩ := h
  rw [flagsOf_some hpa] at hfl
  cases hfl
  exact ⟨pa, hpa, hok, ha⟩

theorem Backs.byte {ok : Nat → Prop} {mem : Buffer} (h : Backs ok mem r va a) :
    mem a = byteAt (view mem r) va := by
  obtain ⟨pa, hpa, -, rfl⟩ := h
  rw [byteAt, view, hpa]
  rfl

theorem changed_user {w : Nat} (hkeeps : Keeps m.mem m'.mem r)
    (hpa : entryPage (leaf m.mem r w) = some (PGROUNDDOWN a)) (ha : m'.mem a ≠ m.mem a) :
    flagsOf m'.mem r w = flagsOf m.mem r w ∧
      byteAt (view m'.mem r) (w * PGSIZE + a % PGSIZE) ≠
        byteAt (view m.mem r) (w * PGSIZE + a % PGSIZE) := by
  have hmapped : flagsOf m.mem r w ≠ none := by
    rw [flagsOf_some hpa]
    exact Option.some_ne_none _
  refine ⟨hkeeps.flagsOf hmapped, ?_⟩
  rwa [← (backs_of_page ((hkeeps w hmapped).symm ▸ hpa)).byte, ← (backs_of_page hpa).byte]

theorem byteAt_copyOut (bs : List UInt8) (x : Nat) : byteAt (copyOut f va bs) x =
    if va ≤ x ∧ x < va + bs.length then bs.getD (x - va) 0 else byteAt f x := by
  have hx : x / PGSIZE * PGSIZE + x % PGSIZE = x := by
    rw [Nat.mul_comm]
    exact Nat.div_add_mod x PGSIZE
  unfold byteAt copyOut
  by_cases h : va ≤ x ∧ x < va + bs.length
  · have hin : x / PGSIZE ∈ touched va bs.length :=
      mem_touched.mpr ⟨x - va, by omega, by rw [Nat.add_sub_cancel' h.1]⟩
    rw [if_pos h, if_pos hin, Option.getD_some, storeBytes]
    simp only [hx]
    rw [if_pos h.1, List.getD_eq_getElem _ _ (by omega), List.getD_eq_getElem _ _ (by omega)]
  · rw [if_neg h]
    split_ifs with hin
    · rw [Option.getD_some, storeBytes]
      simp only [hx]
      split_ifs with hle
      · rw [List.getD_eq_default _ _ (by omega)]
      · rfl
    · rfl

end Spaces

section Copies

variable {L : Layout} {m : Phys} {r sz va : Nat} {E : VmPanic → Prop}

theorem copyout_exact (h : UserSpace L m r sz) (va : Nat) (src : List UInt8) :
    wp (copyout L ⟨r, sz⟩ r va src) (CopyoutExact L r sz va src m) E m := by
  obtain ⟨held, own, hheld, F⟩ := h.frames
  have hsz : sz ≤ TRAPFRAME / PGSIZE * PGSIZE := by
    rw [← trapframe_pages.2]
    exact h.size
  have htop : (procBooks r held).top () ≤ 2 ^ 26 := trapframe_pages.1
  refine wp_post (copyoutLoop_spec (B := procBooks r held) (b := 0) rfl htop hsz hheld F h.above
    le_rfl) ?_
  rintro ret m' ⟨k, own', -, hk, hpages, hkeeps, hedited, hret⟩
  have hflags : ∀ x, va ≤ x → x < va + k →
      ∃ fl, flagsOf m'.mem r (x / PGSIZE) = some fl ∧ Writable fl := fun x hle hlt =>
    (hpages _ (mem_touched.mpr ⟨x - va, by omega, by rw [Nat.add_sub_cancel' hle]⟩)).2.2
  have hlen : (src.take k).length = k := by
    rw [List.length_take, Nat.min_eq_left hk]
  -- the bytes of user pages are those that the view shows
  have hshows : ∀ x, x / PGSIZE < TRAPFRAME / PGSIZE → byteAt (view m'.mem r) x =
      if va ≤ x ∧ x < va + k then (src.take k).getD (x - va) 0 else byteAt (view m.mem r) x := by
    intro x hx
    rw [byteAt_congr (hedited.shows _ hx), byteAt_copyOut, hlen]
  have hall : ret = 0 → k = src.length := by
    intro h0
    rcases hret with ⟨-, hk', -⟩ | ⟨h1, -⟩
    · exact hk'
    · rw [h0] at h1
      cases h1
  refine ⟨h.of_edited hheld hedited, ?_, ?_, ?_, ?_,
    k, hk, hall, hkeeps, hedited.high, hedited.shows⟩
  · exact hret.imp And.left And.left
  · rcases hret with ⟨rfl, -, hadmits⟩ | ⟨rfl, hno⟩
    · exact iff_of_true rfl hadmits
    · exact iff_of_false (by decide) hno
  · intro h0 j hj
    obtain rfl := hall h0
    obtain ⟨fl, hfl, hw⟩ := hflags (va + j) (by omega) (by omega)
    obtain ⟨a, ha⟩ := backs_of_flags hfl hw
    have hbelow := (hpages ((va + j) / PGSIZE) (mem_touched.mpr ⟨j, hj, rfl⟩)).1
    refine ⟨a, ha, ?_⟩
    rw [ha.byte, hshows _ hbelow, if_pos (by omega), List.take_length, Nat.add_sub_cancel_left,
      List.getD_eq_getElem _ _ hj]
  · intro a ha
    refine (hedited.changed F hheld ha).imp_right ?_
    rintro ⟨w, hw, hpa⟩
    obtain ⟨hsame, hdiff⟩ := changed_user hkeeps hpa ha
    -- where the byte is not in the range, the view shows what it showed
    by_cases hin : va ≤ w * PGSIZE + a % PGSIZE ∧ w * PGSIZE + a % PGSIZE < va + k
    · refine ⟨w * PGSIZE + a % PGSIZE - va, by omega, ?_⟩
      rw [Nat.add_sub_cancel' hin.1]
      obtain ⟨fl, hfl, hw⟩ := hflags _ hin.1 hin.2
      refine (backs_of_page hpa).with ?_ hw
      rw [div_page] at hfl ⊢
      exact hsame ▸ hfl
    · refine absurd ?_ hdiff
      rw [hshows _ (by rwa [div_page]), if_neg hin]

theorem copyin_exact (h : UserSpace L m r sz) (va : Nat) (len : Nat) :
    wp (copyin L ⟨r, sz⟩ r va len) (fun res => CopyinExact L r sz va len m res.1 res.2) E m := by
  obtain ⟨held, own, hheld, F⟩ := h.frames
  have hsz : sz ≤ TRAPFRAME / PGSIZE * PGSIZE := by
    rw [← trapframe_pages.2]
    exact h.size
  have htop : (procBooks r held).top () ≤ 2 ^ 26 := trapframe_pages.1
  refine wp_post (copyinLoop_spec (B := procBooks r held) (b := 0) rfl htop hsz hheld F h.above
    le_rfl) ?_
  rintro ⟨ret, bytes⟩ m' ⟨k, own', hk, hpages, hkeeps, hedited, hbytes, hret⟩
  dsimp only at hbytes hret
  have hlen : bytes.length = k := by
    rw [hbytes, List.length_map, List.length_range]
  have hshows : ∀ x, x / PGSIZE < TRAPFRAME / PGSIZE →
      byteAt (view m'.mem r) x = byteAt (view m.mem r) x := by
    intro x hx
    rw [byteAt_congr (hedited.shows _ hx), byteAt_faultIn]
  dsimp only
  refine ⟨h.of_edited hheld hedited, ?_, ?_, ⟨by omega, ?_⟩, ?_, ?_,
    hkeeps, hedited.high, hlen ▸ hedited.shows⟩
  · exact hret.imp And.left And.left
  · rcases hret with ⟨rfl, -, hadmits⟩ | ⟨rfl, hno⟩
    · exact iff_of_true rfl hadmits
    · exact iff_of_false (by decide) hno
  · intro h0
    rcases hret with ⟨-, hk', -⟩ | ⟨h1, -⟩
    · exact hlen.trans hk'
    · rw [h0] at h1
      cases h1
  · intro j hj
    obtain ⟨hbelow, -, fl, hfl, hreach⟩ := hpages ((va + j) / PGSIZE)
      (mem_touched.mpr ⟨j, by omega, rfl⟩)
    obtain ⟨a, ha⟩ := backs_of_flags hfl hreach
    have hbyte : bytes[j] = byteAt (view m.mem r) (va + j) := by
      simp only [hbytes, List.getElem_map, List.getElem_range]
    exact ⟨a, ha, by rw [ha.byte, hshows _ hbelow, hbyte], hbyte⟩
  · intro a ha
    refine (hedited.changed F hheld ha).resolve_right ?_
    rintro ⟨w, hw, hpa⟩
    exact (changed_user hkeeps hpa ha).2 (hshows _ (by rwa [div_page]))

end Copies

theorem setRoot_unit (held : Nat → Option Nat) (r : Nat) :
    Books.setRoot ⟨fun _ => TRAPFRAME / PGSIZE, fun _ => none, held⟩ () (some r) = procBooks r held := by
  rw [Books.setRoot, procBooks]
  congr 1

theorem userSpace_create {L : Layout} {m m' : Phys} {r sz : Nat} (hnodup : m.freelist.Nodup)
    (hpages : ∀ p ∈ m.freelist, L.Page p) (hcreate : uvmcreate m = .ok (some r, m'))
    (hsz : sz ≤ TRAPFRAME) : UserSpace L m' r sz := by
  have hspec : wp uvmcreate (fun ret m' => ∀ c, ret = some c → UserSpace L m' c sz)
      (fun _ => True) m := by
    refine uvmcreate_spec (i := ()) (frames_start (TRAPFRAME / PGSIZE) hnodup hpages) rfl ?_ ?_
    · rintro _ c ⟨⟩
    · rintro c m' own' _ hF _ hzero _ ⟨⟩
      rw [setRoot_unit] at hF
      refine ⟨⟨_, own', ?_, hF⟩, hsz, fun w _ => ?_⟩
      · exact if_neg fun h => absurd h.1.pos (Nat.lt_irrefl 0)
      · rw [userAddr, leaf_empty hzero]
        rfl
  exact wp_ok hspec hcreate r rfl

/-- `copyout` and `copyin` end without a panic, succeed exactly when every page of the range can be
used or allocated, move the bytes of the range and no others, and reach user memory only through
pages that the process may use. -/
theorem user_copies_exact {L : Layout} {m : Phys} {r sz : Nat} (h : UserSpace L m r sz) (va : Nat) :
    (∀ src, ∃ ret m', copyout L ⟨r, sz⟩ r va src m = .ok (ret, m') ∧
      CopyoutExact L r sz va src m ret m') ∧
    ∀ len, ∃ ret bytes m', copyin L ⟨r, sz⟩ r va len m = .ok ((ret, bytes), m') ∧
      CopyinExact L r sz va len m ret bytes m' := by
  constructor
  · intro src
    obtain ⟨ret, m', hrun, hexact⟩ := exists_ok_of_wp (copyout_exact h va src)
    exact ⟨ret, m', hrun, hexact⟩
  · intro len
    obtain ⟨⟨ret, bytes⟩, m', hrun, hexact⟩ := exists_ok_of_wp (copyin_exact h va len)
    exact ⟨ret, bytes, m', hrun, hexact⟩

theorem user_copies_exact_small :
    ∃ m', uvmcreate smallPhys = .ok (some (PHYSTOP - PGSIZE), m') ∧
      (∃ ret m'', copyout smallLayout ⟨PHYSTOP - PGSIZE, 2 * PGSIZE⟩ (PHYSTOP - PGSIZE) 4090
          [1, 2, 3, 4, 5, 6, 7, 8, 9] m' = .ok (ret, m'') ∧
        CopyoutExact smallLayout (PHYSTOP - PGSIZE) (2 * PGSIZE) 4090 [1, 2, 3, 4, 5, 6, 7, 8, 9] m'
          ret m'') ∧
      ∃ ret bytes m'', copyin smallLayout ⟨PHYSTOP - PGSIZE, 2 * PGSIZE⟩ (PHYSTOP - PGSIZE) 4090 9
          m' = .ok ((ret, bytes), m'') ∧
        CopyinExact smallLayout (PHYSTOP - PGSIZE) (2 * PGSIZE) 4090 9 m' ret bytes m'' := by
  have hspace := fun m' (h : uvmcreate smallPhys = .ok (some (PHYSTOP - PGSIZE), m')) =>
    userSpace_create (L := smallLayout) (by decide) (by decide) h (show 2 * PGSIZE ≤ TRAPFRAME by decide)
  refine ⟨_, rfl, ?_, ?_⟩
  · exact (user_copies_exact (hspace _ rfl) 4090).1 _
  · exact (user_copies_exact (hspace _ rfl) 4090).2 9

end OsProject.Vm
