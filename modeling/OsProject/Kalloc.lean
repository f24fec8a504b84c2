import OsProject.Sv39

/-! The free list of `kalloc.c` as it lies in memory: `kmem.freelist` points to the first free page,
and the first word of each one to the next. As long as the rest of the kernel stays out of the free
pages and frees none twice, it sees no difference to the list of `Phys`. -/

namespace OsProject.Vm

structure Kmem where
  mem : Buffer
  freelist : Nat

abbrev KmemM := StateT Kmem (Except VmPanic)

namespace Kmem

def kalloc : KmemM (Option Nat) := do
  let s ← get
  let r := s.freelist
  if r ≠ 0 then
    set (Kmem.mk (memset s.mem r 5 PGSIZE) (getLE s.mem r 8))
    return some r
  return none

def kfree (L : Layout) (pa : Nat) : KmemM Unit := do
  if pa % PGSIZE ≠ 0 ∨ pa < L.kend ∨ PHYSTOP ≤ pa then throw .kfree
  modify fun s => ⟨putLE (memset s.mem pa 1 PGSIZE) pa 8 s.freelist, pa⟩

end Kmem

/-- The loop of `freerange`. -/
def freeLoop {m : Type → Type} [Monad m] (kfree : Nat → m Unit) (paEnd p : Nat) : m Unit :=
  if p + PGSIZE ≤ paEnd then do
    kfree p
    freeLoop kfree paEnd (p + PGSIZE)
  else pure ()
termination_by paEnd - p
decreasing_by
  unfold PGSIZE at *
  omega

def freerange {m : Type → Type} [Monad m] (kfree : Nat → m Unit) (paStart paEnd : Nat) : m Unit :=
  freeLoop kfree paEnd (PGROUNDUP paStart)

def kinit {m : Type → Type} [Monad m] (kfree : Nat → m Unit) (L : Layout) : m Unit :=
  freerange kfree L.kend PHYSTOP

/-- What the rest of the kernel does with memory. -/
inductive PageOp
  | kalloc
  | kfree (pa : Nat)
  | load (a : Nat)
  | store (a : Nat) (v : UInt8)

def PageOp.exec (L : Layout) : PageOp → VmM (Option Nat)
  | .kalloc => Vm.kalloc
  | .kfree pa => do
    Vm.kfree L pa
    return none
  | .load a => do return some ((← get).mem a).toNat
  | .store a v => do
    modify fun s => { s with mem := Function.update s.mem a v }
    return none

def PageOp.execBytes (L : Layout) : PageOp → KmemM (Option Nat)
  | .kalloc => Kmem.kalloc
  | .kfree pa => do
    Kmem.kfree L pa
    return none
  | .load a => do return some ((← get).mem a).toNat
  | .store a v => do
    modify fun s => { s with mem := Function.update s.mem a v }
    return none

/-- No free page is freed again, and no byte of a free page is used. -/
def PageOp.Allowed (s : Phys) : PageOp → Prop
  | .kalloc => True
  | .kfree pa => pa ∉ s.freelist
  | .load a => ∀ p ∈ s.freelist, ¬ (p ≤ a ∧ a < p + PGSIZE)
  | .store a _ => ∀ p ∈ s.freelist, ¬ (p ≤ a ∧ a < p + PGSIZE)

def Legal (L : Layout) (s : Phys) : List PageOp → Prop
  | [] => True
  | op :: ops => op.Allowed s ∧ ∀ v s', op.exec L s = .ok (v, s') → Legal L s' ops

/-- The pages that are found from `r` on. -/
def Threads (mem : Buffer) (r : Nat) : List Nat → Prop
  | [] => r = 0
  | p :: ps => r = p ∧ Threads mem (getLE mem p 8) ps

structure Threaded (L : Layout) (c : Kmem) (s : Phys) : Prop where
  threads : Threads c.mem c.freelist s.freelist
  pages : ∀ p ∈ s.freelist, L.Page p
  nodup : s.freelist.Nodup
  agree : ∀ a, (∀ p ∈ s.freelist, ¬ (p ≤ a ∧ a < p + 8)) → c.mem a = s.mem a

/-- The two models give the same result and stay together, or panic alike. -/
inductive Matches (L : Layout) {α : Type} :
    Except VmPanic (α × Kmem) → Except VmPanic (α × Phys) → Prop
  | ok {v : α} {c : Kmem} {s : Phys} (h : Threaded L c s) : Matches L (.ok (v, c)) (.ok (v, s))
  | panic (e : VmPanic) : Matches L (.error e) (.error e)

variable {L : Layout} {c : Kmem} {s : Phys} {mem mem' : Buffer} {r p q a : Nat} {ps : List Nat}

theorem Matches.bind {α β : Type} {x : KmemM α} {y : VmM α} {f : α → KmemM β} {g : α → VmM β}
    (h : Matches L (x c) (y s))
    (hnext : ∀ v c' s', y s = .ok (v, s') → Threaded L c' s' → Matches L (f v c') (g v s')) :
    Matches L ((x >>= f) c) ((y >>= g) s) := by
  simp only [Bind.bind, StateT.bind, Except.bind]
  generalize hx : x c = xc, hy : y s = ys at h
  cases h with
  | ok h => exact hnext _ _ _ hy h
  | panic e => exact .panic e

theorem Threads.congr (h : Threads mem r ps)
    (hm : ∀ p ∈ ps, ∀ a, p ≤ a → a < p + 8 → mem' a = mem a) : Threads mem' r ps := by
  induction ps generalizing r with
  | nil => exact h
  | cons p ps ih =>
    have hnext : getLE mem' p 8 = getLE mem p 8 := getLE_congr (hm p List.mem_cons_self)
    refine ⟨h.1, ?_⟩
    rw [hnext]
    exact ih h.2 fun q hq => hm q (List.mem_cons_of_mem _ hq)

theorem Layout.Page.apart (hp : L.Page p) (hq : L.Page q) (hne : p ≠ q) (h : p ≤ a)
    (h' : a < p + PGSIZE) : ¬ (q ≤ a ∧ a < q + PGSIZE) := by
  have hp' := hp.1
  have hq' := hq.1
  unfold PGSIZE at *
  omega

theorem Threaded.head_lt (h : Threaded L c s) : c.freelist < 256 ^ 8 := by
  have hthreads := h.threads
  cases hf : s.freelist with
  | nil =>
    rw [hf] at hthreads
    rw [show c.freelist = 0 from hthreads]
    decide
  | cons p ps =>
    rw [hf] at hthreads
    have hp := (h.pages p (by simp [hf])).2.2
    rw [hthreads.1]
    exact hp.trans (by decide)

theorem Threaded.kalloc (h : Threaded L c s) : Matches L (Kmem.kalloc c) (Vm.kalloc s) := by
  obtain ⟨mem, head⟩ := c
  obtain ⟨m, fl⟩ := s
  obtain ⟨hthreads, hpages, hnodup, hagree⟩ := h
  cases fl with
  | nil =>
    obtain rfl : head = 0 := hthreads
    exact .ok ⟨rfl, hpages, hnodup, hagree⟩
  | cons p ps =>
    obtain ⟨rfl, hnext⟩ : head = p ∧ Threads mem (getLE mem p 8) ps := hthreads
    have hp := hpages head List.mem_cons_self
    have hne : ∀ q ∈ ps, head ≠ q := fun q hq he => (List.nodup_cons.mp hnodup).1 (he ▸ hq)
    have hrest : ∀ q ∈ ps, L.Page q := fun q hq => hpages q (List.mem_cons_of_mem _ hq)
    have hrun : Kmem.kalloc ⟨mem, head⟩ =
        .ok (some head, ⟨memset mem head 5 PGSIZE, getLE mem head 8⟩) := by
      have hpos : head ≠ 0 := by
        have hend := hp.2.1
        have := L.base.trans (Nat.le_of_lt (L.text ▸ Nat.lt_add_of_pos_right (by decide))) |>.trans L.data
        unfold KERNBASE at this
        omega
      simp [Kmem.kalloc, hpos, Bind.bind, StateT.bind, Except.bind, get, getThe, MonadStateOf.get,
        StateT.get, set, StateT.set, Pure.pure, StateT.pure, Except.pure]
    rw [hrun]
    refine .ok ⟨hnext.congr fun q hq a ha ha' => if_neg fun hin => ?_, hrest,
      (List.nodup_cons.mp hnodup).2, fun a ha => ?_⟩
    · exact (hrest q hq).apart hp (hne q hq).symm ha (by unfold PGSIZE; omega) hin
    · simp only [memset]
      split_ifs with hin
      · rfl
      · refine hagree a fun q hq => ?_
        rcases List.mem_cons.mp hq with rfl | hq
        · exact fun hlt => hin ⟨hlt.1, hlt.2.trans (by unfold PGSIZE; omega)⟩
        · exact ha q hq

theorem Threaded.kfree (h : Threaded L c s) {pa : Nat} (hpa : pa ∉ s.freelist) :
    Matches L (Kmem.kfree L pa c) (Vm.kfree L pa s) := by
  by_cases hbad : pa % PGSIZE ≠ 0 ∨ pa < L.kend ∨ PHYSTOP ≤ pa
  · simp only [Kmem.kfree, Vm.kfree, if_pos hbad]
    exact .panic _
  · have hp : L.Page pa := by
      unfold Layout.Page
      omega
    simp only [Kmem.kfree, Vm.kfree, if_neg hbad]
    have hother : ∀ a, ¬ (pa ≤ a ∧ a < pa + 8) →
        putLE (memset c.mem pa 1 PGSIZE) pa 8 c.freelist a = memset c.mem pa 1 PGSIZE a :=
      fun a ha => putLE_outside (by omega)
    refine .ok ⟨⟨rfl, ?_⟩, List.forall_mem_cons.mpr ⟨hp, h.pages⟩, List.nodup_cons.mpr ⟨hpa, h.nodup⟩,
      fun a ha => ?_⟩
    · simp only
      rw [getLE_putLE_of_lt h.head_lt]
      refine h.threads.congr fun q hq a ha ha' => ?_
      have hout := (h.pages q hq).apart hp (fun he => hpa (he ▸ hq)) ha (by unfold PGSIZE; omega)
      rw [hother a fun hin => hout ⟨hin.1, hin.2.trans (by unfold PGSIZE; omega)⟩]
      exact if_neg hout
    · obtain ⟨hpa', hps⟩ := List.forall_mem_cons.mp ha
      refine (hother a hpa').trans ?_
      simp only [memset, h.agree a hps]

theorem Threaded.exec (h : Threaded L c s) {op : PageOp} (hop : op.Allowed s) :
    Matches L (op.execBytes L c) (op.exec L s) := by
  have hword : ∀ a, (∀ p ∈ s.freelist, ¬ (p ≤ a ∧ a < p + PGSIZE)) →
      ∀ p ∈ s.freelist, ¬ (p ≤ a ∧ a < p + 8) :=
    fun a ha p hp hin => ha p hp ⟨hin.1, hin.2.trans (by unfold PGSIZE; omega)⟩
  cases op with
  | kalloc => exact h.kalloc
  | kfree pa => exact (h.kfree hop).bind fun _ _ _ _ h' => .ok h'
  | load a =>
    have hsame := h.agree a (hword a hop)
    show Matches L (.ok (some (c.mem a).toNat, c)) (.ok (some (s.mem a).toNat, s))
    rw [hsame]
    exact .ok h
  | store a v =>
    refine .ok ⟨h.threads.congr fun p hp b hb hb' => ?_, h.pages, h.nodup, fun b hb => ?_⟩
    · refine Function.update_of_ne ?_ v c.mem
      rintro rfl
      exact hword b hop p hp ⟨hb, hb'⟩
    · simp only [Function.update_apply, h.agree b hb]

theorem Threaded.run (h : Threaded L c s) {ops : List PageOp} (hops : Legal L s ops) :
    Matches L (ops.mapM (·.execBytes L) c) (ops.mapM (·.exec L) s) := by
  induction ops generalizing c s with
  | nil => exact .ok h
  | cons op ops ih =>
    rw [List.mapM_cons, List.mapM_cons]
    exact (h.exec hops.1).bind fun v c' s' hrun h' =>
      (ih h' (hops.2 v s' hrun)).bind fun _ _ _ _ h'' => .ok h''

theorem kfree_page (hp : L.Page p) (s : Phys) :
    Vm.kfree L p s = .ok ((), ⟨memset s.mem p 1 PGSIZE, p :: s.freelist⟩) := by
  have hok : ¬ (p % PGSIZE ≠ 0 ∨ p < L.kend ∨ PHYSTOP ≤ p) := by
    unfold Layout.Page at hp
    omega
  simp only [Vm.kfree, if_neg hok]
  rfl

theorem freeLoop_of_le {m : Type → Type} [Monad m] (kfree : Nat → m Unit) {paEnd : Nat}
    (h : p + PGSIZE ≤ paEnd) : freeLoop kfree paEnd p = (do
      kfree p
      freeLoop kfree paEnd (p + PGSIZE)) := by
  rw [freeLoop, if_pos h]

/-- `freerange` from a page on, when the free pages are those before it. -/
theorem Threaded.freeLoop (h : Threaded L c s) (hp : p % PGSIZE = 0) (hend : L.kend ≤ p)
    (hlt : ∀ q, q ∈ s.freelist ↔ L.Page q ∧ q < p) :
    ∃ c' s', Vm.freeLoop (Kmem.kfree L) PHYSTOP p c = .ok ((), c') ∧
      Vm.freeLoop (Vm.kfree L) PHYSTOP p s = .ok ((), s') ∧ Threaded L c' s' ∧
      ∀ q, q ∈ s'.freelist ↔ L.Page q := by
  induction hk : PHYSTOP - p using Nat.strong_induction_on generalizing p c s with
  | _ k ih =>
    by_cases hle : p + PGSIZE ≤ PHYSTOP
    · have hpage : L.Page p := ⟨hp, hend, by unfold PGSIZE at hle; omega⟩
      have hfree := h.kfree fun hmem => lt_irrefl p ((hlt p).mp hmem).2
      rw [kfree_page hpage] at hfree
      generalize hc : Kmem.kfree L p c = x at hfree
      cases hfree with
      | ok h' =>
        rw [freeLoop_of_le _ hle, freeLoop_of_le _ hle]
        simp only [Bind.bind, StateT.bind, hc, kfree_page hpage, Except.bind]
        refine ih _ ?_ h' ?_ (by omega) (fun q => ?_) rfl
        · unfold PGSIZE at *
          omega
        · rw [Nat.add_mod_right, hp]
        · rw [List.mem_cons, hlt]
          unfold Layout.Page PGSIZE at *
          omega
    · refine ⟨c, s, by rw [Vm.freeLoop, if_neg hle]; rfl, by rw [Vm.freeLoop, if_neg hle]; rfl, h,
        fun q => (hlt q).trans ?_⟩
      unfold Layout.Page PHYSTOP KERNBASE PGSIZE at *
      omega

/-- After `kinit` the free list has every page, and whatever the kernel does from then on, it gets
the same pages, the same bytes and the same panic from both models. -/
theorem kalloc_refines_list (L : Layout) (mem : Buffer) : ∃ c s,
    kinit (Kmem.kfree L) L ⟨mem, 0⟩ = .ok ((), c) ∧ kinit (Vm.kfree L) L ⟨mem, []⟩ = .ok ((), s) ∧
      s.freelist.Nodup ∧ (∀ p, p ∈ s.freelist ↔ L.Page p) ∧
      ∀ ops, Legal L s ops → Matches L (ops.mapM (·.execBytes L) c) (ops.mapM (·.exec L) s) := by
  have hram := L.ram
  have hround : PGROUNDUP L.kend = (L.kend + PGSIZE - 1) / PGSIZE * PGSIZE := by
    rw [PGROUNDUP, Nat.mod_eq_of_lt]
    unfold PHYSTOP KERNBASE PGSIZE at *
    omega
  have hempty : Threaded L ⟨mem, 0⟩ ⟨mem, []⟩ := ⟨rfl, by simp, List.nodup_nil, fun _ _ => rfl⟩
  obtain ⟨c, s, hc, hs, h, hpages⟩ := hempty.freeLoop (p := PGROUNDUP L.kend)
    (by rw [hround, Nat.mul_mod_left]) (by rw [hround]; unfold PGSIZE; omega) (fun q => by
      rw [hround]
      unfold Layout.Page PGSIZE
      simp only [List.not_mem_nil, false_iff]
      omega)
  exact ⟨c, s, hc, hs, h.nodup, hpages, fun ops hops => h.run hops⟩

def lastPage : Nat := PHYSTOP - PGSIZE

/-- A kernel that leaves one page. -/
def onePage : Layout := { smallLayout with kend := lastPage, data := by decide, ram := by decide }

theorem onePage_page : onePage.Page p ↔ p = lastPage := by
  show p % 4096 = 0 ∧ lastPage ≤ p ∧ p < PHYSTOP ↔ _
  have hlast : lastPage = 0x87fff000 := by decide
  have hstop : PHYSTOP = 0x88000000 := by decide
  omega

def reuse : List PageOp := [.kalloc, .store lastPage 7, .load lastPage, .kfree lastPage, .kalloc]

theorem legal_reuse (mem : Buffer) : Legal onePage ⟨mem, [lastPage]⟩ reuse := by
  refine ⟨trivial, ?_⟩
  rintro - - ⟨⟩
  refine ⟨by simp [PageOp.Allowed], ?_⟩
  rintro - - ⟨⟩
  refine ⟨by simp [PageOp.Allowed], ?_⟩
  rintro - - ⟨⟩
  refine ⟨by simp [PageOp.Allowed], ?_⟩
  exact fun _ _ _ => ⟨trivial, fun _ _ _ => trivial⟩

theorem kalloc_refines_list_reuse : ∃ c c',
    kinit (Kmem.kfree onePage) onePage ⟨fun _ => 0, 0⟩ = .ok ((), c) ∧
      reuse.mapM (·.execBytes onePage) c =
        .ok ([some lastPage, none, some 7, none, some lastPage], c') := by
  obtain ⟨c, ⟨m, free⟩, hc, -, hnodup, hpages, hrun⟩ := kalloc_refines_list onePage fun _ => 0
  simp only [onePage_page] at hnodup hpages
  obtain rfl : free = [lastPage] :=
    List.perm_singleton.mp ((List.perm_ext_iff_of_nodup hnodup (List.nodup_singleton _)).mpr
      fun q => (hpages q).trans List.mem_singleton.symm)
  obtain ⟨s', hs'⟩ : ∃ s', reuse.mapM (·.exec onePage) ⟨m, [lastPage]⟩ =
      .ok ([some lastPage, none, some 7, none, some lastPage], s') := ⟨_, rfl⟩
  have hmatch := hrun reuse (legal_reuse m)
  rw [hs'] at hmatch
  generalize hx : reuse.mapM (·.execBytes onePage) c = x at hmatch
  cases hmatch with
  | ok h => exact ⟨c, _, hc, hx⟩

end OsProject.Vm
