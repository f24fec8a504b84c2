import OsProject.UvmSpec

/-! The three-level page table as a map from virtual pages to physical pages and flags. A run of
`mappages`, `uvmunmap`, `uvmclear` and `walk` on one page table is followed by a run on maps. -/

namespace OsProject.Vm

abbrev PageMap := Nat → Option (Nat × Nat)

/-- `walk(va, 0)`, and the entry that it finds taken apart. -/
def readMap (pagetable va : Nat) : VmM (Option (Nat × Nat)) := do
  match ← walk pagetable va false with
  | none => return none
  | some entry =>
    let pte ← loadPte entry
    if pte &&& PTE_V = 0 then return none
    return some (PTE2PA pte, PTE_FLAGS pte)

inductive MapCall
  | mappages (va size pa perm : Nat)
  | uvmunmap (va npages : Nat) (doFree : Bool)
  | uvmclear (va : Nat)
  | walk (va : Nat) (alloc : Bool)
  | kalloc

def MapCall.run (L : Layout) (pagetable : Nat) : MapCall → VmM Int
  | .mappages va size pa perm => Vm.mappages pagetable va size pa perm
  | .uvmunmap va npages doFree => do
    Vm.uvmunmap L pagetable va npages doFree
    return 0
  | .uvmclear va => do
    Vm.uvmclear pagetable va
    return 0
  | .walk va alloc => do
    return if (← Vm.walk pagetable va alloc).isSome then 0 else -1
  | .kalloc => do
    return if (← Vm.kalloc).isSome then 0 else -1

/-- The tables at most `l` levels below `t`. -/
def tables (mem : Buffer) (l t : Nat) : List Nat := below (childOf mem) entries l t

/-- A page that the caller may free: it is in use, and not for a table of this page table. -/
def Disposable (L : Layout) (m : Phys) (pagetable pa : Nat) : Prop :=
  L.Page pa ∧ pa ∉ m.freelist ∧ pa ∉ tables m.mem 2 pagetable

/-- What the callers promise: addresses are page-aligned and below `MAXVA`, `perm` is a set of
flags, and a range that is freed has distinct pages that may be freed. -/
def MapCall.InContract (L : Layout) (pagetable : Nat) (m : Phys) : MapCall → Prop
  | .mappages va size pa perm => va % PGSIZE = 0 ∧ size % PGSIZE = 0 ∧ 0 < size ∧
    va + size ≤ MAXVA ∧ pa < 2 ^ 64 ∧ perm < 1024
  | .uvmunmap va npages doFree => va % PGSIZE = 0 ∧ va + npages * PGSIZE ≤ MAXVA ∧
    (doFree → ∀ w, va / PGSIZE ≤ w → w < va / PGSIZE + npages →
      ∀ pa, entryPage (leaf m.mem pagetable w) = some pa → Disposable L m pagetable pa ∧
        ∀ w', va / PGSIZE ≤ w' → w' < va / PGSIZE + npages →
          entryPage (leaf m.mem pagetable w') = some pa → w' = w)
  | .uvmclear va => va < MAXVA
  | .walk va _ => va < MAXVA
  | .kalloc => True

/-- The first `n` pages from `v` mapped to consecutive physical pages from the page of `pa`. -/
def PageMap.insert (f : PageMap) (v n pa perm : Nat) : PageMap := fun w =>
  if v ≤ w ∧ w < v + n then some (PGROUNDDOWN ((pa + (w - v) * PGSIZE) % 2 ^ 64), perm ||| PTE_V)
  else f w

def PageMap.erase (f : PageMap) (v n : Nat) : PageMap := fun w =>
  if v ≤ w ∧ w < v + n then none else f w

def PageMap.clearU (f : PageMap) (v : Nat) : PageMap := fun w =>
  if w = v then (f w).map fun e => (e.1, e.2 &&& (0x3FF - PTE_U)) else f w

/-- What a call that returns `ret` does to the map. A `mappages` that runs out of memory has
mapped the first pages of its range. -/
def MapCall.Effect (f : PageMap) (ret : Int) (g : PageMap) : MapCall → Prop
  | .mappages va size pa perm =>
    ret = 0 ∧ (∀ w, va / PGSIZE ≤ w → w < va / PGSIZE + size / PGSIZE → f w = none) ∧
        g = f.insert (va / PGSIZE) (size / PGSIZE) pa perm ∨
      ret = -1 ∧ ∃ k < size / PGSIZE, g = f.insert (va / PGSIZE) k pa perm
  | .uvmunmap va npages _ => g = f.erase (va / PGSIZE) npages
  | .uvmclear va => g = f.clearU (va / PGSIZE)
  | .walk _ _ => g = f
  | .kalloc => g = f

/-- The panics that are left: a page that is mapped already, and a page without a table. -/
def MapCall.Refused (f : PageMap) (e : VmPanic) : MapCall → Prop
  | .mappages va size _ _ =>
    e = .remap ∧ ∃ w, va / PGSIZE ≤ w ∧ w < va / PGSIZE + size / PGSIZE ∧ f w ≠ none
  | .uvmclear va => e = .uvmclear ∧ f (va / PGSIZE) = none
  | _ => False

/-- `walk` reads the map `f` and changes nothing. -/
def Shows (pagetable : Nat) (m : Phys) (f : PageMap) : Prop :=
  ∀ va, va < MAXVA → readMap pagetable va m = .ok (f (va / PGSIZE), m)

/-- Along the calls the page table shows a map, which each call changes by its effect. -/
def Tracked (L : Layout) (pagetable : Nat) : Phys → PageMap → List MapCall → Prop
  | m, f, [] => Shows pagetable m f
  | m, f, c :: cs => Shows pagetable m f ∧
    match c.run L pagetable m with
    | .ok (ret, m') => ∃ g, c.Effect f ret g ∧ Tracked L pagetable m' g cs
    | .error e => c.Refused f e

def CallsOk (L : Layout) (pagetable : Nat) : Phys → List MapCall → Prop
  | _, [] => True
  | m, c :: cs => c.InContract L pagetable m ∧
    ∀ ret m', c.run L pagetable m = .ok (ret, m') → CallsOk L pagetable m' cs

def mapOf (mem : Buffer) (r : Nat) : PageMap := fun w =>
  (entryPage (leaf mem r w)).map fun pa => (pa, PTE_FLAGS (leaf mem r w))

theorem mapOf_none {mem : Buffer} {r w : Nat} : mapOf mem r w = none ↔ leaf mem r w &&& PTE_V = 0 := by
  rw [mapOf, Option.map_eq_none_iff, entryPage_none]

theorem mapOf_congr {mem mem' : Buffer} {r w : Nat} (h : leaf mem' r w = leaf mem r w) :
    mapOf mem' r w = mapOf mem r w := by
  rw [mapOf, mapOf, h]

theorem shows_mapOf (r : Nat) (m : Phys) : Shows r m (mapOf m.mem r) := by
  intro va hva
  have hv : va / PGSIZE < 2 ^ 27 := by
    unfold MAXVA at hva
    unfold PGSIZE
    omega
  apply eq_ok_of_wp
  rw [readMap, wp_bind, wp_walk_lookup hva]
  cases ht : node (childOf m.mem) r (path (va / PGSIZE)) with
  | none =>
    refine ⟨?_, rfl⟩
    rw [eq_comm, mapOf_none, leaf_missing ht]
    rfl
  | some t =>
    have hload : getLE m.mem (t + 8 * slot (va / PGSIZE)) 8 = leaf m.mem r (va / PGSIZE) :=
      (leaf_eq hv ht).symm
    rw [Option.map_some, wp_bind, wp_loadPte, hload]
    by_cases hvalid : leaf m.mem r (va / PGSIZE) &&& PTE_V = 0
    · rw [if_pos hvalid]
      exact ⟨(mapOf_none.mpr hvalid).symm, rfl⟩
    · rw [if_neg hvalid]
      refine ⟨?_, rfl⟩
      rw [mapOf, entryPage, if_pos hvalid]
      rfl

/-- The page table at `r` is a space of its own, without user pages, and every page that is
neither free nor one of its tables is held under its own address. -/
structure TableInv (L : Layout) (r : Nat) (m : Phys) (B : Books Unit Nat)
    (own : Nat → Option (Use Unit Nat)) : Prop where
  frames : Frames L B m own
  top : B.top () = 0
  root : B.root () = some r
  tag : ∀ p q, B.held p = some q → p = q

theorem exists_mul_of_aligned {x : Nat} (h : x % PGSIZE = 0) : ∃ v, x = v * PGSIZE :=
  ⟨x / PGSIZE, (Nat.div_mul_cancel (Nat.dvd_of_mod_eq_zero h)).symm⟩

section Calls

variable {L : Layout} {r va size npages pa perm : Nat} {m : Phys} {B : Books Unit Nat}
  {own : Nat → Option (Use Unit Nat)}

theorem mappages_effect (h : TableInv L r m B own)
    (hc : (MapCall.mappages va size pa perm).InContract L r m) :
    wp (Vm.mappages r va size pa perm) (fun ret m' => (∃ own', TableInv L r m' B own') ∧
      (MapCall.mappages va size pa perm).Effect (mapOf m.mem r) ret (mapOf m'.mem r))
      (fun e => (MapCall.mappages va size pa perm).Refused (mapOf m.mem r) e) m := by
  obtain ⟨hva, hsize, hpos, hmax, hpa, hperm⟩ := hc
  obtain ⟨v, rfl⟩ := exists_mul_of_aligned hva
  obtain ⟨n, rfl⟩ := exists_mul_of_aligned hsize
  have hn : 0 < n := Nat.pos_of_mul_pos_right hpos
  have hv : v + n ≤ 2 ^ 26 := by
    unfold MAXVA PGSIZE at hmax
    omega
  have hdiv : ∀ k, k * PGSIZE / PGSIZE = k := fun k => Nat.mul_div_cancel k (by decide)
  have hmap : ∀ {k m' own'}, Ranged L B () r v k pa perm m own m' own' →
      mapOf m'.mem r = (mapOf m.mem r).insert v k pa perm := by
    intro k m' own' hr
    funext w
    unfold PageMap.insert
    split_ifs with hw
    · have hleaf : leaf m'.mem r w = mkPte ((pa + (w - v) * PGSIZE) % 2 ^ 64) perm := by
        rw [hr.leaf, if_pos hw]
      rw [mapOf, hleaf, entryPage, if_pos (mkPte_valid hperm), Option.map_some, flags_mkPte hperm,
        PTE2PA_mkPte (Nat.mod_lt _ (by decide)) hperm]
    · exact mapOf_congr (by rw [hr.leaf, if_neg hw])
  refine mappages_range h.frames h.root (by rw [h.top]; exact Nat.zero_le v) hn hv hpa hperm ?_ ?_ ?_
  · intro w hw hw' hvalid
    refine ⟨rfl, w, ?_, ?_, fun hnone => hvalid (mapOf_none.mp hnone)⟩
    · rwa [hdiv]
    · rwa [hdiv, hdiv]
  · intro k m' own' hk hr _ _
    refine ⟨⟨own', hr.frames, h.top, h.root, h.tag⟩, .inr ⟨rfl, k, ?_, ?_⟩⟩
    · rwa [hdiv]
    · rw [hdiv, hmap hr]
  · intro m' own' hfresh hr _ _
    refine ⟨⟨own', hr.frames, h.top, h.root, h.tag⟩, .inl ⟨rfl, ?_, ?_⟩⟩
    · rw [hdiv, hdiv]
      exact fun w hw hw' => mapOf_none.mpr (hfresh w hw hw')
    · rw [hdiv, hdiv, hmap hr]

theorem Frames.mem_tables {i : Unit} (F : Frames L B m own) (hr : B.root i = some r) (q : Nat) :
    q ∈ tables m.mem 2 r ↔ L.Page q ∧ ∃ p, own q = some (.table i p) := by
  rw [tables, mem_below mem_entries]
  constructor
  · rintro ⟨p, hp, hq⟩
    exact ⟨(F.table hr hp hq).1, p, (F.table hr hp hq).2⟩
  · rintro ⟨hpage, p, hown⟩
    have hloc := (F.exact _ _).mpr ⟨hpage, hown⟩
    by_cases hp : p.length ≤ 2
    · exact ⟨p, hp, by rwa [loc_table B _ hr hp] at hloc⟩
    · simp [Books.loc, hp] at hloc

theorem TableInv.held (h : TableInv L r m B own) (hpa : Disposable L m r pa) :
    B.held pa = some pa := by
  obtain ⟨hpage, hfree, htable⟩ := hpa
  cases ho : own pa with
  | none => exact absurd ((h.frames.free pa).mpr ⟨hpage, ho⟩) hfree
  | some u =>
    have hloc := (h.frames.exact u pa).mpr ⟨hpage, ho⟩
    cases u with
    | table i p => exact absurd ((h.frames.mem_tables h.root pa).mpr ⟨hpage, p, ho⟩) htable
    | user i w => simp [Books.loc, h.top] at hloc
    | held t =>
      obtain rfl := h.tag t pa hloc
      exact hloc

structure Unmapping (L : Layout) (r v n : Nat) (m : Phys) (k : Nat) (m' : Phys) : Prop where
  inv : ∃ B own, TableInv L r m' B own ∧ ∀ w, v + k ≤ w → w < v + n →
    ∀ pa, entryPage (leaf m.mem r w) = some pa → B.held pa = some pa
  off : ∀ w, v ≤ w → w < v + k → entryPage (leaf m'.mem r w) = none
  keep : ∀ w, ¬ (v ≤ w ∧ w < v + k) → leaf m'.mem r w = leaf m.mem r w

theorem mapOf_erase {v n : Nat} {m' : Phys}
    (hoff : ∀ w, v ≤ w → w < v + n → entryPage (leaf m'.mem r w) = none)
    (hkeep : ∀ w, ¬ (v ≤ w ∧ w < v + n) → leaf m'.mem r w = leaf m.mem r w) :
    mapOf m'.mem r = (mapOf m.mem r).erase v n := by
  funext w
  unfold PageMap.erase
  split_ifs with hw
  · rw [mapOf, hoff w hw.1 hw.2]
    rfl
  · exact mapOf_congr (hkeep w hw)

theorem unmapPage_held {v n k : Nat} {m' : Phys} {E : VmPanic → Prop} (hv : v + n ≤ 2 ^ 26)
    (hk : k < n)
    (hinj : ∀ w w' pa, v ≤ w → w < v + n → v ≤ w' → w' < v + n →
      entryPage (leaf m.mem r w) = some pa → entryPage (leaf m.mem r w') = some pa → w' = w)
    (h : Unmapping L r v n m k m') :
    wp (unmapPage L r ((v + k) * PGSIZE) true) (fun _ m'' => Unmapping L r v n m (k + 1) m'') E m' := by
  obtain ⟨⟨B, own, hinv, hheld⟩, hoff, hkeep⟩ := h
  have hleaf : leaf m'.mem r (v + k) = leaf m.mem r (v + k) := hkeep _ (by omega)
  refine wp_unmapPage (by omega) ?_ ?_
  · intro hnone
    refine ⟨⟨B, own, hinv, fun w hw => hheld w (by omega)⟩, ?_, fun w hw => hkeep w (by omega)⟩
    intro w hw hw'
    by_cases hwk : w = v + k
    · rw [hwk]
      exact hnone
    · exact hoff w hw (by omega)
  · intro c t hc ht
    rw [hleaf] at hc
    have hb := hheld (v + k) le_rfl (by omega) c hc
    have hpage : L.Page c ∧ own c = some (.held c) := (hinv.frames.exact (.held c) c).mp hb
    have hsame : ∀ q, q ≠ c → SamePage m'.mem (memset m'.mem c 1 PGSIZE) q :=
      fun q hq => samePage_memset hpage.1.1 hq 1
    obtain ⟨hF, -⟩ := hinv.frames.release hb hsame
    have hspace := hinv.frames.space_same hinv.root (x := memset m'.mem c 1 PGSIZE)
      fun q p _ ho => hsame q (by rintro rfl; rw [hpage.2] at ho; cases ho)
    have hroot : (B.hold c none).root () = some r := hinv.root
    have hstored := hF.leafStored (v := v + k) (x := 0) hroot (by omega)
      ((hspace.1 _ le_rfl).trans ht) (by decide)
    have hF' := hF.keep_leaf hroot
      (fun hlow => absurd hlow (by rw [show (B.hold c none).top () = 0 from hinv.top]; omega)) hstored
    rw [if_pos rfl, wp_kfree hpage.1]
    refine ⟨⟨B.hold c none, _, ⟨hF', hinv.top, hroot, ?_⟩, ?_⟩, ?_, ?_⟩
    · intro p q hq
      by_cases hpc : p = c
      · subst hpc
        simp [Books.hold] at hq
      · simp only [Books.hold, Function.update_of_ne hpc] at hq
        exact hinv.tag p q hq
    · intro w hw hw' pa hpa
      have hne : pa ≠ c := by
        rintro rfl
        have heq := hinj (v + k) w pa (by omega) (by omega) (by omega) hw' hc hpa
        omega
      simp only [Books.hold, Function.update_of_ne hne]
      exact hheld w (by omega) hw' pa hpa
    · intro w hw hw'
      rw [hstored.here]
      split_ifs with hwk
      · rfl
      · rw [hspace.2]
        exact hoff w hw (by omega)
    · intro w hw
      rw [hstored.here, if_neg (by omega), hspace.2]
      exact hkeep w (by omega)

theorem uvmunmap_effect {doFree : Bool} (h : TableInv L r m B own)
    (hc : (MapCall.uvmunmap va npages doFree).InContract L r m) {E : VmPanic → Prop} :
    wp (Vm.uvmunmap L r va npages doFree) (fun _ m' => (∃ B' own', TableInv L r m' B' own') ∧
      mapOf m'.mem r = (mapOf m.mem r).erase (va / PGSIZE) npages) E m := by
  obtain ⟨hva, hmax, hfree⟩ := hc
  obtain ⟨v, rfl⟩ := exists_mul_of_aligned hva
  have hdiv : v * PGSIZE / PGSIZE = v := Nat.mul_div_cancel v (by decide)
  have hv : v + npages ≤ 2 ^ 26 := by
    unfold MAXVA PGSIZE at hmax
    omega
  rw [hdiv] at hfree ⊢
  cases doFree with
  | false =>
    refine wp_post (uvmunmap_high h.frames h.root (by rw [h.top]; exact Nat.zero_le v) hv) ?_
    intro _ m' hcleared
    exact ⟨⟨B, own, hcleared.frames, h.top, h.root, h.tag⟩, mapOf_erase hcleared.off hcleared.keep⟩
  | true =>
    have hstart : Unmapping L r v npages m 0 m :=
      ⟨⟨B, own, h, fun w hw hw' pa hpa => h.held (hfree rfl w hw hw' pa hpa).1⟩,
        fun w hw hw' => absurd hw' (by omega), fun _ _ => rfl⟩
    refine wp_post (wp_uvmunmap hv (fun k m' hk hI => unmapPage_held hv hk ?_ hI) hstart) ?_
    · intro w w' pa hw hwn hw' hwn' hpa hpa'
      exact (hfree rfl w hw hwn pa hpa).2 w' hw' hwn' hpa'
    · rintro _ m' ⟨⟨B', own', hinv, -⟩, hoff, hkeep⟩
      exact ⟨⟨B', own', hinv⟩, mapOf_erase hoff hkeep⟩

theorem mapOf_clearU {v : Nat} {m' : Phys}
    (h : ∀ w, leaf m'.mem r w = if w = v then clearUser (leaf m.mem r w) else leaf m.mem r w) :
    mapOf m'.mem r = (mapOf m.mem r).clearU v := by
  funext w
  unfold PageMap.clearU
  split_ifs with hw
  · have hlt := leaf_lt m.mem r w
    rw [mapOf, mapOf, h w, if_pos hw, entryPage_clearUser hlt, Option.map_map]
    congr 1
    funext pa
    exact congrArg (Prod.mk pa) (Vm.clearU hlt).2.2
  · exact mapOf_congr (by rw [h w, if_neg hw])

theorem TableInv.alloc (h : TableInv L r m B own) {E : VmPanic → Prop} :
    wp Vm.kalloc (fun _ m' => (∃ B' own', TableInv L r m' B' own') ∧
      mapOf m'.mem r = mapOf m.mem r) E m := by
  refine wp_kalloc (fun _ => ⟨⟨B, own, h⟩, rfl⟩) fun c rest hfree => ?_
  have hc := (h.frames.free c).mp (by rw [hfree]; exact List.mem_cons_self)
  have hb : B.held c = none := by
    cases ho : B.held c with
    | none => rfl
    | some q =>
      obtain rfl := h.tag c q ho
      have hown : own c = some (.held c) := ((h.frames.exact (.held c) c).mp ho).2
      rw [hc.2] at hown
      cases hown
  have hsame : ∀ q, q ≠ c → SamePage m.mem (memset m.mem c 5 PGSIZE) q := fun q hq =>
    samePage_memset hc.1.1 hq 5
  have hspace := h.frames.space_same h.root (x := memset m.mem c 5 PGSIZE)
    fun q p _ ho => hsame q (by rintro rfl; rw [hc.2] at ho; cases ho)
  refine ⟨⟨B.hold c (some c), _, (h.frames.alloc hfree hb hsame).1, h.top, h.root, ?_⟩,
    funext fun w => mapOf_congr (hspace.2 w)⟩
  intro p q hq
  by_cases hpc : p = c
  · subst hpc
    simpa [Books.hold] using hq
  · simp only [Books.hold, Function.update_of_ne hpc] at hq
    exact h.tag p q hq

theorem call_effect (h : TableInv L r m B own) (c : MapCall) (hc : c.InContract L r m) :
    wp (c.run L r) (fun ret m' => (∃ B' own', TableInv L r m' B' own') ∧
      c.Effect (mapOf m.mem r) ret (mapOf m'.mem r)) (fun e => c.Refused (mapOf m.mem r) e) m := by
  cases c with
  | mappages va size pa perm =>
    exact wp_post (mappages_effect h hc) fun _ _ hr => ⟨⟨B, hr.1⟩, hr.2⟩
  | uvmunmap va npages doFree =>
    rw [MapCall.run, wp_bind]
    exact uvmunmap_effect h hc
  | uvmclear va =>
    rw [MapCall.run, wp_bind]
    refine uvmclear_spec h.frames h.root hc ?_ ?_
    · exact fun hmissing => ⟨rfl, mapOf_none.mpr (by rw [leaf_missing hmissing]; rfl)⟩
    · intro m' hF _ hleaf
      exact ⟨⟨B, own, hF, h.top, h.root, h.tag⟩, mapOf_clearU hleaf⟩
  | walk va alloc =>
    rw [MapCall.run, wp_bind]
    cases alloc with
    | false =>
      rw [wp_walk_lookup hc]
      exact ⟨⟨B, own, h⟩, rfl⟩
    | true =>
      refine wp_walk_alloc h.frames h.root hc ?_ ?_
      · intro m' own' hgrown _ _
        exact ⟨⟨B, own', hgrown.frames, h.top, h.root, h.tag⟩,
          funext fun w => mapOf_congr (hgrown.leaf w)⟩
      · intro t m' own' hgrown _ _ _
        exact ⟨⟨B, own', hgrown.frames, h.top, h.root, h.tag⟩,
          funext fun w => mapOf_congr (hgrown.leaf w)⟩
  | kalloc =>
    rw [MapCall.run, wp_bind]
    exact h.alloc

theorem TableInv.tracked (h : TableInv L r m B own) {calls : List MapCall}
    (hcalls : CallsOk L r m calls) : Tracked L r m (mapOf m.mem r) calls := by
  induction calls generalizing m B own with
  | nil => exact shows_mapOf r m
  | cons c cs ih =>
    refine ⟨shows_mapOf r m, ?_⟩
    have hstep := call_effect h c hcalls.1
    unfold wp at hstep
    cases hrun : c.run L r m with
    | ok res =>
      rw [hrun] at hstep
      obtain ⟨⟨B', own', h'⟩, heffect⟩ := hstep
      exact ⟨_, heffect, ih h' (hcalls.2 res.1 res.2 hrun)⟩
    | error e =>
      rw [hrun] at hstep
      exact hstep

end Calls

theorem frames_start {L : Layout} {m : Phys} (top : Nat) (hnodup : m.freelist.Nodup)
    (hpages : ∀ p ∈ m.freelist, L.Page p) :
    Frames L (⟨fun _ => top, fun _ => none, fun p => if L.Page p ∧ p ∉ m.freelist then some p else none⟩ :
      Books Unit Nat) m (fun p => if p ∈ m.freelist then none else some (.held p)) := by
  refine ⟨?_, hnodup, ?_, ?_⟩
  · intro u p
    cases u with
    | table i q => simp [Books.loc]
    | user i w => simp [Books.loc]
    | held t =>
      simp only [Books.loc]
      by_cases hp : p ∈ m.freelist
      · rw [if_pos hp]
        constructor
        · intro h
          split_ifs at h with ht
          cases h
          exact absurd hp ht.2
        · rintro ⟨-, ⟨⟩⟩
      · rw [if_neg hp]
        constructor
        · intro h
          split_ifs at h with ht
          cases h
          exact ⟨ht.1, rfl⟩
        · rintro ⟨hpage, ⟨⟩⟩
          rw [if_pos ⟨hpage, hp⟩]
  · intro p
    by_cases hp : p ∈ m.freelist
    · simp [hp, hpages p hp]
    · simp [hp]
  · intro i q t j ht
    simp [Books.loc] at ht

/-- A page table that is built from `uvmcreate` shows a map, which is empty at first. A `mappages`
that succeeds maps exactly its range, `uvmunmap` clears exactly its range, `uvmclear` takes one
flag, and a `walk` changes nothing, whether it finds the memory for its tables or not. -/
theorem pagetable_refines_map {L : Layout} {m m' : Phys} {r : Nat} (hnodup : m.freelist.Nodup)
    (hpages : ∀ p ∈ m.freelist, L.Page p) (hcreate : uvmcreate m = .ok (some r, m'))
    (calls : List MapCall) (hcalls : CallsOk L r m' calls) :
    Tracked L r m' (fun _ => none) calls := by
  have hspec : wp uvmcreate (fun ret m' => ∀ c, ret = some c →
      (∃ B own, TableInv L c m' B own) ∧ mapOf m'.mem c = fun _ => none) (fun _ => True) m := by
    refine uvmcreate_spec (i := ()) (frames_start 0 hnodup hpages) rfl ?_ ?_
    · rintro _ c ⟨⟩
    · rintro c m' own' _ hF _ hzero _ ⟨⟩
      refine ⟨⟨_, own', hF, rfl, rfl, ?_⟩, funext fun w => mapOf_none.mpr ?_⟩
      · intro p q hq
        simp only [Books.setRoot] at hq
        split_ifs at hq
        exact Option.some.inj hq
      · rw [leaf_empty hzero]
        rfl
  obtain ⟨⟨B, own, h⟩, hempty⟩ := wp_ok hspec hcreate r rfl
  rw [← hempty]
  exact h.tracked hcalls

def smallPhys : Phys := ⟨fun _ => 0, (List.range 8).map fun k => PHYSTOP - (k + 1) * PGSIZE⟩

theorem pagetable_refines_map_small : ∃ m', uvmcreate smallPhys = .ok (some (PHYSTOP - PGSIZE), m') ∧
    Tracked smallLayout (PHYSTOP - PGSIZE) m' (fun _ => none)
      [.mappages 0 (2 * PGSIZE) KERNBASE (PTE_R ||| PTE_U), .walk TRAPFRAME true, .uvmclear PGSIZE,
        .uvmunmap 0 1 false, .mappages 0 PGSIZE KERNBASE PTE_R] := by
  refine ⟨_, rfl, pagetable_refines_map (L := smallLayout) (m := smallPhys) (by decide) (by decide)
    rfl _ ⟨?_, fun _ _ _ => ⟨?_, fun _ _ _ => ⟨?_, fun _ _ _ => ⟨?_, fun _ _ _ => ⟨?_, ?_⟩⟩⟩⟩⟩⟩
  · exact ⟨by decide, by decide, by decide, by decide, by decide, by decide⟩
  · show TRAPFRAME < MAXVA
    decide
  · show PGSIZE < MAXVA
    decide
  · exact ⟨by decide, by decide, nofun⟩
  · exact ⟨by decide, by decide, by decide, by decide, by decide, by decide⟩
  · exact fun _ _ _ => trivial

end OsProject.Vm
