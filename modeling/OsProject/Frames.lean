import OsProject.Ledger
import OsProject.PageTable
import OsProject.Radix

/-! Who uses which physical page. Every page of the allocator's range is on the free list, a
table of one address space, a user page of one address space, or held by some other owner, and
each change that the kernel makes to its page tables keeps these books. -/

namespace OsProject.Vm

def entryPage (v : Nat) : Option Nat := if v &&& PTE_V ≠ 0 then some (PTE2PA v) else none

def childOf (mem : Buffer) (t : Nat) (i : Index) : Option Nat := entryPage (pte mem t i)

/-- The indices of a virtual page in the two upper levels, the lower level first. -/
def path (vpn : Nat) : List Index := [Fin.ofNat 512 (vpn / 512), Fin.ofNat 512 (vpn / 512 ^ 2)]

def slot (vpn : Nat) : Index := Fin.ofNat 512 vpn

def leaf (mem : Buffer) (r vpn : Nat) : Nat :=
  if vpn < 2 ^ 27 then (node (childOf mem) r (path vpn)).elim 0 (pte mem · (slot vpn)) else 0

inductive Use (ι τ : Type)
  | table (i : ι) (p : List Index)
  | user (i : ι) (vpn : Nat)
  | held (t : τ)
  deriving DecidableEq

def Use.space {ι τ : Type} : Use ι τ → Option ι
  | .table i _ => some i
  | .user i _ => some i
  | .held _ => none

/-- The address spaces `ι` and the other owners `τ`. Below `top i` the leaves of space `i` are
its own pages. -/
@[ext] structure Books (ι τ : Type) where
  top : ι → Nat
  root : ι → Option Nat
  held : τ → Option Nat

variable {ι τ : Type}

def Books.loc (B : Books ι τ) (mem : Buffer) : Use ι τ → Option Nat
  | .table i p => (B.root i).bind fun r => if p.length ≤ 2 then node (childOf mem) r p else none
  | .user i vpn =>
    (B.root i).bind fun r => if vpn < B.top i then entryPage (leaf mem r vpn) else none
  | .held t => B.held t

structure Frames (L : Layout) (B : Books ι τ) (m : Phys) (own : Nat → Option (Use ι τ)) : Prop where
  exact : Exact L.Page (B.loc m.mem) own
  nodup : m.freelist.Nodup
  free : ∀ p, p ∈ m.freelist ↔ L.Page p ∧ own p = none
  inner : ∀ i p t j, B.loc m.mem (.table i p) = some t → p.length < 2 →
    pte m.mem t j &&& PTE_V ≠ 0 → PTE_FLAGS (pte m.mem t j) = PTE_V

section Paths

theorem PX_eq (level va : Nat) : PX level va = Fin.ofNat 512 (va / PGSIZE / 512 ^ level) := by
  apply Fin.ext
  have hpow : 2 ^ (12 + 9 * level) = PGSIZE * 512 ^ level := by
    rw [pow_add, pow_mul, PGSIZE]
    norm_num
  simp only [PX, Fin.ofNat, Nat.shiftRight_eq_div_pow, hpow, ← Nat.div_div_eq_div_mul]
  exact Nat.and_two_pow_sub_one_eq_mod _ 9

theorem path_inj {v w : Nat} (hv : v < 2 ^ 27) (hw : w < 2 ^ 27) (hp : path v = path w)
    (hs : slot v = slot w) : v = w := by
  simp only [path, slot, List.cons.injEq, and_true, Fin.ext_iff, Fin.ofNat] at hp hs
  omega

@[simp] theorem path_length (v : Nat) : (path v).length = 2 := rfl

end Paths

theorem leaf_eq {mem : Buffer} {r t v : Nat} (hv : v < 2 ^ 27)
    (ht : node (childOf mem) r (path v) = some t) : leaf mem r v = pte mem t (slot v) := by
  rw [leaf, if_pos hv, ht]
  rfl

theorem leaf_missing {mem : Buffer} {r v : Nat} (ht : node (childOf mem) r (path v) = none) :
    leaf mem r v = 0 := by
  rw [leaf, ht]
  simp

theorem leaf_lt (mem : Buffer) (r v : Nat) : leaf mem r v < 2 ^ 64 := by
  unfold leaf
  split_ifs
  · cases node (childOf mem) r (path v) with
    | none => exact Nat.two_pow_pos 64
    | some t => exact pte_lt mem t _
  · exact Nat.two_pow_pos 64

theorem node_empty {mem : Buffer} {c : Nat} (h : ∀ k, pte mem c k = 0) (j : Index)
    (q : List Index) : node (childOf mem) c (j :: q) = none := by
  induction q generalizing j with
  | nil =>
    rw [node_cons (t := c) rfl, childOf, h]
    rfl
  | cons k q ih =>
    rw [node, ih k]
    rfl

theorem leaf_empty {mem : Buffer} {c : Nat} (h : ∀ k, pte mem c k = 0) (v : Nat) :
    leaf mem c v = 0 := leaf_missing (node_empty h _ _)

theorem space_congr {mem mem' : Buffer} {r : Nat}
    (h : ∀ p t, p.length ≤ 2 → node (childOf mem) r p = some t → ∀ j, pte mem' t j = pte mem t j) :
    (∀ p, p.length ≤ 2 → node (childOf mem') r p = node (childOf mem) r p) ∧
      ∀ v, leaf mem' r v = leaf mem r v := by
  have hnode : ∀ p, p.length ≤ 2 → node (childOf mem') r p = node (childOf mem) r p := by
    intro p hp
    refine node_congr (n := 2) ?_ hp
    intro q t hq ht j
    rw [childOf, childOf, h q t hq.le ht j]
  refine ⟨hnode, fun v => ?_⟩
  unfold leaf
  rw [hnode (path v) le_rfl]
  cases ht : node (childOf mem) r (path v) with
  | none => rfl
  | some t => simp only [Option.elim, h (path v) t le_rfl ht]

theorem entryPage_mkPte {L : Layout} {c perm : Nat} (hc : L.Page c) (hperm : perm < 1024) :
    entryPage (mkPte c perm) = some c := by
  obtain ⟨haligned, -, htop⟩ := hc
  have hlt : c < 2 ^ 64 := by
    unfold PHYSTOP KERNBASE at htop
    omega
  rw [entryPage, if_pos (mkPte_valid hperm), PTE2PA_mkPte hlt hperm]
  unfold PGROUNDDOWN PGSIZE at *
  congr 1
  omega

section Frames

variable {L : Layout} {B : Books ι τ} {m : Phys} {own : Nat → Option (Use ι τ)} {i : ι} {c r t v x : Nat}
  {mem : Buffer} {rest : List Nat} {p : List Index}

theorem loc_table (B : Books ι τ) (mem : Buffer) (hr : B.root i = some r) (hp : p.length ≤ 2) :
    B.loc mem (.table i p) = node (childOf mem) r p := by
  simp [Books.loc, hr, hp]

theorem loc_user (B : Books ι τ) (mem : Buffer) (hr : B.root i = some r) (hv : v < B.top i) :
    B.loc mem (.user i v) = entryPage (leaf mem r v) := by
  simp [Books.loc, hr, hv]

namespace Frames

theorem table (F : Frames L B m own) (hr : B.root i = some r) (hp : p.length ≤ 2)
    (ht : node (childOf m.mem) r p = some t) : L.Page t ∧ own t = some (.table i p) :=
  (F.exact _ _).mp ((loc_table B m.mem hr hp).trans ht)

theorem apart (F : Frames L B m own) (hr : B.root i = some r) : Apart (childOf m.mem) r 2 := by
  intro p q t hp hq ht ht'
  have hu := (F.table hr hp ht).2.symm.trans (F.table hr hq ht').2
  simpa using hu

theorem space_same (F : Frames L B m own) {x : Buffer} (hr : B.root i = some r)
    (h : ∀ t q, L.Page t → own t = some (.table i q) → SamePage m.mem x t) :
    (∀ p, p.length ≤ 2 → node (childOf x) r p = node (childOf m.mem) r p) ∧
      ∀ v, leaf x r v = leaf m.mem r v := by
  apply space_congr
  intro p t hp ht
  have hpage := F.table hr hp ht
  exact pte_congr hpage.1.1 (h t p hpage.1 hpage.2)

theorem loc_same (F : Frames L B m own) {mem' : Buffer} {u : Use ι τ} {o : Option ι}
    (hu : u.space ≠ o)
    (h : ∀ k, some k ≠ o → ∀ t q, L.Page t → own t = some (.table k q) → SamePage m.mem mem' t) :
    B.loc mem' u = B.loc m.mem u := by
  cases u with
  | table i p =>
    cases hr : B.root i with
    | none => simp [Books.loc, hr]
    | some r =>
      have hs := F.space_same hr (h i hu)
      by_cases hp : p.length ≤ 2
      · rw [loc_table B _ hr hp, loc_table B _ hr hp, hs.1 p hp]
      · simp [Books.loc, hp]
  | user i v =>
    cases hr : B.root i with
    | none => simp [Books.loc, hr]
    | some r =>
      have hs := F.space_same hr (h i hu)
      simp only [Books.loc, hr, Option.bind_some, hs.2]
  | held t => rfl

theorem write (F : Frames L B m own) {mem' : Buffer}
    (h : ∀ t i q, L.Page t → own t = some (.table i q) → SamePage m.mem mem' t) :
    Frames L B ⟨mem', m.freelist⟩ own := by
  have hloc : B.loc mem' = B.loc m.mem := by
    funext u
    cases u with
    | table i p => exact F.loc_same (o := none) (by simp [Use.space]) fun k _ t q => h t k q
    | user i v => exact F.loc_same (o := none) (by simp [Use.space]) fun k _ t q => h t k q
    | held t => rfl
  refine ⟨by rw [hloc]; exact F.exact, F.nodup, F.free, ?_⟩
  intro i p t j ht hp
  rw [hloc] at ht
  have hpage := (F.exact _ _).mp ht
  rw [pte_congr hpage.1.1 (h t i p hpage.1 hpage.2)]
  exact F.inner i p t j ht hp

theorem head (F : Frames L B ⟨mem, c :: rest⟩ own) : L.Page c ∧ own c = none ∧ c ∉ rest :=
  have hfree := (F.free c).mp List.mem_cons_self
  ⟨hfree.1, hfree.2, (List.nodup_cons.mp F.nodup).1⟩

theorem free_tail (F : Frames L B ⟨mem, c :: rest⟩ own) (u : Use ι τ) (q : Nat) :
    q ∈ rest ↔ L.Page q ∧ Function.update own c (some u) q = none := by
  by_cases hq : q = c
  · subst hq
    simp [F.head.2.2]
  · have hmem : q ∈ rest ↔ q ∈ c :: rest := by simp [hq]
    rw [Function.update_of_ne hq, hmem]
    exact F.free q

theorem free_cons (F : Frames L B m own) {u : Use ι τ} (hc : L.Page c) (hown : own c = some u) :
    (c :: m.freelist).Nodup ∧
      ∀ q, q ∈ c :: m.freelist ↔ L.Page q ∧ Function.update own c none q = none := by
  have hnot : c ∉ m.freelist := by
    intro hmem
    rw [((F.free c).mp hmem).2] at hown
    cases hown
  refine ⟨List.nodup_cons.mpr ⟨hnot, F.nodup⟩, fun q => ?_⟩
  by_cases hq : q = c
  · subst hq
    simp [hc]
  · rw [Function.update_of_ne hq, ← F.free q]
    simp [hq]

end Frames

structure LeafStored (B : Books ι τ) (i : ι) (r v x : Nat) (mem mem' : Buffer) : Prop where
  table : ∀ k s, B.root k = some s → ∀ q, q.length ≤ 2 →
    node (childOf mem') s q = node (childOf mem) s q
  upper : ∀ k s, B.root k = some s → ∀ q, q.length < 2 → ∀ u, node (childOf mem) s q = some u →
    ∀ j, pte mem' u j = pte mem u j
  here : ∀ w, leaf mem' r w = if w = v then x else leaf mem r w
  other : ∀ k s, k ≠ i → B.root k = some s → ∀ w, leaf mem' s w = leaf mem s w

theorem Frames.leafStored (F : Frames L B m own) (hr : B.root i = some r) (hv : v < 2 ^ 27)
    (ht : node (childOf m.mem) r (path v) = some t) (hx : x < 2 ^ 64) :
    LeafStored B i r v x m.mem (putLE m.mem (t + 8 * slot v) 8 x) := by
  have htp := F.table hr (path_length v).le ht
  have hpte : ∀ {k s q u}, B.root k = some s → q.length ≤ 2 → node (childOf m.mem) s q = some u →
      ¬ (k = i ∧ q = path v) → ∀ j, pte (putLE m.mem (t + 8 * slot v) 8 x) u j = pte m.mem u j := by
    intro k s q u hs hq hu hn j
    have hup := F.table hs hq hu
    refine pte_congr hup.1.1 (samePage_putLE htp.1.1 ?_ _ _) j
    rintro rfl
    rw [htp.2] at hup
    simp only [Option.some.injEq, Use.table.injEq] at hup
    exact hn ⟨hup.2.1.symm, hup.2.2.symm⟩
  have htable : ∀ k s, B.root k = some s → ∀ q, q.length ≤ 2 →
      node (childOf (putLE m.mem (t + 8 * slot v) 8 x)) s q = node (childOf m.mem) s q := by
    intro k s hs q hq
    refine node_congr (n := 2) (fun q' u hq' hu j => ?_) hq
    rw [childOf, childOf, hpte hs hq'.le hu]
    rintro ⟨-, rfl⟩
    exact absurd hq' (by simp)
  refine ⟨htable, ?_, ?_, ?_⟩
  · intro k s hs q hq u hu
    refine hpte hs hq.le hu ?_
    rintro ⟨-, rfl⟩
    exact absurd hq (by simp)
  · intro w
    by_cases hw : w < 2 ^ 27
    · have hsame := htable i r hr (path w) le_rfl
      cases hu : node (childOf m.mem) r (path w) with
      | none =>
        have hwv : w ≠ v := by
          rintro rfl
          rw [ht] at hu
          cases hu
        rw [leaf_missing (hsame.trans hu), leaf_missing hu, if_neg hwv]
      | some u =>
        rw [leaf_eq hw (hsame.trans hu), leaf_eq hw hu]
        by_cases hp : path w = path v
        · rw [hp, ht] at hu
          cases hu
          by_cases hwv : w = v
          · rw [if_pos hwv, hwv, pte_putLE hx]
          · rw [if_neg hwv, pte_putLE_of_ne fun hs => hwv (path_inj hw hv hp hs)]
        · have hwv : w ≠ v := by
            rintro rfl
            exact hp rfl
          rw [if_neg hwv, hpte hr le_rfl hu fun h => hp h.2]
    · have hwv : w ≠ v := by
        rintro rfl
        exact hw hv
      rw [leaf, leaf, if_neg hw, if_neg hw, if_neg hwv]
  · intro k s hk hs w
    exact (space_congr fun q u hq hu => hpte hs hq hu fun h => hk h.1).2 w

theorem LeafStored.inner {mem' : Buffer} (F : Frames L B m own)
    (h : LeafStored B i r v x m.mem mem') : ∀ k q u j, B.loc mem' (.table k q) = some u →
    q.length < 2 → pte mem' u j &&& PTE_V ≠ 0 → PTE_FLAGS (pte mem' u j) = PTE_V := by
  intro k q u j hu hq hv
  cases hs : B.root k with
  | none => simp [Books.loc, hs] at hu
  | some s =>
    rw [loc_table B _ hs hq.le, h.table k s hs q hq.le] at hu
    rw [h.upper k s hs q hq u hu] at hv ⊢
    exact F.inner k q u j ((loc_table B _ hs hq.le).trans hu) hq hv

end Frames

section Footprints

variable {L : Layout} {B B' : Books ι τ} {m m' m'' : Phys} {own own' own'' : Nat → Option (Use ι τ)}
  {S S' : Option (Use ι τ) → Prop} {i : ι} {r v : Nat}

structure Local (L : Layout) (S : Option (Use ι τ) → Prop) (m : Phys) (own : Nat → Option (Use ι τ))
    (m' : Phys) (own' : Nat → Option (Use ι τ)) : Prop where
  roles : Within L.Page S own own'
  bytes : ∀ p, L.Page p → ¬ S (own p) → SamePage m.mem m'.mem p
  outside : ∀ a, ¬ L.Page (PGROUNDDOWN a) → m'.mem a = m.mem a

def tablesOf (i : ι) : Option (Use ι τ) → Prop
  | none => True
  | some (.table k _) => k = i
  | _ => False

def spaceOf (i : ι) (a : τ) : Option (Use ι τ) → Prop
  | none => True
  | some (.held b) => b = a
  | some u => u.space = some i

theorem Local.refl (L : Layout) (S : Option (Use ι τ) → Prop) (m : Phys)
    (own : Nat → Option (Use ι τ)) : Local L S m own m own :=
  ⟨Within.refl own, fun p _ _ => SamePage.refl _ p, fun _ _ => rfl⟩

theorem Local.trans (h : Local L S m own m' own') (h' : Local L S m' own' m'' own'') :
    Local L S m own m'' own'' := by
  refine ⟨h.roles.trans h'.roles, ?_, fun a ha => (h'.outside a ha).trans (h.outside a ha)⟩
  intro p hp hs
  have hown := h.roles.own_eq hp hs
  exact (h.bytes p hp hs).trans (h'.bytes p hp (by rwa [hown]))

theorem Local.mono (h : Local L S m own m' own') (hS : ∀ o, S o → S' o) :
    Local L S' m own m' own' :=
  ⟨h.roles.mono hS, fun p hp hs => h.bytes p hp fun hs' => hs (hS _ hs'), h.outside⟩

theorem tablesOf_le (a : τ) : ∀ o, tablesOf (τ := τ) i o → spaceOf i a o := by
  rintro (_ | ⟨k, q⟩ | ⟨k, v⟩ | b) h
  · trivial
  · exact congrArg some h
  · exact h.elim
  · exact h.elim

theorem Local.space (h : Local L S m own m' own') (F : Frames L B m own) (hr : B.root i = some r)
    (hi : ∀ q, ¬ S (some (.table i q))) :
    (∀ p, p.length ≤ 2 → node (childOf m'.mem) r p = node (childOf m.mem) r p) ∧
      ∀ v, leaf m'.mem r v = leaf m.mem r v := by
  refine F.space_same hr fun t q ht ho => h.bytes t ht ?_
  rw [ho]
  exact hi q

theorem local_relabel {c : Nat} {o : Option (Use ι τ)} (hmem : m'.mem = m.mem) (hc : S (own c))
    (ho : S o) : Local L S m own m' (Function.update own c o) :=
  ⟨within_update hc ho, fun p _ _ => hmem ▸ SamePage.refl _ p, fun a _ => congrFun hmem a⟩

theorem local_write {mem' : Buffer} {c : Nat} (hpage : L.Page c) (hc : S (own c))
    (h : ∀ q, q ≠ c → SamePage m.mem mem' q) : Local L S m own ⟨mem', m.freelist⟩ own := by
  refine ⟨Within.refl own, fun p _ hp => h p ?_, fun a ha => h _ ?_ a rfl⟩
  · rintro rfl
    exact hp hc
  · rintro rfl
    exact ha hpage

theorem Frames.local_store (F : Frames L B m own) (hr : B.root i = some r) {t : Nat}
    {p : List Index} (hp : p.length ≤ 2) (ht : node (childOf m.mem) r p = some t) (j : Index)
    (x : Nat) : Local L (tablesOf i) m own ⟨putLE m.mem (t + 8 * j) 8 x, m.freelist⟩ own := by
  have htp := F.table hr hp ht
  exact local_write htp.1 (by rw [htp.2]; rfl) fun q hq => samePage_putLE htp.1.1 hq j x

end Footprints

end OsProject.Vm
