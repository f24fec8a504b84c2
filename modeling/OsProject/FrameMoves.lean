import OsProject.Frames

/-! The changes that the kernel makes to the books: pages are taken from the free list and given
back, hung into a page table and mapped, and whole address spaces come and go. -/

namespace OsProject.Vm

variable {ι τ : Type}

section Moves

variable [DecidableEq ι] [DecidableEq τ] {L : Layout} {B : Books ι τ} {m : Phys} {mem : Buffer}
  {rest : List Nat} {own : Nat → Option (Use ι τ)} {i : ι} {a : τ} {c r t v x : Nat} {p : List Index}
  {j : Index}

def Books.hold (B : Books ι τ) (a : τ) (page : Option Nat) : Books ι τ :=
  { B with held := Function.update B.held a page }

theorem loc_hold (B : Books ι τ) (a : τ) (page : Option Nat) (mem : Buffer) :
    (B.hold a page).loc mem = Function.update (B.loc mem) (.held a) page := by
  funext u
  cases u with
  | table i p => rw [Function.update_of_ne (by simp)]; rfl
  | user i v => rw [Function.update_of_ne (by simp)]; rfl
  | held b =>
    by_cases hb : b = a
    · subst hb
      simp [Books.loc, Books.hold]
    · rw [Function.update_of_ne (by simpa using hb)]
      simp [Books.loc, Books.hold, hb]

theorem loc_update {mem' : Buffer} {u : Use ι τ} {c : Option Nat} (hr : B.root i = some r)
    (hother : ∀ k s, k ≠ i → B.root k = some s →
      (∀ q, q.length ≤ 2 → node (childOf mem') s q = node (childOf mem) s q) ∧
        ∀ v, leaf mem' s v = leaf mem s v)
    (hnode : ∀ q, q.length ≤ 2 →
      node (childOf mem') r q = if .table i q = u then c else node (childOf mem) r q)
    (hleaf : ∀ v, v < B.top i →
      entryPage (leaf mem' r v) = if .user i v = u then c else entryPage (leaf mem r v))
    (hheld : ∀ b, .held b ≠ u) (htable : ∀ k q, .table k q = u → k = i ∧ q.length ≤ 2)
    (huser : ∀ k v, .user k v = u → k = i ∧ v < B.top i) :
    B.loc mem' = Function.update (B.loc mem) u c := by
  have hi : ∀ {k s}, B.root k = some s → k = i → s = r := by
    rintro k s hs rfl
    exact Option.some.inj (hs.symm.trans hr)
  funext w
  by_cases hw : w = u
  · subst hw
    rw [Function.update_self]
    cases w with
    | table k q =>
      obtain ⟨rfl, hq⟩ := htable k q rfl
      rw [loc_table B _ hr hq, hnode q hq, if_pos rfl]
    | user k v =>
      obtain ⟨rfl, hv⟩ := huser k v rfl
      rw [loc_user B _ hr hv, hleaf v hv, if_pos rfl]
    | held b => exact absurd rfl (hheld b)
  · rw [Function.update_of_ne hw]
    cases w with
    | table k q =>
      cases hs : B.root k with
      | none => simp [Books.loc, hs]
      | some s =>
        by_cases hq : q.length ≤ 2
        · rw [loc_table B _ hs hq, loc_table B _ hs hq]
          by_cases hk : k = i
          · have hsr := hi hs hk
            subst hk hsr
            rw [hnode q hq, if_neg hw]
          · exact (hother k s hk hs).1 q hq
        · simp [Books.loc, hq]
    | user k v =>
      cases hs : B.root k with
      | none => simp [Books.loc, hs]
      | some s =>
        by_cases hv : v < B.top k
        · rw [loc_user B _ hs hv, loc_user B _ hs hv]
          by_cases hk : k = i
          · have hsr := hi hs hk
            subst hk hsr
            rw [hleaf v hv, if_neg hw]
          · rw [(hother k s hk hs).2 v]
        · simp [Books.loc, hs, hv]
    | held b => rfl

theorem LeafStored.loc {mem' : Buffer} (h : LeafStored B i r v x mem mem') (hr : B.root i = some r)
    (hv : v < B.top i) : B.loc mem' = Function.update (B.loc mem) (.user i v) (entryPage x) := by
  refine loc_update hr ?_ ?_ ?_ (fun b => by simp) ?_ ?_
  · exact fun k s hk hs => ⟨h.table k s hs, h.other k s hk hs⟩
  · intro q hq
    rw [h.table i r hr q hq, if_neg (by simp)]
  · intro w _
    rw [h.here w]
    by_cases hw : w = v <;> simp [hw]
  · rintro k q ⟨⟩
  · rintro k w ⟨⟩
    exact ⟨rfl, hv⟩

def Books.setRoot (B : Books ι τ) (i : ι) (r : Option Nat) : Books ι τ :=
  { B with root := Function.update B.root i r }

omit [DecidableEq τ] in
theorem loc_setRoot (r : Option Nat) (mem : Buffer) (u : Use ι τ) (hu : u.space ≠ some i) :
    (B.setRoot i r).loc mem u = B.loc mem u := by
  have hroot : ∀ k, some k ≠ some i → (B.setRoot i r).root k = B.root k := fun k hk =>
    Function.update_of_ne (fun he => hk (congrArg some he)) _ _
  cases u with
  | table k q => rw [Books.loc, Books.loc, hroot k hu]
  | user k v =>
    rw [Books.loc, Books.loc, hroot k hu]
    rfl
  | held b => rfl

namespace Frames

theorem take (F : Frames L B ⟨mem, c :: rest⟩ own) (ha : B.held a = none) :
    Frames L (B.hold a (some c)) ⟨mem, rest⟩ (Function.update own c (some (.held a))) := by
  refine ⟨?_, (List.nodup_cons.mp F.nodup).2, F.free_tail _, F.inner⟩
  rw [loc_hold]
  exact F.exact.assign F.head.1 F.head.2.1 ha

theorem give (F : Frames L B m own) (ha : B.held a = some c) :
    Frames L (B.hold a none) ⟨m.mem, c :: m.freelist⟩ (Function.update own c none) := by
  have hloc : B.loc m.mem (.held a) = some c := ha
  have hfree := F.free_cons (F.exact.mem hloc) (F.exact.owner hloc)
  refine ⟨?_, hfree.1, hfree.2, F.inner⟩
  rw [loc_hold]
  exact F.exact.retract hloc

theorem graft (F : Frames L B ⟨mem, c :: rest⟩ own) (hr : B.root i = some r) (hp : p.length < 2)
    (ht : node (childOf mem) r p = some t) (hj : pte mem t j &&& PTE_V = 0) {mem' : Buffer}
    (hsame : ∀ q, q ≠ t → q ≠ c → SamePage mem mem' q) (hset : pte mem' t j = mkPte c 0)
    (hrest : ∀ k, k ≠ j → pte mem' t k = pte mem t k) (hzero : ∀ k, pte mem' c k = 0) :
    Frames L B ⟨mem', rest⟩ (Function.update own c (some (.table i (j :: p)))) ∧
      (∀ q, q.length ≤ 2 → node (childOf mem') r q =
        if q = j :: p then some c else node (childOf mem) r q) ∧
      ∀ v, leaf mem' r v = leaf mem r v := by
  have hc := F.head
  have htp := F.table hr hp.le ht
  have hnew : entryPage (mkPte c 0) = some c := entryPage_mkPte hc.1 (by decide)
  -- no table of a space is the page `c`, which is free
  have hold : ∀ {k s q u}, B.root k = some s → q.length ≤ 2 → node (childOf mem) s q = some u →
      u ≠ c := by
    rintro k s q u hs hq hu rfl
    have hown := (F.table hs hq hu).2
    rw [hc.2.1] at hown
    cases hown
  have hpte : ∀ {k s q u}, B.root k = some s → q.length ≤ 2 → node (childOf mem) s q = some u →
      ∀ n, ¬ (u = t ∧ n = j) → pte mem' u n = pte mem u n := by
    intro k s q u hs hq hu n hn
    by_cases hut : u = t
    · subst hut
      exact hrest n fun hnj => hn ⟨rfl, hnj⟩
    · exact pte_congr (F.table hs hq hu).1.1 (hsame u hut (hold hs hq hu)) n
  have hnode : ∀ q, q.length ≤ 2 → node (childOf mem') r q =
      if q = j :: p then some c else node (childOf mem) r q := by
    intro q hq
    refine node_graft (n := 2) ht ?_ ?_ ?_ ?_ hq
    · rw [childOf, entryPage, if_neg (not_not.mpr hj)]
    · rw [childOf, hset, hnew]
    · intro k
      rw [childOf, hzero]
      rfl
    · intro q u n hq hu hn
      rw [childOf, childOf, hpte hr hq.le hu n]
      rintro ⟨rfl, rfl⟩
      exact hn ⟨F.apart hr q p u hq.le hp.le hu ht, rfl⟩
  have hpj : (j :: p).length ≤ 2 := hp
  have hmissing : node (childOf mem) r (j :: p) = none := by
    rw [node_cons ht, childOf, entryPage, if_neg (not_not.mpr hj)]
  have hleaf : ∀ v, leaf mem' r v = leaf mem r v := by
    intro v
    unfold leaf
    rw [hnode _ le_rfl]
    by_cases hv : path v = j :: p
    · rw [if_pos hv, hv, hmissing]
      simp [hzero]
    · rw [if_neg hv]
      cases hu : node (childOf mem) r (path v) with
      | none => rfl
      | some u =>
        have hne : u ≠ t := by
          rintro rfl
          have hpath := F.apart hr _ _ u le_rfl hp.le hu ht
          rw [← hpath] at hp
          exact absurd hp (by simp)
        simp only [Option.elim, hpte hr le_rfl hu (slot v) fun h => hne h.1]
  -- the other spaces have none of the pages that changed
  have hother : ∀ {k s}, k ≠ i → B.root k = some s →
      (∀ q, q.length ≤ 2 → node (childOf mem') s q = node (childOf mem) s q) ∧
        ∀ v, leaf mem' s v = leaf mem s v := by
    intro k s hk hs
    apply space_congr
    intro q u hq hu n
    refine hpte hs hq hu n ?_
    rintro ⟨rfl, -⟩
    have hown := (F.table hs hq hu).2
    rw [htp.2] at hown
    simp [Ne.symm hk] at hown
  have hloc : B.loc mem' = Function.update (B.loc mem) (.table i (j :: p)) (some c) := by
    refine loc_update hr (fun k s hk hs => hother hk hs) ?_ ?_ (fun b => by simp) ?_ ?_
    · intro q hq
      rw [hnode q hq]
      simp
    · intro v _
      rw [hleaf, if_neg (by simp)]
    · rintro k q ⟨⟩
      exact ⟨rfl, hpj⟩
    · rintro k v ⟨⟩
  refine ⟨⟨?_, (List.nodup_cons.mp F.nodup).2, F.free_tail _, ?_⟩, hnode, hleaf⟩
  · rw [hloc]
    refine F.exact.assign hc.1 hc.2.1 ?_
    rw [loc_table B _ hr hpj, hmissing]
  · intro k q u n hu hq hv
    rw [hloc] at hu
    by_cases hkq : Use.table k q = (.table i (j :: p) : Use ι τ)
    · rw [hkq, Function.update_self] at hu
      cases hu
      rw [hzero] at hv
      exact absurd rfl hv
    · rw [Function.update_of_ne hkq] at hu
      cases hs : B.root k with
      | none => simp [Books.loc, hs] at hu
      | some s =>
        have hu' := hu
        rw [loc_table B _ hs hq.le] at hu'
        by_cases hun : u = t ∧ n = j
        · rw [hun.1, hun.2, hset, flags_mkPte (by decide)]
          rfl
        · rw [hpte hs hq.le hu' n hun] at hv ⊢
          exact F.inner k q u n hu hq hv

theorem map_user {mem' : Buffer} (F : Frames L B m own) (hr : B.root i = some r)
    (hv : v < B.top i) (hleaf : leaf m.mem r v &&& PTE_V = 0) (ha : B.held a = some c)
    (hx : entryPage x = some c) (h : LeafStored B i r v x m.mem mem') :
    Frames L (B.hold a none) ⟨mem', m.freelist⟩ (Function.update own c (some (.user i v))) := by
  have hloc : B.loc m.mem (.held a) = some c := ha
  have hfree : B.loc m.mem (.user i v) = none := by
    rw [loc_user B _ hr hv, entryPage, if_neg (not_not.mpr hleaf)]
  refine ⟨?_, F.nodup, ?_, ?_⟩
  · have hret := F.exact.retract hloc
    have hass := hret.assign (k := .user i v) (F.exact.mem hloc) (by simp)
      (by rw [Function.update_of_ne (by simp), hfree])
    rw [Function.update_idem] at hass
    rw [loc_hold, h.loc hr hv, hx, Function.update_comm (by simp)]
    exact hass
  · intro q
    by_cases hq : q = c
    · subst hq
      simp [F.free, F.exact.owner hloc]
    · rw [Function.update_of_ne hq]
      exact F.free q
  · intro k q u j hu
    rw [loc_hold, Function.update_of_ne (by simp)] at hu
    exact h.inner F k q u j hu

theorem keep_leaf {mem' : Buffer} (F : Frames L B m own) (hr : B.root i = some r)
    (hkeep : v < B.top i → entryPage x = entryPage (leaf m.mem r v))
    (h : LeafStored B i r v x m.mem mem') : Frames L B ⟨mem', m.freelist⟩ own := by
  have hloc : B.loc mem' = B.loc m.mem := by
    by_cases hv : v < B.top i
    · rw [h.loc hr hv, hkeep hv, ← loc_user B m.mem hr hv, Function.update_eq_self]
    · rw [loc_update (u := .table i []) (c := some r) hr
        (fun k s hk hs => ⟨h.table k s hs, h.other k s hk hs⟩) ?_ ?_ (fun b => by simp) ?_ ?_]
      · rw [Function.update_eq_self_iff, Books.loc, hr]
        rfl
      · intro q hq
        rw [h.table i r hr q hq]
        split_ifs with he
        · cases he
          rfl
        · rfl
      · intro w hw
        have hwv : w ≠ v := by
          rintro rfl
          exact hv hw
        rw [h.here w, if_neg hwv, if_neg (by simp)]
      · rintro k q ⟨⟩
        exact ⟨rfl, Nat.zero_le 2⟩
      · rintro k w ⟨⟩
  refine ⟨?_, F.nodup, F.free, h.inner F⟩
  rw [hloc]
  exact F.exact

theorem new_root (F : Frames L B ⟨mem, c :: rest⟩ own) (hi : B.root i = none)
    (hzero : ∀ k, pte mem c k = 0) :
    Frames L (B.setRoot i (some c)) ⟨mem, rest⟩ (Function.update own c (some (.table i []))) := by
  have hloc : (B.setRoot i (some c)).loc mem = Function.update (B.loc mem) (.table i []) (some c) := by
    funext u
    by_cases hu : u.space = some i
    · cases u with
      | table k q =>
        obtain rfl : k = i := Option.some.inj hu
        cases q with
        | nil => simp [Books.loc, Books.setRoot, node]
        | cons j q =>
          rw [Function.update_of_ne (by simp)]
          simp [Books.loc, Books.setRoot, hi, node_empty hzero]
      | user k v =>
        obtain rfl : k = i := Option.some.inj hu
        rw [Function.update_of_ne (by simp)]
        simp [Books.loc, Books.setRoot, hi, leaf_empty hzero, entryPage]
      | held b => cases hu
    · rw [loc_setRoot _ _ _ hu, Function.update_of_ne]
      rintro rfl
      exact hu rfl
  refine ⟨?_, (List.nodup_cons.mp F.nodup).2, F.free_tail _, ?_⟩
  · rw [hloc]
    refine F.exact.assign F.head.1 F.head.2.1 ?_
    simp [Books.loc, hi]
  · intro k q u j hu
    rw [hloc] at hu
    by_cases hkq : Use.table k q = (.table i [] : Use ι τ)
    · rw [hkq, Function.update_self] at hu
      cases hu
      intro _ hv
      rw [hzero] at hv
      exact absurd rfl hv
    · rw [Function.update_of_ne hkq] at hu
      exact F.inner k q u j hu

end Frames

end Moves

end OsProject.Vm
