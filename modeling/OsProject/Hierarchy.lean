import Mathlib.Data.Set.Card

/-! Containers with numbered entries. Entry 1 of a container leads back to the one above it, and
the entries from 2 on lead to its members, which may be containers themselves. A container is
linked if it is reached from the root through members. -/

namespace OsProject

structure Hierarchy (V : Type*) where
  dir : V → Prop
  ent : V → ℕ → V → Prop

namespace Hierarchy

variable {V : Type*} {H H' : Hierarchy V} {r d n i x : V} {k : ℕ}

/-- Container `i` is member `k` of container `d`. -/
structure Sub (H : Hierarchy V) (d : V) (k : ℕ) (i : V) : Prop where
  above : H.dir d
  member : 2 ≤ k
  ent : H.ent d k i
  below : H.dir i

inductive Linked (H : Hierarchy V) (r : V) : V → Prop
  | root : Linked H r r
  | sub {d : V} {k : ℕ} {i : V} : Linked H r d → H.Sub d k i → Linked H r i

/-- The entries that count as links of `i`: those of members, and the way back from a linked
container. -/
def counted (H : Hierarchy V) (r i : V) : Set (V × ℕ) :=
  {x | H.dir x.1 ∧ H.ent x.1 x.2 i ∧ (2 ≤ x.2 ∨ x.2 = 1 ∧ H.Linked r x.1)}

/-- A container is a member at one place at most, of the linked container that it leads back to. -/
structure Forest (H : Hierarchy V) (r : V) : Prop where
  root : H.dir r ∧ H.ent r 1 r
  child : ∀ d k i, H.Sub d k i → H.Linked r d ∧ i ≠ r ∧ ∀ p, H.ent i 1 p → p = d
  once : ∀ d k j i, H.Sub d k i → H.Sub d j i → k = j

def Hollow (H : Hierarchy V) (r : V) : Prop :=
  ∀ x, H.dir x → ¬ H.Linked r x → ∀ j v, 2 ≤ j → ¬ H.ent x j v

def Anchored (H : Hierarchy V) (r : V) : Prop :=
  ∀ x p, H.dir x → ¬ H.Linked r x → H.ent x 1 p → H.Linked r p

theorem Linked.mono (h : H.Linked r x)
    (hsub : ∀ d k i, H.Linked r d → H.Sub d k i → H'.Sub d k i) : H'.Linked r x := by
  induction h with
  | root => exact .root
  | sub hd hs ih => exact .sub ih (hsub _ _ _ hd hs)

theorem Linked.dir (h : H.Linked r x) (hr : H.dir r) : H.dir x := by
  cases h with
  | root => exact hr
  | sub _ hs => exact hs.below

theorem Linked.counted_nonempty (h : H.Linked r x) (hF : H.Forest r) : (H.counted r x).Nonempty := by
  cases h with
  | root => exact ⟨(r, 1), hF.root.1, hF.root.2, .inr ⟨rfl, .root⟩⟩
  | sub _ hs => exact ⟨(_, _), hs.above, hs.ent, .inl hs.member⟩

structure Adds (H : Hierarchy V) (d : V) (k : ℕ) (i : V) (H' : Hierarchy V) : Prop where
  dirs : ∀ x, H'.dir x ↔ H.dir x
  ents : ∀ x j v, H.dir x → (H'.ent x j v ↔ H.ent x j v ∨ x = d ∧ j = k ∧ v = i)
  free : ∀ v, ¬ H.ent d k v
  member : 2 ≤ k
  above : H.dir d
  below : ¬ H.dir i

section Adds

theorem Adds.sub_iff (h : Adds H d k i H') {x y : V} {j : ℕ} : H'.Sub x j y ↔ H.Sub x j y := by
  constructor
  · intro hs
    have hx := (h.dirs x).mp hs.above
    have hy := (h.dirs y).mp hs.below
    rcases (h.ents x j y hx).mp hs.ent with he | ⟨-, -, rfl⟩
    · exact ⟨hx, hs.member, he, hy⟩
    · exact absurd hy h.below
  · intro hs
    exact ⟨(h.dirs x).mpr hs.above, hs.member, (h.ents x j y hs.above).mpr (.inl hs.ent),
      (h.dirs y).mpr hs.below⟩

theorem Adds.linked_iff (h : Adds H d k i H') : H'.Linked r x ↔ H.Linked r x :=
  ⟨fun hl => hl.mono fun _ _ _ _ hs => h.sub_iff.mp hs,
    fun hl => hl.mono fun _ _ _ _ hs => h.sub_iff.mpr hs⟩

theorem Adds.up_iff (h : Adds H d k i H') {p : V} (hx : H.dir x) :
    H'.ent x 1 p ↔ H.ent x 1 p := by
  rw [h.ents x 1 p hx, or_iff_left]
  rintro ⟨-, rfl, -⟩
  exact absurd h.member (by decide)

theorem Adds.forest_iff (h : Adds H d k i H') : H'.Forest r ↔ H.Forest r := by
  constructor
  · intro hF
    have hr := (h.dirs r).mp hF.root.1
    refine ⟨⟨hr, (h.up_iff hr).mp hF.root.2⟩, fun x j y hs => ?_, fun x j l y hs hs' => ?_⟩
    · obtain ⟨hl, hne, hup⟩ := hF.child x j y (h.sub_iff.mpr hs)
      exact ⟨h.linked_iff.mp hl, hne, fun p hp => hup p ((h.up_iff hs.below).mpr hp)⟩
    · exact hF.once x j l y (h.sub_iff.mpr hs) (h.sub_iff.mpr hs')
  · intro hF
    refine ⟨⟨(h.dirs r).mpr hF.root.1, (h.up_iff hF.root.1).mpr hF.root.2⟩, fun x j y hs => ?_,
      fun x j l y hs hs' => ?_⟩
    · have hs0 := h.sub_iff.mp hs
      obtain ⟨hl, hne, hup⟩ := hF.child x j y hs0
      exact ⟨h.linked_iff.mpr hl, hne, fun p hp => hup p ((h.up_iff hs0.below).mp hp)⟩
    · exact hF.once x j l y (h.sub_iff.mp hs) (h.sub_iff.mp hs')

theorem Adds.counted (h : Adds H d k i H') :
    H'.counted r i = insert (d, k) (H.counted r i) ∧ (d, k) ∉ H.counted r i := by
  refine ⟨Set.ext fun ⟨x, j⟩ => ⟨?_, ?_⟩, fun hmem => h.free i hmem.2.1⟩
  · rintro ⟨hx, he, hc⟩
    rw [h.dirs] at hx
    rw [h.linked_iff] at hc
    rcases (h.ents x j i hx).mp he with he | ⟨rfl, rfl, -⟩
    · exact .inr ⟨hx, he, hc⟩
    · exact .inl rfl
  · rintro (hxy | ⟨hx, he, hc⟩)
    · obtain ⟨rfl, rfl⟩ := Prod.mk.inj hxy
      exact ⟨(h.dirs x).mpr h.above, (h.ents x j i h.above).mpr (.inr ⟨rfl, rfl, rfl⟩),
        .inl h.member⟩
    · refine ⟨(h.dirs x).mpr hx, (h.ents x j i hx).mpr (.inl he), ?_⟩
      rwa [h.linked_iff]

theorem Adds.counted_of_ne (h : Adds H d k i H') {y : V} (hy : y ≠ i) :
    H'.counted r y = H.counted r y := by
  refine Set.ext fun ⟨x, j⟩ => ?_
  simp only [Hierarchy.counted, Set.mem_ofPred_eq, h.dirs, h.linked_iff]
  refine and_congr_right fun hx => and_congr_left fun _ => ?_
  rw [h.ents x j y hx, or_iff_left]
  rintro ⟨-, -, he⟩
  exact hy he

theorem Adds.hollow (h : Adds H d k i H') (hH : H.Hollow r) (hd : H.Linked r d) : H'.Hollow r := by
  intro x hx hl j v hj he
  rw [h.dirs] at hx
  rw [h.linked_iff] at hl
  rcases (h.ents x j v hx).mp he with he | ⟨rfl, -, -⟩
  · exact hH x hx hl j v hj he
  · exact hl hd

theorem Adds.hollow_before (h : Adds H d k i H') (hH : H'.Hollow r) : H.Hollow r :=
  fun x hx hl j v hj he => hH x ((h.dirs x).mpr hx) (h.linked_iff.not.mpr hl) j v hj
    ((h.ents x j v hx).mpr (.inl he))

theorem Adds.anchored_iff (h : Adds H d k i H') : H'.Anchored r ↔ H.Anchored r := by
  refine forall_congr' fun x => forall_congr' fun p => ?_
  rw [h.dirs, h.linked_iff, h.linked_iff]
  exact forall_congr' fun hx => forall_congr' fun _ => by rw [h.up_iff hx]

end Adds

/-- `H'` is `H` with container `n` as the new member `k` of `d`. It has no members itself, and
leads back to `d`. -/
structure Grows (H : Hierarchy V) (r d : V) (k : ℕ) (n : V) (H' : Hierarchy V) : Prop where
  dirs : ∀ x, x ≠ n → (H'.dir x ↔ H.dir x)
  ents : ∀ x j v, x ≠ n → H.dir x → (H'.ent x j v ↔ H.ent x j v ∨ x = d ∧ j = k ∧ v = n)
  free : ∀ v, ¬ H.ent d k v
  member : 2 ≤ k
  above : H.dir d
  ne : n ≠ d ∧ n ≠ r
  new : H'.dir n ∧ ∀ p, H'.ent n 1 p ↔ p = d
  empty' : ∀ j v, 2 ≤ j → ¬ H'.ent n j v
  empty : H.dir n → ∀ j v, 2 ≤ j → ¬ H.ent n j v
  unnamed : ∀ x j, H.dir x → 2 ≤ j → ¬ H.ent x j n

section Grows

theorem Grows.sub_iff (h : Grows H r d k n H') {x y : V} {j : ℕ} :
    H'.Sub x j y ↔ H.Sub x j y ∨ x = d ∧ j = k ∧ y = n := by
  constructor
  · intro hs
    have hx : x ≠ n := by
      rintro rfl
      exact h.empty' j y hs.member hs.ent
    have hdx := (h.dirs x hx).mp hs.above
    rcases (h.ents x j y hx hdx).mp hs.ent with he | he
    · have hy : y ≠ n := by
        rintro rfl
        exact h.unnamed x j hdx hs.member he
      exact .inl ⟨hdx, hs.member, he, (h.dirs y hy).mp hs.below⟩
    · exact .inr he
  · rintro (hs | ⟨rfl, rfl, rfl⟩)
    · have hx : x ≠ n := by
        rintro rfl
        exact h.empty hs.above j y hs.member hs.ent
      have hy : y ≠ n := by
        rintro rfl
        exact h.unnamed x j hs.above hs.member hs.ent
      exact ⟨(h.dirs x hx).mpr hs.above, hs.member, (h.ents x j y hx hs.above).mpr (.inl hs.ent),
        (h.dirs y hy).mpr hs.below⟩
    · exact ⟨(h.dirs x (Ne.symm h.ne.1)).mpr h.above, h.member,
        (h.ents x j y (Ne.symm h.ne.1) h.above).mpr (.inr ⟨rfl, rfl, rfl⟩), h.new.1⟩

theorem Grows.not_linked (h : Grows H r d k n H') : ¬ H.Linked r n := by
  intro hl
  cases hl with
  | root => exact h.ne.2 rfl
  | sub _ hs => exact h.unnamed _ _ hs.above hs.member hs.ent

theorem Grows.linked_iff (h : Grows H r d k n H') (hx : x ≠ n) :
    H'.Linked r x ↔ H.Linked r x := by
  constructor
  · intro hl
    -- A way to another container does not pass `n`, which has no members.
    induction hl with
    | root => exact .root
    | @sub y j z _ hs ih =>
      have hy : y ≠ n := by
        rintro rfl
        exact h.empty' j z hs.member hs.ent
      rcases h.sub_iff.mp hs with hs | ⟨-, -, rfl⟩
      · exact .sub (ih hy) hs
      · exact absurd rfl hx
  · exact fun hl => hl.mono fun _ _ _ _ hs => h.sub_iff.mpr (.inl hs)

theorem Grows.linked_new (h : Grows H r d k n H') (hd : H.Linked r d) : H'.Linked r n :=
  .sub ((h.linked_iff (Ne.symm h.ne.1)).mpr hd) (h.sub_iff.mpr (.inr ⟨rfl, rfl, rfl⟩))

theorem Grows.up_iff (h : Grows H r d k n H') {p : V} (hn : x ≠ n) (hx : H.dir x) :
    H'.ent x 1 p ↔ H.ent x 1 p := by
  rw [h.ents x 1 p hn hx, or_iff_left]
  rintro ⟨-, rfl, -⟩
  exact absurd h.member (by decide)

theorem Grows.forest (h : Grows H r d k n H') (hF : H.Forest r) (hd : H.Linked r d) :
    H'.Forest r := by
  have hr := Ne.symm h.ne.2
  refine ⟨⟨(h.dirs r hr).mpr hF.root.1, (h.up_iff hr hF.root.1).mpr hF.root.2⟩,
    fun x j y hs => ?_, fun x j l y hs hs' => ?_⟩
  · rcases h.sub_iff.mp hs with hs | ⟨rfl, -, rfl⟩
    · obtain ⟨hl, hne, hup⟩ := hF.child x j y hs
      have hx : x ≠ n := by
        rintro rfl
        exact h.not_linked hl
      have hy : y ≠ n := by
        rintro rfl
        exact h.unnamed x j hs.above hs.member hs.ent
      exact ⟨(h.linked_iff hx).mpr hl, hne, fun p hp => hup p ((h.up_iff hy hs.below).mp hp)⟩
    · exact ⟨(h.linked_iff (Ne.symm h.ne.1)).mpr hd, h.ne.2, fun p hp => (h.new.2 p).mp hp⟩
  · rcases h.sub_iff.mp hs with hs | ⟨rfl, rfl, rfl⟩ <;>
      rcases h.sub_iff.mp hs' with hs' | ⟨he, rfl, hn⟩
    · exact hF.once x j l y hs hs'
    · exact absurd (hn ▸ hs.ent) (h.unnamed x j hs.above hs.member)
    · exact absurd hs'.ent (h.unnamed x l hs'.above hs'.member)
    · rfl

theorem Grows.forest_before (h : Grows H r d k n H') (hF : H'.Forest r) : H.Forest r := by
  have hr := Ne.symm h.ne.2
  have hdir := (h.dirs r hr).mp hF.root.1
  refine ⟨⟨hdir, (h.up_iff hr hdir).mp hF.root.2⟩, fun x j y hs => ?_, fun x j l y hs hs' => ?_⟩
  · obtain ⟨hl, hne, hup⟩ := hF.child x j y (h.sub_iff.mpr (.inl hs))
    have hx : x ≠ n := by
      rintro rfl
      exact h.empty hs.above j y hs.member hs.ent
    have hy : y ≠ n := by
      rintro rfl
      exact h.unnamed x j hs.above hs.member hs.ent
    exact ⟨(h.linked_iff hx).mp hl, hne, fun p hp => hup p ((h.up_iff hy hs.below).mpr hp)⟩
  · exact hF.once x j l y (h.sub_iff.mpr (.inl hs)) (h.sub_iff.mpr (.inl hs'))

theorem Grows.mem_counted (h : Grows H r d k n H') (hd : H.Linked r d) {y : V} {j : ℕ} :
    (x, j) ∈ H'.counted r y ↔
      (x, j) ∈ H.counted r y ∨ x = d ∧ j = k ∧ y = n ∨ x = n ∧ j = 1 ∧ y = d := by
  by_cases hx : x = n
  · subst hx
    have hold : (x, j) ∉ H.counted r y := by
      rintro ⟨hdx, he, hj | ⟨-, hl⟩⟩
      · exact h.empty hdx j y hj he
      · exact h.not_linked hl
    have hnd : ¬ (x = d ∧ j = k ∧ y = x) := fun he => h.ne.1 he.1
    simp only [hold, hnd, false_or, true_and]
    constructor
    · rintro ⟨-, he, hj | ⟨rfl, -⟩⟩
      · exact absurd he (h.empty' j y hj)
      · exact ⟨rfl, (h.new.2 y).mp he⟩
    · rintro ⟨rfl, rfl⟩
      exact ⟨h.new.1, (h.new.2 y).mpr rfl, .inr ⟨rfl, h.linked_new hd⟩⟩
  · simp only [Hierarchy.counted, Set.mem_ofPred_eq, h.dirs x hx, h.linked_iff hx, hx, false_and,
      or_false]
    constructor
    · rintro ⟨hdx, he, hc⟩
      exact ((h.ents x j y hx hdx).mp he).imp_left fun he => ⟨hdx, he, hc⟩
    · rintro (⟨hdx, he, hc⟩ | ⟨rfl, rfl, rfl⟩)
      · exact ⟨hdx, (h.ents x j y hx hdx).mpr (.inl he), hc⟩
      · exact ⟨h.above, (h.ents x j y hx h.above).mpr (.inr ⟨rfl, rfl, rfl⟩), .inl h.member⟩

theorem Grows.counted_new (h : Grows H r d k n H') (hd : H.Linked r d) :
    H'.counted r n = insert (d, k) (H.counted r n) ∧ (d, k) ∉ H.counted r n := by
  refine ⟨Set.ext fun ⟨x, j⟩ => ?_, fun hmem => h.free n hmem.2.1⟩
  rw [h.mem_counted hd, Set.mem_insert_iff, Prod.mk.injEq]
  have hne := h.ne.1
  tauto

theorem Grows.counted_above (h : Grows H r d k n H') (hd : H.Linked r d) :
    H'.counted r d = insert (n, 1) (H.counted r d) ∧ (n, 1) ∉ H.counted r d := by
  refine ⟨Set.ext fun ⟨x, j⟩ => ?_, ?_⟩
  · rw [h.mem_counted hd, Set.mem_insert_iff, Prod.mk.injEq]
    have hne := h.ne.1
    tauto
  · rintro ⟨-, -, hj | ⟨-, hl⟩⟩
    · simp at hj
    · exact h.not_linked hl

theorem Grows.counted_of_ne (h : Grows H r d k n H') (hd : H.Linked r d) {y : V} (hn : y ≠ n)
    (hyd : y ≠ d) : H'.counted r y = H.counted r y := by
  refine Set.ext fun ⟨x, j⟩ => ?_
  rw [h.mem_counted hd]
  tauto

theorem Grows.hollow (h : Grows H r d k n H') (hH : H.Hollow r) (hd : H.Linked r d) :
    H'.Hollow r := by
  intro x hx hl j v hj he
  by_cases hxn : x = n
  · exact hl (hxn ▸ h.linked_new hd)
  · rw [h.dirs x hxn] at hx
    rw [h.linked_iff hxn] at hl
    rcases (h.ents x j v hxn hx).mp he with he | ⟨rfl, -, -⟩
    · exact hH x hx hl j v hj he
    · exact hl hd

theorem Grows.hollow_before (h : Grows H r d k n H') (hH : H'.Hollow r) : H.Hollow r := by
  intro x hx hl j v hj he
  by_cases hxn : x = n
  · subst hxn
    exact h.empty hx j v hj he
  · exact hH x ((h.dirs x hxn).mpr hx) ((h.linked_iff hxn).not.mpr hl) j v hj
      ((h.ents x j v hxn hx).mpr (.inl he))

theorem Grows.anchored (h : Grows H r d k n H') (hA : H.Anchored r) (hd : H.Linked r d) :
    H'.Anchored r := by
  intro x p hx hl he
  have hxn : x ≠ n := by
    rintro rfl
    exact hl (h.linked_new hd)
  rw [h.dirs x hxn] at hx
  rw [h.linked_iff hxn] at hl
  have hp := hA x p hx hl ((h.up_iff hxn hx).mp he)
  have hpn : p ≠ n := by
    rintro rfl
    exact h.not_linked hp
  exact (h.linked_iff hpn).mpr hp

theorem Grows.anchored_before (h : Grows H r d k n H') (hA : H'.Anchored r) (hd : H.Linked r d)
    (hup : ∀ p, H.ent n 1 p → p = d)
    (hback : ∀ x, H'.dir x → ¬ H'.Linked r x → ¬ H'.ent x 1 n) : H.Anchored r := by
  intro x p hx hl he
  by_cases hxn : x = n
  · subst hxn
    exact hup p he ▸ hd
  · have hx' := (h.dirs x hxn).mpr hx
    have hl' := (h.linked_iff hxn).not.mpr hl
    have he' := (h.up_iff hxn hx).mpr he
    have hpn : p ≠ n := by
      rintro rfl
      exact hback x hx' hl' he'
    exact (h.linked_iff hpn).mp (hA x p hx' hl' he')

end Grows

structure Removes (H : Hierarchy V) (r n : V) (H' : Hierarchy V) : Prop where
  dirs : ∀ x, H'.dir x ↔ H.dir x ∧ x ≠ n
  ents : ∀ x j v, x ≠ n → (H'.ent x j v ↔ H.ent x j v)
  unlinked : ¬ H.Linked r n

section Removes

theorem Removes.sub (h : Removes H r n H') {x y : V} {j : ℕ} (hs : H'.Sub x j y) :
    H.Sub x j y := by
  have hx := (h.dirs x).mp hs.above
  exact ⟨hx.1, hs.member, (h.ents x j y hx.2).mp hs.ent, ((h.dirs y).mp hs.below).1⟩

theorem Removes.linked_iff (h : Removes H r n H') : H'.Linked r x ↔ H.Linked r x := by
  constructor
  · exact fun hl => hl.mono fun _ _ _ _ hs => h.sub hs
  · intro hl
    refine hl.mono fun y j z hy hs => ?_
    have hyn : y ≠ n := by
      rintro rfl
      exact h.unlinked hy
    have hzn : z ≠ n := by
      rintro rfl
      exact h.unlinked (.sub hy hs)
    exact ⟨(h.dirs y).mpr ⟨hs.above, hyn⟩, hs.member, (h.ents y j z hyn).mpr hs.ent,
      (h.dirs z).mpr ⟨hs.below, hzn⟩⟩

theorem Removes.forest (h : Removes H r n H') (hF : H.Forest r) : H'.Forest r := by
  have hr : r ≠ n := by
    rintro rfl
    exact h.unlinked .root
  refine ⟨⟨(h.dirs r).mpr ⟨hF.root.1, hr⟩, (h.ents r 1 r hr).mpr hF.root.2⟩, fun x j y hs => ?_,
    fun x j l y hs hs' => hF.once x j l y (h.sub hs) (h.sub hs')⟩
  obtain ⟨hl, hne, hup⟩ := hF.child x j y (h.sub hs)
  have hy := ((h.dirs y).mp hs.below).2
  exact ⟨h.linked_iff.mpr hl, hne, fun p hp => hup p ((h.ents y 1 p hy).mp hp)⟩

theorem Removes.counted_subset (h : Removes H r n H') {y : V} :
    H'.counted r y ⊆ H.counted r y := by
  rintro ⟨x, j⟩ ⟨hx, he, hc⟩
  rw [h.linked_iff] at hc
  exact ⟨((h.dirs x).mp hx).1, (h.ents x j y ((h.dirs x).mp hx).2).mp he, hc⟩

theorem Removes.counted_eq (h : Removes H r n H') (hempty : H.dir n → ∀ j v, 2 ≤ j → ¬ H.ent n j v)
    {y : V} : H'.counted r y = H.counted r y := by
  refine h.counted_subset.antisymm ?_
  rintro ⟨x, j⟩ ⟨hx, he, hc⟩
  have hxn : x ≠ n := by
    rintro rfl
    rcases hc with hj | ⟨-, hl⟩
    · exact hempty hx j y hj he
    · exact h.unlinked hl
  rw [← h.linked_iff] at hc
  exact ⟨(h.dirs x).mpr ⟨hx, hxn⟩, (h.ents x j y hxn).mpr he, hc⟩

theorem Removes.hollow (h : Removes H r n H') (hH : H.Hollow r) : H'.Hollow r := by
  intro x hx hl j v hj he
  obtain ⟨hx, hxn⟩ := (h.dirs x).mp hx
  exact hH x hx (h.linked_iff.not.mp hl) j v hj ((h.ents x j v hxn).mp he)

theorem Removes.anchored (h : Removes H r n H') (hA : H.Anchored r) : H'.Anchored r := by
  intro x p hx hl he
  obtain ⟨hx, hxn⟩ := (h.dirs x).mp hx
  exact h.linked_iff.mpr (hA x p hx (h.linked_iff.not.mp hl) ((h.ents x 1 p hxn).mp he))

end Removes

end Hierarchy

end OsProject
