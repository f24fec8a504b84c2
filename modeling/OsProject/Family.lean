import Mathlib.Data.List.Nodup
import Mathlib.Data.List.Perm.Basic
import Mathlib.Logic.Function.Basic

/-! Families of processes. A process is made by a live one, which becomes its parent; when it ends,
its children go to the root, and its own parent takes it away once. The slots are any type, and
every process has a number of its own, so that a slot can be used again. -/

namespace OsProject

inductive Kind
  | unused | used | live | zombie
  deriving DecidableEq, Repr

structure Exit where
  inst : Nat
  pid : Int
  status : Int
  deriving DecidableEq, Repr

/-- A process was taken away, with the pid and the status that were reported for it, and the number
of the process that did it. -/
structure Reap where
  inst : Nat
  pid : Int
  status : Int
  reaper : Nat
  deriving DecidableEq, Repr

def Reap.exit (r : Reap) : Exit := ⟨r.inst, r.pid, r.status⟩

/-- `making` is the child that a process is about to start, and whether it is its parent already.
`mother` gives the process that made the process with a number. -/
@[ext]
structure Family (ι : Type*) where
  kind : ι → Kind
  parent : ι → Option ι
  pid : ι → Int
  status : ι → Int
  making : ι → Option (ι × Bool)
  inst : ι → Nat
  mother : Nat → Nat
  births : Nat
  exits : List Exit
  reaps : List Reap

namespace Family

variable {ι : Type*} [DecidableEq ι] (F : Family ι)

def fork (p i : ι) (pid : Int) : Family ι :=
  { F with
    kind := Function.update F.kind i .used
    pid := Function.update F.pid i pid
    inst := Function.update F.inst i F.births
    mother := Function.update F.mother F.births (F.inst p)
    births := F.births + 1
    making := Function.update F.making p (some (i, false)) }

def adopt (p i : ι) : Family ι :=
  { F with
    parent := Function.update F.parent i (some p)
    making := Function.update F.making p (some (i, true)) }

def publish (p i : ι) : Family ι :=
  { F with
    kind := Function.update F.kind i .live
    making := Function.update F.making p none }

def exit (root p : ι) (status : Int) : Family ι :=
  { F with
    kind := Function.update F.kind p .zombie
    parent := fun c => if F.parent c = some p then some root else F.parent c
    status := Function.update F.status p status
    exits := F.exits ++ [⟨F.inst p, F.pid p, status⟩] }

def reap (p c : ι) : Family ι :=
  { F with
    kind := Function.update F.kind c .unused
    parent := Function.update F.parent c none
    pid := Function.update F.pid c 0
    status := Function.update F.status c 0
    reaps := F.reaps ++ [⟨F.inst c, F.pid c, F.status c, F.inst p⟩] }

inductive Step (root p : ι) (F : Family ι) : Family ι → Prop
  | fork (i : ι) (pid : Int) (hp : F.kind p = .live) (hm : F.making p = none)
      (hi : F.kind i = .unused) : Step root p F (F.fork p i pid)
  | adopt (i : ι) (hm : F.making p = some (i, false)) : Step root p F (F.adopt p i)
  | publish (i : ι) (hm : F.making p = some (i, true)) : Step root p F (F.publish p i)
  | exit (status : Int) (hp : F.kind p = .live) (hm : F.making p = none) (hr : p ≠ root) :
      Step root p F (F.exit root p status)
  | reap (c : ι) (hp : F.kind p = .live) (hc : F.kind c = .zombie) (hpar : F.parent c = some p) :
      Step root p F (F.reap p c)

def Ended (n : Nat) : Prop := n ∈ F.exits.map Exit.inst

/-- The parent of the process with number `n` is the one with number `m`: its mother, or the root
when the mother has ended. -/
def Kin (root : ι) (n m : Nat) : Prop := m = F.mother n ∨ m = F.inst root ∧ F.Ended (F.mother n)

/-- The shape of the tree: the root is live and has no parent, every parent is live, and only a
child that has not been adopted has none. -/
structure Tree (root : ι) : Prop where
  root_live : F.kind root = .live
  root_parent : F.parent root = none
  parent_live : ∀ c q, F.parent c = some q → F.kind q = .live ∧ F.kind c ≠ .unused
  parent_ne : ∀ c, F.parent c ≠ some c
  has_parent : ∀ c, c ≠ root → F.kind c = .live ∨ F.kind c = .zombie → F.parent c ≠ none
  making_live : ∀ p x, F.making p = some x → F.kind p = .live ∧ F.kind x.1 = .used
  making_parent : ∀ p i b, F.making p = some (i, b) → F.parent i = if b then some p else none
  making_inj : ∀ p q x y, F.making p = some x → F.making q = some y → x.1 = y.1 → p = q

/-- The records: every process is in one slot, it ends at most once and is taken away at most once,
with the pid and the status it ended with, by its parent. -/
structure Records (root : ι) : Prop where
  number : ∀ i, F.kind i ≠ .unused → F.inst i < F.births
  distinct : ∀ i j, F.kind i ≠ .unused → F.kind j ≠ .unused → F.inst i = F.inst j → i = j
  ended_lt : ∀ n, F.Ended n → n < F.births
  ended_once : (F.exits.map Exit.inst).Nodup
  zombie : ∀ i, F.kind i = .zombie → ⟨F.inst i, F.pid i, F.status i⟩ ∈ F.exits
  alive : ∀ i, F.kind i = .used ∨ F.kind i = .live → ¬ F.Ended (F.inst i)
  present : ∀ i, F.kind i ≠ .unused → F.inst i ∉ F.reaps.map Reap.inst
  reaped_once : (F.reaps.map Reap.inst).Nodup
  reaped : ∀ r ∈ F.reaps, r.exit ∈ F.exits ∧ F.Kin root r.inst r.reaper
  parent : ∀ c q, F.parent c = some q → F.Kin root (F.inst c) (F.inst q)
  making : ∀ p i b, F.making p = some (i, b) → F.mother (F.inst i) = F.inst p

variable {F} {root : ι}

omit [DecidableEq ι] in
theorem Tree.unused_parent (h : F.Tree root) {i : ι} (hi : F.kind i = .unused) :
    F.parent i = none := by
  cases hp : F.parent i with
  | none => rfl
  | some q => exact absurd hi (h.parent_live i q hp).2

theorem Tree.step {p : ι} {G : Family ι} (h : F.Tree root) (hs : Step root p F G) : G.Tree root := by
  have hunused := fun i => h.unused_parent (i := i)
  obtain ⟨h1, h2, h3, h4, h5, h6, h7, h8⟩ := h
  cases hs with
  | fork i pid hp hm hi =>
    have hnone := hunused i hi
    constructor <;> simp only [Family.fork, Function.update_apply] <;> grind
  | adopt i hm =>
    constructor <;> simp only [Family.adopt, Function.update_apply] <;> grind
  | publish i hm =>
    constructor <;> simp only [Family.publish, Function.update_apply] <;> grind
  | exit status hp hm hr =>
    constructor <;> simp only [Family.exit, Function.update_apply] <;> grind
  | reap c hp hc hpar =>
    constructor <;> simp only [Family.reap, Function.update_apply] <;> grind

omit [DecidableEq ι] in
theorem Records.reaped_lt (h : F.Records root) {r : Reap} (hr : r ∈ F.reaps) : r.inst < F.births :=
  h.ended_lt _ (List.mem_map.mpr ⟨_, (h.reaped r hr).1, rfl⟩)

theorem Records.step {p : ι} {G : Family ι} (h : F.Records root) (ht : F.Tree root)
    (hs : Step root p F G) : G.Records root := by
  have hunused := fun i => ht.unused_parent (i := i)
  have hreaped := fun r => h.reaped_lt (r := r)
  obtain ⟨t1, t2, t3, t4, t5, t6, t7, t8⟩ := ht
  obtain ⟨h1, h2, h3, h4, h5, h6, h7, h8, h9, h10, h11⟩ := h
  cases hs with
  | fork i pid hp hm hi =>
    have hnone := hunused i hi
    constructor <;> simp only [Family.fork, Function.update_apply, Ended, Kin] at * <;> grind
  | adopt i hm =>
    constructor <;> simp only [Family.adopt, Function.update_apply, Ended, Kin] at * <;> grind
  | publish i hm =>
    constructor <;> simp only [Family.publish, Function.update_apply, Ended, Kin] at * <;> grind
  | exit status hp hm hr =>
    have hnot := h6 p (.inr hp)
    constructor <;> simp only [Family.exit, Function.update_apply, Ended, Kin, List.map_append,
      List.mem_append, List.map_cons, List.map_nil, List.mem_singleton] at * <;> grind
  | reap c hp hc hpar =>
    have hexit := h5 c hc
    have hkin := h10 c p hpar
    have hnot := h7 c (by simp [hc])
    constructor <;> simp only [Family.reap, Function.update_apply, Ended, Kin, List.map_append,
      List.mem_append, List.map_cons, List.map_nil, List.mem_singleton, Reap.exit] at * <;> grind

theorem Step.zombie {p : ι} {G : Family ι} (hs : Step root p F G) (ht : F.Tree root) {c : ι}
    (hc : F.kind c = .zombie) (hc' : G.kind c ≠ .zombie) :
    F.parent c = some p ∧
      G.reaps = F.reaps ++ [⟨F.inst c, F.pid c, F.status c, F.inst p⟩] := by
  cases hs with
  | fork i pid hp hm hi =>
    have hne : c ≠ i := fun he => by rw [he, hi] at hc; cases hc
    exact absurd ((Function.update_of_ne hne _ _).trans hc) hc'
  | adopt i hm => exact absurd hc hc'
  | publish i hm =>
    have hused := (ht.making_live p _ hm).2
    have hne : c ≠ i := fun he => by rw [← he, hc] at hused; cases hused
    exact absurd ((Function.update_of_ne hne _ _).trans hc) hc'
  | exit status hp hm hr =>
    refine absurd ?_ hc'
    simp only [Family.exit, Function.update_apply]
    split_ifs
    · rfl
    · exact hc
  | reap d hp hd hpar =>
    by_cases hcd : c = d
    · subst hcd
      exact ⟨hpar, rfl⟩
    · exact absurd ((Function.update_of_ne hcd _ _).trans hc) hc'

theorem Step.keeps_pid {p i : ι} {G : Family ι} (hs : Step root p F G) (ht : F.Tree root)
    (hbirths : G.births = F.births) (hi : G.kind i ≠ .unused) :
    F.kind i ≠ .unused ∧ G.pid i = F.pid i := by
  cases hs with
  | fork j pid hp hm hj => exact absurd hbirths (Nat.succ_ne_self _)
  | adopt j hm => exact ⟨hi, rfl⟩
  | publish j hm =>
    have hused : F.kind j = .used := (ht.making_live p _ hm).2
    refine ⟨fun hu => hi ?_, rfl⟩
    have hne : i ≠ j := fun he => by rw [he, hused] at hu; cases hu
    exact (Function.update_of_ne hne _ _).trans hu
  | exit status hp hm hr =>
    refine ⟨fun hu => hi ?_, rfl⟩
    have hne : i ≠ p := fun he => by rw [he, hp] at hu; cases hu
    exact (Function.update_of_ne hne _ _).trans hu
  | reap c hp hc hpar =>
    have hne : i ≠ c := fun he => hi (he ▸ Function.update_self _ _ _)
    exact ⟨fun hu => hi ((Function.update_of_ne hne _ _).trans hu), Function.update_of_ne hne _ _⟩

end Family

end OsProject
