import OsProject.Volume
import OsProject.Directory

/-! The name space as a graph: the inodes with their link counts, and the entries of the
directories. Paths are resolved on the graph alone. -/

namespace OsProject

structure Node where
  kind : FileType := .free
  nlink : Int := 0
  cnt : Nat := 0
  ent : Nat → Dirent := fun _ => {}

abbrev Graph := Nat → Node

def Node.find (g : Node) (name : Name) : Option Nat :=
  (List.range g.cnt).find? fun k => (g.ent k).inum ≠ 0 ∧ (g.ent k).name = name

theorem Node.find_some {g : Node} {name : Name} {k : Nat} (h : g.find name = some k) :
    (g.ent k).inum ≠ 0 ∧ (g.ent k).name = name := by
  simpa using List.find?_some h

theorem Node.find_none {g : Node} {name : Name} (h : g.find name = none) {k : Nat} (hk : k < g.cnt)
    (hne : (g.ent k).inum ≠ 0) : (g.ent k).name ≠ name := by
  have hf := List.find?_eq_none.mp h k (by simpa using hk)
  simpa [hne] using hf

def Node.FirstFree (g : Node) (k : Nat) : Prop :=
  (g.ent k).inum = 0 ∧ ∀ j < k, (g.ent j).inum ≠ 0

def Graph.next (g : Graph) (d : Nat) (name : Name) : Option Nat :=
  if (g d).kind = .dir then ((g d).find name).map fun k => ((g d).ent k).inum else none

def Graph.walk (g : Graph) (start : Nat) : List Name → Option Nat
  | [] => some start
  | name :: rest => (g.next start name).bind fun n => Graph.walk g n rest

def Graph.walkParent (g : Graph) (start : Nat) : List Name → Option (Nat × Name)
  | [] => none
  | [name] => if (g start).kind = .dir then some (start, name) else none
  | name :: rest => (g.next start name).bind fun n => Graph.walkParent g n rest

def Graph.setLinks (g : Graph) (n : Nat) (v : Int) : Graph :=
  Function.update g n { g n with nlink := v }

def Graph.setEnt (g : Graph) (d k : Nat) (de : Dirent) : Graph :=
  Function.update g d
    { g d with cnt := max (g d).cnt (k + 1), ent := Function.update (g d).ent k de }

@[simp] theorem Graph.setLinks_kind (g : Graph) (n m : Nat) (v : Int) :
    (g.setLinks n v m).kind = (g m).kind := by
  by_cases h : m = n <;> simp [Graph.setLinks, h]

@[simp] theorem Graph.setEnt_kind (g : Graph) (d k m : Nat) (de : Dirent) :
    (g.setEnt d k de m).kind = (g m).kind := by
  by_cases h : m = d <;> simp [Graph.setEnt, h]

def Graph.drop (g : Graph) (n : Nat) : Graph := Function.update g n {}

theorem Graph.drop_setLinks {g : Graph} {n m : Nat} (h : m ≠ n) (v : Int) :
    (g.drop n).setLinks m v = (g.setLinks m v).drop n := by
  simp only [Graph.drop, Graph.setLinks, Function.update_of_ne h]
  rw [Function.update_comm h]

def Graph.Drops : Graph → Graph → Prop :=
  Relation.ReflTransGen fun g g' => ∃ n, (g n).kind ≠ .free ∧ (g n).nlink = 0 ∧ g' = g.drop n

theorem Graph.drops_ite {g : Graph} {n : Nat} (c : Prop) [Decidable c]
    (hn : (g n).kind ≠ .free) :
    g.Drops (if c ∧ (g n).nlink = 0 then g.drop n else g) := by
  split_ifs with hc
  · exact .single ⟨n, hn, hc.2, rfl⟩
  · exact .refl

/-- No entry of a directory names a free inode, and the root is there. -/
structure NoDangling (g : Graph) : Prop where
  named : ∀ d, (g d).kind = .dir → ∀ k, ((g d).ent k).inum ≠ 0 →
    (g ((g d).ent k).inum).kind ≠ .free
  root : (g ROOTINO).kind ≠ .free

theorem noDangling_setLinks {g : Graph} {n : Nat} {v : Int} (h : NoDangling g) :
    NoDangling (g.setLinks n v) := by
  refine ⟨fun d hd k hk => ?_, by simpa using h.root⟩
  have hent : (g.setLinks n v d).ent = (g d).ent := by
    by_cases hdn : d = n <;> simp [Graph.setLinks, hdn]
  rw [hent] at hk ⊢
  rw [Graph.setLinks_kind] at hd ⊢
  exact h.named d hd k hk

theorem Graph.walkParent_setLinks {g : Graph} {n : Nat} {v : Int} {elems : List Name} :
    ∀ {start : Nat}, (g.setLinks n v).walkParent start elems = g.walkParent start elems := by
  have hfind : ∀ d name, (g.setLinks n v d).find name = (g d).find name := fun d name => by
    by_cases hdn : d = n <;> simp [Graph.setLinks, hdn, Node.find]
  have hent : ∀ d, (g.setLinks n v d).ent = (g d).ent := fun d => by
    by_cases hdn : d = n <;> simp [Graph.setLinks, hdn]
  have hnext : ∀ d name, (g.setLinks n v).next d name = g.next d name := fun d name => by
    simp only [Graph.next, Graph.setLinks_kind, hfind, hent]
  induction elems with
  | nil => intro start; rfl
  | cons name rest ih =>
    intro start
    cases rest with
    | nil => simp only [Graph.walkParent, Graph.setLinks_kind]
    | cons e rest => simp only [Graph.walkParent, hnext, ih]

/-- Entry `k` of a directory, which is empty from the end of the file on. -/
def entryAt (nodes : Nodes) (data : Nat → Block) (n k : Nat) : Dirent :=
  if 16 * k < (nodes n).size then decodeDirent (bytesFrom (byteAt nodes data n) (16 * k) 16)
  else {}

def graphOf (nodes : Nodes) (data : Nat → Block) : Graph := fun n =>
  match (nodes n).type with
  | .free => {}
  | .dir =>
    { kind := .dir
      nlink := (nodes n).nlink
      cnt := (nodes n).size / 16
      ent := entryAt nodes data n }
  | type => { kind := type, nlink := (nodes n).nlink }

def Fs.graph (s : Fs) : Graph := graphOf s.dinode s.data

section Abstraction

variable {nodes nodes' : Nodes} {data data' : Nat → Block} {n : Nat}

@[simp] theorem graphOf_kind : (graphOf nodes data n).kind = (nodes n).type := by
  unfold graphOf
  split <;> simp [*]

theorem graphOf_nlink (hn : (nodes n).type ≠ .free) :
    (graphOf nodes data n).nlink = (nodes n).nlink := by
  unfold graphOf
  split
  · contradiction
  · rfl
  · rfl

theorem graphOf_dir (hn : (nodes n).type = .dir) : graphOf nodes data n =
    { kind := .dir, nlink := (nodes n).nlink, cnt := (nodes n).size / 16,
      ent := entryAt nodes data n } := by
  simp [graphOf, hn]

theorem graphOf_free (hn : (nodes n).type = .free) : graphOf nodes data n = {} := by
  simp [graphOf, hn]

theorem graphOf_not_dir (hn : (nodes n).type ≠ .free) (hd : (nodes n).type ≠ .dir) :
    graphOf nodes data n = { kind := (nodes n).type, nlink := (nodes n).nlink } := by
  unfold graphOf
  split
  · contradiction
  · contradiction
  · rfl

theorem entryAt_congr {k : Nat} (hsize : (nodes' n).size = (nodes n).size)
    (hbytes : 16 * k < (nodes n).size → ∀ i < 16,
      byteAt nodes' data' n (16 * k + i) = byteAt nodes data n (16 * k + i)) :
    entryAt nodes' data' n k = entryAt nodes data n k := by
  simp only [entryAt, hsize]
  by_cases hk : 16 * k < (nodes n).size
  · rw [if_pos hk, if_pos hk]
    congr 1
    refine List.map_congr_left fun i hi => hbytes hk i (List.mem_range.mp hi)
  · rw [if_neg hk, if_neg hk]

theorem graphOf_congr (htype : (nodes' n).type = (nodes n).type)
    (hlink : (nodes' n).nlink = (nodes n).nlink)
    (hsize : (nodes n).type = .dir → (nodes' n).size = (nodes n).size)
    (hbytes : (nodes n).type = .dir → ∀ k i, 16 * k < (nodes n).size → i < 16 →
      byteAt nodes' data' n (16 * k + i) = byteAt nodes data n (16 * k + i)) :
    graphOf nodes' data' n = graphOf nodes data n := by
  cases ht : (nodes n).type with
  | free => rw [graphOf_free (htype.trans ht), graphOf_free ht]
  | dir =>
    have hent : entryAt nodes' data' n = entryAt nodes data n :=
      funext fun k => entryAt_congr (hsize ht) fun hk i hi => hbytes ht k i hk hi
    rw [graphOf_dir (htype.trans ht), graphOf_dir ht, hlink, hsize ht, hent]
  | file =>
    rw [graphOf_not_dir (by rw [htype, ht]; decide) (by rw [htype, ht]; decide),
      graphOf_not_dir (by rw [ht]; decide) (by rw [ht]; decide), htype, hlink]
  | device =>
    rw [graphOf_not_dir (by rw [htype, ht]; decide) (by rw [htype, ht]; decide),
      graphOf_not_dir (by rw [ht]; decide) (by rw [ht]; decide), htype, hlink]

theorem graphOf_update_of_ne {d : Dinode} {m : Nat} (hm : m ≠ n) :
    graphOf (Function.update nodes n d) data m = graphOf nodes data m := by
  have hnode : Function.update nodes n d m = nodes m := Function.update_of_ne hm _ _
  refine graphOf_congr (by rw [hnode]) (by rw [hnode]) (fun _ => by rw [hnode])
    fun _ k i _ _ => ?_
  rw [byteAt, byteAt, place_eq_of_nodes hnode]

theorem graphOf_update (d : Dinode) : graphOf (Function.update nodes n d) data =
    Function.update (graphOf nodes data) n (graphOf (Function.update nodes n d) data n) := by
  funext m
  by_cases hm : m = n
  · rw [hm, Function.update_self]
  · rw [Function.update_of_ne hm, graphOf_update_of_ne hm]

theorem place_setInfo {d : Dinode} (htype : d.type = (nodes n).type)
    (haddrs : d.addrs = (nodes n).addrs) :
    place (Function.update nodes n d) data = place nodes data := by
  funext ⟨m, p⟩
  by_cases hm : m = n
  · subst hm
    simp [place, blockAt, htype, haddrs]
  · rw [place_eq_of_nodes (Function.update_of_ne hm _ _)]

theorem graphOf_setInfo {d : Dinode} (hn : (nodes n).type ≠ .free)
    (htype : d.type = (nodes n).type) (hsize : d.size = (nodes n).size)
    (haddrs : d.addrs = (nodes n).addrs) :
    graphOf (Function.update nodes n d) data = (graphOf nodes data).setLinks n d.nlink := by
  have hplace : place (Function.update nodes n d) data = place nodes data :=
    place_setInfo htype haddrs
  rw [graphOf_update, Graph.setLinks]
  congr 1
  by_cases hd : (nodes n).type = .dir
  · have hent : entryAt (Function.update nodes n d) data n = entryAt nodes data n := by
      funext k
      refine entryAt_congr (by simpa using hsize) fun _ i _ => ?_
      rw [byteAt, byteAt, hplace]
    rw [graphOf_dir hd, graphOf_dir (by simp [htype, hd]), hent]
    simp [hsize]
  · rw [graphOf_not_dir hn hd, graphOf_not_dir (by simpa [htype] using hn)
      (by simpa [htype] using hd)]
    simp [htype]

theorem graphOf_new {type : FileType} (htype : type ≠ .free) :
    graphOf (Function.update nodes n { type := type }) data =
      Function.update (graphOf nodes data) n { kind := type } := by
  rw [graphOf_update]
  congr 1
  by_cases hd : type = .dir
  · subst hd
    have hent : entryAt (Function.update nodes n { type := .dir }) data n = fun _ => {} := by
      funext k
      simp [entryAt]
    rw [graphOf_dir (by simp), hent]
    simp
  · rw [graphOf_not_dir (by simpa using htype) (by simpa using hd)]
    simp

theorem graphOf_beyond {k : Nat} (hk : (graphOf nodes data n).cnt ≤ k)
    (hdvd : (nodes n).type = .dir → 16 ∣ (nodes n).size) : (graphOf nodes data n).ent k = {} := by
  by_cases hd : (nodes n).type = .dir
  · rw [graphOf_dir hd] at hk ⊢
    have hsize := hdvd hd
    simp only at hk
    exact if_neg (by omega)
  · by_cases hf : (nodes n).type = .free
    · rw [graphOf_free hf]
    · rw [graphOf_not_dir hf hd]

end Abstraction

end OsProject
