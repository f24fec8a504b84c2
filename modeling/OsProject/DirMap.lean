import OsProject.ChunkedWrite
import OsProject.CString
import OsProject.SlotMap

/-! A directory as a map from names to inode numbers. `dirlookup`, `dirlink` and the clearing of an
entry are the operations of the map. -/

namespace OsProject

variable {sb : Superblock} {s s' : Fs} {hold : Slot → Nat} {held : List Slot} {dp : Slot} {n : Nat}
  {m m' : Name → Option Nat} {E : Panic → Prop} {k : Nat} {name : Name}

def Node.slots (g : Node) (k : Nat) : Option (Name × Nat) :=
  if (g.ent k).inum = 0 then none else some ((g.ent k).name, (g.ent k).inum)

/-- The entries of directory `n`. -/
def Fs.slots (s : Fs) (n : Nat) : Nat → Option (Name × Nat) := (s.graph n).slots

theorem Node.slots_eq_none {g : Node} : g.slots k = none ↔ (g.ent k).inum = 0 := by
  rw [Node.slots]
  split_ifs with hz <;> simp [hz]

theorem Node.slots_of_ne {g : Node} (h : (g.ent k).inum ≠ 0) :
    g.slots k = some ((g.ent k).name, (g.ent k).inum) := if_neg h

theorem Node.slots_eq_some {g : Node} {v : Nat} (h : g.slots k = some (name, v)) :
    (g.ent k).inum = v ∧ (g.ent k).name = name ∧ v ≠ 0 := by
  rw [Node.slots] at h
  split_ifs at h with hz
  cases h
  exact ⟨rfl, rfl, hz⟩

theorem Graph.slots_setEnt (g : Graph) (d k : Nat) (de : Dirent) : (g.setEnt d k de d).slots =
    Function.update (g d).slots k (if de.inum = 0 then none else some (de.name, de.inum)) := by
  funext j
  by_cases hj : j = k
  · simp [Node.slots, Graph.setEnt, hj]
  · simp [Node.slots, Graph.setEnt, hj]

structure DirAt (sb : Superblock) (hold : Slot → Nat) (held : List Slot) (dp : Slot) (n : Nat)
    (m : Name → Option Nat) (s : Fs) : Prop where
  ok : FsOk sb s hold held []
  used : 0 < hold dp ∨ dp ∈ held
  valid : (s.inode dp).valid = true
  num : (s.inode dp).inum = n
  dir : (s.graph n).kind = .dir
  entries : Represents (s.slots n) m

theorem DirAt.reaches {g : Graph} (h : DirAt sb hold held dp n m s)
    (hs : Reaches sb hold held s s' held [] g) (hdir : (g n).kind = .dir)
    (hm : Represents (g n).slots m') : DirAt sb hold held dp n m' s' := by
  obtain ⟨hnum, hvalid⟩ := hs.kept.slot dp h.used
  refine ⟨hs.ok, h.used, hvalid h.valid, hnum.trans h.num, ?_, ?_⟩
  · rw [hs.graph]
    exact hdir
  · rw [Fs.slots, hs.graph]
    exact hm

theorem DirAt.find_none (h : DirAt sb hold held dp n m s)
    (hf : (s.graph n).find name = none) : m name = none := by
  refine h.entries.eq_none fun k v hk => ?_
  obtain ⟨hinum, hname, hne⟩ := Node.slots_eq_some hk
  by_cases hlt : k < (s.graph n).cnt
  · exact Node.find_none hf hlt (by rw [hinum]; exact hne) hname
  · rw [h.ok.ent_beyond (by omega)] at hinum
    exact hne hinum.symm

theorem DirAt.find_some (h : DirAt sb hold held dp n m s)
    (hf : (s.graph n).find name = some k) :
    s.slots n k = some (name, ((s.graph n).ent k).inum) ∧
      m name = some ((s.graph n).ent k).inum := by
  obtain ⟨hne, hname⟩ := Node.find_some hf
  have hslot := Node.slots_of_ne hne
  rw [hname] at hslot
  exact ⟨hslot, (h.entries.bound _ _).mpr ⟨k, hslot⟩⟩

/-- The directory can take another entry: there is a free one, or the file can grow by one. -/
def Room (sb : Superblock) (s : Fs) (n : Nat) : Prop :=
  (∃ k < (s.graph n).cnt, s.slots n k = none) ∨
    (s.dinode n).size + 16 ≤ MAXFILE * BSIZE ∧ Enough sb s n (s.dinode n).size 16

theorem DirAt.slot (h : DirAt sb hold held dp n m s) :
    (s.dinode n).type = .dir ∧ (s.inode dp).size = (s.dinode n).size ∧ 16 ∣ (s.dinode n).size ∧
      (s.dinode n).size ≤ MAXFILE * BSIZE ∧ (s.graph n).cnt = (s.dinode n).size / 16 := by
  have htype : (s.dinode n).type = .dir := by
    have hdir := h.dir
    rwa [Fs.graph, graphOf_kind] at hdir
  obtain ⟨hco, -⟩ := h.ok.cache.coherent dp (h.ok.ref_pos h.used) h.valid
  rw [h.num] at hco
  refine ⟨htype, by rw [hco], h.ok.vol.dirSize n htype, ?_, ?_⟩
  · exact (h.ok.vol.filled n (by rw [htype]; decide)).size_le
  · rw [Fs.graph, graphOf_dir htype]

theorem DirAt.room_iff (h : DirAt sb hold held dp n m s) (hk : (s.graph n).FirstFree k) :
    (16 * k ≤ (s.dinode n).size ∧ 16 * k + 16 ≤ MAXFILE * BSIZE ∧ Enough sb s n (16 * k) 16) ↔
      Room sb s n := by
  obtain ⟨htype, -, hdvd, hmax, hcnt⟩ := h.slot
  have hle : k ≤ (s.graph n).cnt := by
    by_contra hlt
    exact hk.2 _ (by omega) (h.ok.ent_beyond le_rfl)
  by_cases hlt : k < (s.graph n).cnt
  · refine iff_of_true ⟨by omega, by omega, enough_of_filled h.ok ?_ (by omega)⟩
      (.inl ⟨k, hlt, Node.slots_eq_none.mpr hk.1⟩)
    rw [htype]
    decide
  · have hsize : 16 * k = (s.dinode n).size := by omega
    rw [hsize]
    constructor
    · rintro ⟨-, hfits, henough⟩
      exact .inr ⟨hfits, henough⟩
    · rintro (⟨j, hj, hfree⟩ | hgrow)
      · exact absurd (Node.slots_eq_none.mp hfree) (hk.2 j (by omega))
      · exact ⟨le_rfl, hgrow⟩

theorem writeDirent_total {de : Dirent} {doomed : List Nat} (h : FsOk sb s hold held doomed)
    (hi : 0 < hold dp ∨ dp ∈ held) (hv : (s.inode dp).valid = true) :
    wp (writeDirent sb dp de (16 * k)) (fun r _ => r = 16 ↔ 16 * k ≤ (s.inode dp).size ∧
      16 * k + 16 ≤ MAXFILE * BSIZE ∧ Enough sb s (s.inode dp).inum (16 * k) 16) E s := by
  rw [writeDirent]
  refine wp_post (writei_loop h (h.ref_pos hi) hv (by decide)) ?_
  rintro r s' (⟨rfl, -, hbad⟩ | ⟨j, g, t, nodes, l, rfl, hoff, hfits, hd, -⟩)
  · refine iff_of_false (by decide) ?_
    rintro ⟨hoff, hfits, -⟩
    omega
  · constructor
    · intro hj
      have hle := hd.stop.le
      obtain rfl : j = 16 := by omega
      obtain rfl : g = 0 := by omega
      exact ⟨hoff, hfits, hd.enough h⟩
    · rintro ⟨-, -, henough⟩
      rw [(hd.complete h hfits (fun _ _ => rfl) henough).1]
      rfl

inductive DirCall
  | link (name : CString) (inum : Nat)
  | unlink (name : CString)

/-- The steps of `sys_unlink` on the directory: the entry is looked up and overwritten with zeros,
and the reference to its inode is dropped. -/
def unlinkName (sb : Superblock) (dp : Slot) (name : CString) : FsM Int := do
  match ← Bytes.dirlookup sb dp name with
  | none => return -1
  | some (ip, off) =>
    let r ← writeDirent sb dp {} off
    if r ≠ 16 then throw .unlinkWritei
    else
      iput sb ip
      return 0

def dirCall (sb : Superblock) (dp : Slot) : DirCall → FsM Int
  | .link name inum => Bytes.dirlink sb dp name inum
  | .unlink name => unlinkName sb dp name

def dirRun (sb : Superblock) (dp : Slot) : List DirCall → FsM (List Int)
  | [] => return []
  | c :: cs => do
    let r ← dirCall sb dp c
    let rs ← dirRun sb dp cs
    return r :: rs

namespace DirCall

def Fits : DirCall → Prop
  | link _ inum => 0 < inum ∧ inum < 2 ^ 16
  | unlink _ => True

def apply (m : Name → Option Nat) : DirCall → Name → Option Nat
  | link name inum => Function.update m (cname name DIRSIZ) (some inum)
  | unlink name => Function.update m (cname name DIRSIZ) none

def Succeeds (sb : Superblock) (s : Fs) (n : Nat) (m : Name → Option Nat) : DirCall → Prop
  | link name _ => m (cname name DIRSIZ) = none ∧ Room sb s n
  | unlink name => m (cname name DIRSIZ) ≠ none

/-- One entry changes: the first free one is filled, or the one of the name is freed. -/
def Edits (slots slots' : Nat → Option (Name × Nat)) : DirCall → Prop
  | link name inum => ∃ k, slots k = none ∧ (∀ j < k, slots j ≠ none) ∧
      slots' = Function.update slots k (some (cname name DIRSIZ, inum))
  | unlink name => ∃ k v, slots k = some (cname name DIRSIZ, v) ∧
      slots' = Function.update slots k none

/-- The answer `r` to a call in `s`, and the entries in `s'` after it. -/
def Answers (sb : Superblock) (n : Nat) (m : Name → Option Nat) (s : Fs) (c : DirCall) (r : Int)
    (s' : Fs) : Prop :=
  c.Succeeds sb s n m ∧ r = 0 ∧ c.Edits (s.slots n) (s'.slots n) ∧
      Represents (s'.slots n) (c.apply m) ∨
    ¬ c.Succeeds sb s n m ∧ r = -1 ∧ s'.slots n = s.slots n

def replay (m : Name → Option Nat) : List (DirCall × Int) → Name → Option Nat
  | [] => m
  | (c, r) :: cs => replay (if r = 0 then c.apply m else m) cs

end DirCall

/-- What `dirlookup` answers: the inode with the number of the entry, whose offset it gives. -/
def LookedUp (n : Nat) (m : Name → Option Nat) (name : CString) (s : Fs) :
    Option (Slot × Nat) → Fs → Prop
  | none, s' => m (cname name DIRSIZ) = none ∧ s' = s
  | some (ip, off), s' => ∃ k inum, m (cname name DIRSIZ) = some inum ∧ off = 16 * k ∧
      s.slots n k = some (cname name DIRSIZ, inum) ∧ (s'.inode ip).inum = inum ∧
      0 < (s'.inode ip).ref ∧ s'.slots n = s.slots n

theorem FsInv.refs_ne {doomed : List Nat} (h : FsOk sb s hold held doomed)
    (hE : (∀ i, hold i + held.count i ≠ 0) → E .igetNoInodes) :
    (∀ i, (s.inode i).ref ≠ 0) → E .igetNoInodes := by
  intro hall
  refine hE fun i hi => hall i ?_
  rw [h.cache.refs i]
  exact_mod_cast hi

theorem DirAt.dirlookup (h : DirAt sb hold held dp n m s)
    (hE : (∀ i, hold i + held.count i ≠ 0) → E .igetNoInodes) (name : CString) :
    wp (Bytes.dirlookup sb dp name) (LookedUp n m name s) E s := by
  rw [Bytes.dirlookup_eq]
  have hdir := h.dir
  rw [← h.num] at hdir
  refine wp_post (dirlookup_total h.ok h.used h.valid hdir (h.ok.refs_ne hE)) ?_
  rw [h.num]
  rintro r s' (⟨hnone, rfl, rfl⟩ | ⟨k, ip, hsome, rfl, hs, hnum, -⟩)
  · exact ⟨h.find_none hnone, rfl⟩
  · obtain ⟨hslot, hm⟩ := h.find_some hsome
    refine ⟨k, _, hm, rfl, hslot, hnum, hs.ok.ref_pos (.inr (List.mem_cons_self ..)), ?_⟩
    rw [Fs.slots, Fs.slots, hs.graph]

def DirDone (sb : Superblock) (hold : Slot → Nat) (held : List Slot) (dp : Slot) (n : Nat)
    (m : Name → Option Nat) (s : Fs) (c : DirCall) (r : Int) (s' : Fs) : Prop :=
  c.Answers sb n m s r s' ∧ DirAt sb hold held dp n (if r = 0 then c.apply m else m) s'

theorem DirAt.failed {c : DirCall} (h : DirAt sb hold held dp n m s) (hc : ¬ c.Succeeds sb s n m)
    (hs : Reaches sb hold held s s' held [] s.graph) : DirDone sb hold held dp n m s c (-1) s' :=
  ⟨.inr ⟨hc, rfl, by rw [Fs.slots, Fs.slots, hs.graph]⟩, h.reaches hs h.dir h.entries⟩

theorem DirAt.dirlink (h : DirAt sb hold held dp n m s)
    (hE : (∀ i, hold i + held.count i ≠ 0) → E .igetNoInodes) {name : CString} {inum : Nat}
    (hpos : 0 < inum) (hlt : inum < 2 ^ 16) :
    wp (Bytes.dirlink sb dp name inum) (DirDone sb hold held dp n m s (.link name inum)) E s := by
  have hdir := h.dir
  rw [← h.num] at hdir
  have hde : Dirent.Fits { inum := inum, name := cname name DIRSIZ } :=
    ⟨hlt, length_cname_le _ _, zero_notMem_cname _ _⟩
  rw [Bytes.dirlink_eq]
  simp only [OsProject.dirlink, wp_bind]
  refine wp_post (dirlookup_total h.ok h.used h.valid hdir (h.ok.refs_ne hE)) ?_
  rintro r s1 (⟨hnone, rfl, rfl⟩ | ⟨k, ip, hsome, rfl, hs, -, -⟩)
  · rw [h.num] at hnone
    simp only [getInode, wp_bind, wp_get, wp_pure]
    rw [(h.ok.direntOffs h.used h.valid hdir).1, List.range_eq_range']
    refine wp_post (dirFindFree_spec h.ok h.used h.valid hdir (Nat.zero_add _)
      fun j hj => absurd hj (Nat.not_lt_zero j)) ?_
    rintro off s2 ⟨rfl, k, rfl, hfree⟩
    refine wp_mono (wp_and (writeDirent_spec (E := E) h.ok h.used h.valid hdir hde)
      (writeDirent_total (E := E) h.ok h.used h.valid)) ?_ fun _ he => he.1
    rintro r s3 ⟨hs, hroom⟩
    rw [h.num] at hs hfree hroom
    rw [h.slot.2.1, h.room_iff hfree] at hroom
    simp only [wp_ite, wp_pure]
    refine ⟨fun hr => ?_, fun hr => h.failed (fun hc => hr (hroom.mpr hc.2)) ?_⟩
    · rw [if_pos hr] at hs
      have hslots := s2.graph.slots_setEnt n k { inum := inum, name := cname name DIRSIZ }
      rw [if_neg (by simp only; omega)] at hslots
      have hput : Represents (s2.graph.setEnt n k { inum := inum, name := cname name DIRSIZ }
          n).slots (Function.update m (cname name DIRSIZ) (some inum)) := by
        rw [hslots]
        exact h.entries.put (Node.slots_eq_none.mpr hfree.1) (h.find_none hnone)
      refine ⟨.inl ⟨⟨h.find_none hnone, hroom.mp hr⟩, rfl,
        ⟨k, Node.slots_eq_none.mpr hfree.1, fun j hj => Node.slots_eq_none.not.mpr (hfree.2 j hj), ?_⟩,
        ?_⟩, h.reaches hs ?_ hput⟩
      · rw [Fs.slots, hs.graph, hslots]
        rfl
      · rw [Fs.slots, hs.graph]
        exact hput
      · rw [Graph.setEnt_kind]
        exact h.dir
    · rwa [if_neg hr] at hs
  · rw [h.num] at hsome
    simp only [wp_bind, wp_pure]
    refine wp_post (iput_keep hs.ok (List.Perm.refl _) (by simp)) ?_
    intro _ s2 hs2
    rw [hs.graph] at hs2
    refine h.failed (fun hc => ?_) (hs.trans hs2 fun _ hm => hm)
    rw [DirCall.Succeeds, (h.find_some hsome).2] at hc
    cases hc.1

theorem DirAt.unlinkName (h : DirAt sb hold held dp n m s)
    (hE : (∀ i, hold i + held.count i ≠ 0) → E .igetNoInodes) {name : CString} :
    wp (unlinkName sb dp name) (DirDone sb hold held dp n m s (.unlink name)) E s := by
  have hdir := h.dir
  rw [← h.num] at hdir
  simp only [OsProject.unlinkName, Bytes.dirlookup_eq, wp_bind]
  refine wp_post (dirlookup_total h.ok h.used h.valid hdir (h.ok.refs_ne hE)) ?_
  rintro r s1 (⟨hnone, rfl, rfl⟩ | ⟨k, ip, hsome, rfl, hs, -, -⟩)
  · rw [h.num] at hnone
    exact h.failed (fun hc => hc (h.find_none hnone)) (.refl h.ok)
  · rw [h.num] at hsome
    obtain ⟨hslot, hm⟩ := h.find_some hsome
    obtain ⟨hnum, hvalid⟩ := hs.kept.slot dp h.used
    have h1 : DirAt sb hold (ip :: held) dp n m s1 := by
      refine ⟨hs.ok, h.used.imp_right (List.mem_cons_of_mem _), hvalid h.valid,
        hnum.trans h.num, ?_, ?_⟩
      · rw [hs.graph]
        exact h.dir
      · rw [Fs.slots, hs.graph]
        exact h.entries
    have hdir1 := h1.dir
    rw [← h1.num] at hdir1
    simp only [wp_bind]
    refine wp_mono (wp_and (writeDirent_spec (E := E) h1.ok h1.used h1.valid hdir1 empty_fits)
      (writeDirent_total (E := E) h1.ok h1.used h1.valid)) ?_ fun _ he => he.1
    rintro r s2 ⟨hs2, hroom⟩
    -- the entry is there, so that the write needs no block
    have hr : r = 16 := by
      obtain ⟨htype, hsize, hdvd, hmax, hcnt⟩ := h1.slot
      have hlt : k < (s1.graph n).cnt := by
        rw [hs.graph]
        exact List.mem_range.mp (List.mem_of_find?_eq_some hsome)
      refine hroom.mpr ⟨by omega, by omega, ?_⟩
      rw [h1.num]
      exact enough_of_filled h1.ok (by rw [htype]; decide) (by omega)
    rw [if_pos hr, hs.graph, h1.num] at hs2
    simp only [wp_ite, wp_throw, wp_bind, wp_pure]
    refine ⟨fun hne => absurd hr hne, fun _ => ?_⟩
    refine wp_post (iput_keep hs2.ok (List.Perm.refl _) (by simp)) ?_
    intro _ s3 hs3
    rw [hs2.graph] at hs3
    have hwrite := hs2.mono (List.subset_cons_self ip held)
    have hall := (hs.trans hwrite fun _ hm => hm).trans hs3 fun _ hm => hm
    have hslots := s.graph.slots_setEnt n k {}
    rw [if_pos rfl] at hslots
    have hclear : Represents (s.graph.setEnt n k {} n).slots
        (Function.update m (cname name DIRSIZ) none) := by
      rw [hslots]
      exact h.entries.clear hslot
    refine ⟨.inl ⟨by rw [DirCall.Succeeds, hm]; simp, rfl, ⟨k, _, hslot, ?_⟩, ?_⟩,
      h.reaches hall ?_ hclear⟩
    · rw [Fs.slots, hall.graph, hslots]
      rfl
    · rw [Fs.slots, hall.graph]
      exact hclear
    · rw [Graph.setEnt_kind]
      exact h.dir

theorem DirAt.dirCall (h : DirAt sb hold held dp n m s)
    (hE : (∀ i, hold i + held.count i ≠ 0) → E .igetNoInodes) {c : DirCall} (hc : c.Fits) :
    wp (dirCall sb dp c) (DirDone sb hold held dp n m s c) E s := by
  cases c with
  | link name inum => exact h.dirlink hE hc.1 hc.2
  | unlink name => exact h.unlinkName hE

theorem DirAt.dirRun (hE : (∀ i, hold i + held.count i ≠ 0) → E .igetNoInodes)
    {calls : List DirCall} : ∀ {m : Name → Option Nat} {s : Fs}, DirAt sb hold held dp n m s →
    (∀ c ∈ calls, c.Fits) → wp (dirRun sb dp calls) (fun rs s' =>
      DirAt sb hold held dp n (DirCall.replay m (calls.zip rs)) s') E s := by
  induction calls with
  | nil =>
    intro m s h _
    simpa [OsProject.dirRun, DirCall.replay] using h
  | cons c cs ih =>
    intro m s h hfits
    simp only [OsProject.dirRun, wp_bind, wp_pure]
    refine wp_post (h.dirCall hE (hfits c List.mem_cons_self)) ?_
    intro r s1 hdone
    refine wp_post (ih hdone.2 fun c hc => hfits c (List.mem_cons_of_mem _ hc)) ?_
    intro rs s2 h2
    rwa [List.zip_cons_cons, DirCall.replay]

def NoSlot (s : Fs) (e : Panic) : Prop := e = .igetNoInodes ∧ ∀ i, (s.inode i).ref ≠ 0

/-- After every list of calls the entries represent the map of the calls that succeeded, and each
further call and lookup answers as the map says. -/
theorem directory_is_map {calls : List DirCall} (h : DirAt sb hold held dp n m s)
    (hfits : ∀ c ∈ calls, c.Fits) :
    wp (dirRun sb dp calls) (fun rs s' =>
      Represents (s'.slots n) (DirCall.replay m (calls.zip rs)) ∧
      (∀ name, wp (Bytes.dirlookup sb dp name)
        (LookedUp n (DirCall.replay m (calls.zip rs)) name s') (NoSlot s) s') ∧
      ∀ c : DirCall, c.Fits → wp (dirCall sb dp c)
        (c.Answers sb n (DirCall.replay m (calls.zip rs)) s') (NoSlot s) s') (NoSlot s) s := by
  have hE : (∀ i, hold i + held.count i ≠ 0) → NoSlot s .igetNoInodes := by
    refine fun hall => ⟨rfl, fun i hi => hall i ?_⟩
    have hrefs := h.ok.cache.refs i
    omega
  refine wp_post (DirAt.dirRun hE h hfits) ?_
  intro rs s' h'
  refine ⟨h'.entries, h'.dirlookup hE, fun c hc => ?_⟩
  exact wp_post (h'.dirCall hE hc) fun _ _ hdone => hdone.1

def Node.Distinct (g : Node) : Prop :=
  ∀ j < g.cnt, ∀ k < g.cnt,
    (g.ent j).inum ≠ 0 ∧ (g.ent k).inum ≠ 0 ∧ (g.ent j).name = (g.ent k).name → j = k

instance : DecidablePred Node.Distinct := fun g =>
  inferInstanceAs (Decidable (∀ j < g.cnt, ∀ k < g.cnt, _ → j = k))

theorem Node.Distinct.represents {g : Node} (hdistinct : g.Distinct)
    (hend : ∀ k, g.cnt ≤ k → (g.ent k).inum = 0) :
    Represents g.slots fun name => (g.find name).map fun k => (g.ent k).inum := by
  have hlt : ∀ {k : Nat} {name : Name} {v : Nat}, g.slots k = some (name, v) → k < g.cnt := by
    intro k name v hk
    obtain ⟨hinum, -, hne⟩ := Node.slots_eq_some hk
    by_contra hge
    exact hne (hinum ▸ hend k (by omega))
  have honce : ∀ i j name v w, g.slots i = some (name, v) → g.slots j = some (name, w) → i = j := by
    intro i j name v w hi hj
    obtain ⟨hv, hname, hv0⟩ := Node.slots_eq_some hi
    obtain ⟨hw, hname', hw0⟩ := Node.slots_eq_some hj
    exact hdistinct i (hlt hi) j (hlt hj) ⟨hv ▸ hv0, hw ▸ hw0, hname.trans hname'.symm⟩
  refine ⟨fun name v => ⟨fun hv => ?_, fun ⟨i, hi⟩ => ?_⟩, honce⟩
  · obtain ⟨k, hk, rfl⟩ := Option.map_eq_some_iff.mp hv
    obtain ⟨hne, hname⟩ := Node.find_some hk
    exact ⟨k, by rw [Node.slots_of_ne hne, hname]⟩
  · obtain ⟨hinum, hname, hne⟩ := Node.slots_eq_some hi
    cases hf : g.find name with
    | none => exact absurd hname (Node.find_none hf (hlt hi) (hinum ▸ hne))
    | some k =>
      obtain ⟨hk0, hkname⟩ := Node.find_some hf
      have hk := Node.slots_of_ne hk0
      rw [hkname] at hk
      rw [← honce k i name _ v hk hi] at hinum
      rw [Option.map_some, hinum]

def RootReady (s : Fs) : Prop :=
  (s.inode 0).valid = true ∧ (s.inode 0).inum = ROOTINO ∧ (s.graph ROOTINO).kind = .dir ∧
    (s.kernel.proc 0).cwd = some 0 ∧ (s.graph ROOTINO).Distinct

instance : DecidablePred RootReady := fun _ => inferInstanceAs (Decidable (_ ∧ _))

theorem dirAt_root {s : Fs} (h : Sys smallSb s []) (hroot : RootReady s) :
    ∃ m, DirAt smallSb (holders s) [] 0 ROOTINO m s := by
  obtain ⟨hvalid, hnum, hdir, hcwd, hdistinct⟩ := hroot
  exact ⟨_, h.ok, .inl (holders_pos_of_cwd hcwd), hvalid, hnum, hdir,
    hdistinct.represents fun _ hk => h.ok.ent_beyond hk⟩

def oneByte (c : UInt8) : CString := fun i => if i = 0 then c else 0

def someCalls : List DirCall :=
  [.link (oneByte 120) 2, .link (oneByte 120) 3, .unlink (oneByte 120), .link (oneByte 121) 3]

theorem dirRun_someCalls : Outcome (fun s => RootReady s ∧
    returned (dirRun smallSb 0 someCalls) s = some [0, -1, 0, 0])
      (fun _ => False) (noteCalls.foldl (fsStep smallSb) (.ok smallFs)) := by
  decide +kernel

theorem directory_is_map_root : ∃ s s' m, DirAt smallSb (holders s) [] 0 ROOTINO m s ∧
    dirRun smallSb 0 someCalls s = .ok ([0, -1, 0, 0], s') ∧
    Represents (s'.slots ROOTINO) (DirCall.replay m (someCalls.zip [0, -1, 0, 0])) := by
  obtain ⟨s, -, hsys, hroot, hrun⟩ := exists_of_run sys_smallFs dirRun_someCalls
  obtain ⟨m, hm⟩ := dirAt_root hsys hroot
  obtain ⟨s', hok⟩ := exists_of_returned hrun
  have hfits : ∀ c ∈ someCalls, c.Fits := by
    simp [someCalls, DirCall.Fits]
  exact ⟨s, s', m, hm, hok, (wp_ok (directory_is_map hm hfits) hok).1⟩

def fullCalls : List (Fin NPROC × FsCall) :=
  [(0, .open (some [102, 0]) (O_CREATE ||| O_RDWR)), (0, .write 0 9216 (fun _ => some 7) 0),
    (0, .open (some [103, 0]) O_CREATE), (0, .unlink (some [103, 0]))]

def linkLookup (inum : Nat) : FsM (Int × Option (Slot × Nat)) := do
  let r ← Bytes.dirlink smallSb 0 (oneByte 120) inum
  let x ← Bytes.dirlookup smallSb 0 (oneByte 120)
  return (r, x)

theorem linkLookup_full : Outcome (fun s => RootReady s ∧
    (∀ b < smallSb.size, s.bitmap b = true) ∧ returned (linkLookup 2) s = some (0, some (1, 48)))
      (fun _ => False) (fullCalls.foldl (fsStep smallSb) (.ok smallFs)) := by
  decide +kernel

theorem linkLookup_wide : Outcome
    (fun s => RootReady s ∧ returned (linkLookup (2 ^ 16)) s = some (0, none))
      (fun _ => False) (noteCalls.foldl (fsStep smallSb) (.ok smallFs)) := by
  decide +kernel

theorem dirlink_full_wide :
    (∃ s m, Sys smallSb s [] ∧ DirAt smallSb (holders s) [] 0 ROOTINO m s ∧ s.Full smallSb ∧
      returned (linkLookup 2) s = some (0, some (1, 48))) ∧
    ∃ s m, Sys smallSb s [] ∧ DirAt smallSb (holders s) [] 0 ROOTINO m s ∧
      returned (linkLookup (2 ^ 16)) s = some (0, none) := by
  obtain ⟨s, -, hsys, hroot, hfull, hrun⟩ := exists_of_run sys_smallFs linkLookup_full
  obtain ⟨m, hm⟩ := dirAt_root hsys hroot
  obtain ⟨t, -, htsys, htroot, htrun⟩ := exists_of_run sys_smallFs linkLookup_wide
  obtain ⟨mt, hmt⟩ := dirAt_root htsys htroot
  exact ⟨⟨s, m, hsys, hm, hfull, hrun⟩, t, mt, htsys, hmt, htrun⟩

end OsProject
