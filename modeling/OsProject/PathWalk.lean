import OsProject.CString
import OsProject.FileContent
import OsProject.SepRuns

/-! Paths as the kernel reads them. `skipelem` copies one element after the other into a buffer of
`DIRSIZ` bytes, and `namex` looks up each of them before it takes the next. -/

namespace OsProject

def slashRuns (path : List UInt8) : List (List UInt8) :=
  (path.splitOnP (· = SLASH)).filter (· ≠ [])

def pathNames (path : List UInt8) : List Name := (slashRuns path).map (List.take DIRSIZ)

theorem slashRuns_eq (path : List UInt8) : slashRuns path = sepRuns (· = SLASH) path := by
  simp [slashRuns, sepRuns]

theorem slashRuns_dropWhile (p : List UInt8) :
    slashRuns (p.dropWhile (· = SLASH)) = slashRuns p := by
  rw [slashRuns_eq, slashRuns_eq, sepRuns_dropWhile]

theorem slashRuns_cons {c : UInt8} {p : List UInt8} (hc : c ≠ SLASH) :
    slashRuns (c :: p) =
      (c :: p).takeWhile (· ≠ SLASH) :: slashRuns ((c :: p).dropWhile (· ≠ SLASH)) := by
  have hcons : sepRuns (· = SLASH) (c :: p) = _ := sepRuns_cons (by simpa using hc) p
  rw [slashRuns_eq, slashRuns_eq, hcons]
  simp only [← decide_not]

theorem pathNames_of_skipelem_none {path : List UInt8} (h : skipelem path = none) :
    pathNames path = [] := by
  rw [skipelem] at h
  split_ifs at h with hnil
  rw [pathNames, ← slashRuns_dropWhile, hnil]
  rfl

theorem pathNames_of_skipelem {path rest : List UInt8} {name : Name}
    (h : skipelem path = some (name, rest)) : pathNames path = name :: pathNames rest ∧
      rest.length < path.length ∧ (rest ≠ [] → skipelem rest ≠ none) := by
  rw [skipelem] at h
  have hlen := (List.dropWhile_sublist (l := path) (· = SLASH)).length_le
  have hhead := List.head?_dropWhile_not (fun x => decide (x = SLASH)) path
  have hruns := slashRuns_dropWhile path
  cases hp : path.dropWhile (· = SLASH) with
  | nil => simp [hp] at h
  | cons c p =>
    rw [hp] at hlen hhead hruns
    have hc : c ≠ SLASH := by simpa using hhead
    simp only [hp, if_neg (List.cons_ne_nil c p)] at h
    obtain ⟨rfl, rfl⟩ := Prod.mk.inj (Option.some.inj h)
    refine ⟨?_, ?_, fun hrest hnone => ?_⟩
    · rw [pathNames, ← hruns, slashRuns_cons hc, List.map_cons, pathNames, slashRuns_dropWhile]
    · rw [List.dropWhile_cons_of_pos (by simpa using hc)]
      have h1 := (List.dropWhile_sublist (l := p) (· ≠ SLASH)).length_le
      have h2 := (List.dropWhile_sublist (l := p.dropWhile (· ≠ SLASH)) (· = SLASH)).length_le
      rw [List.length_cons] at hlen
      omega
    · rw [skipelem] at hnone
      split_ifs at hnone with hnil
      rw [List.dropWhile_idempotent] at hnil
      exact hrest hnil

theorem pathElems_eq {fuel : Nat} {path : List UInt8} (h : path.length ≤ fuel) :
    pathElems fuel path = pathNames path := by
  induction fuel generalizing path with
  | zero =>
    rw [List.length_eq_zero_iff.mp (Nat.le_zero.mp h)]
    rfl
  | succ fuel ih =>
    rw [pathElems]
    cases hs : skipelem path with
    | none => rw [pathNames_of_skipelem_none hs]
    | some x =>
      obtain ⟨hnames, hlen, -⟩ := pathNames_of_skipelem hs
      rw [hnames]
      simp only
      rw [ih (by omega)]

theorem cname_eq {l : Name} : ∀ {p : CString} {n : Nat}, (∀ i < l.length, p i = l.getD i 0) →
    0 ∉ l → l.length ≤ n → l.length = n ∨ p l.length = 0 → cname p n = l := by
  induction l with
  | nil =>
    intro p n _ _ _ hend
    cases n with
    | zero => rfl
    | succ n =>
      have hz : p 0 = 0 := by simpa using hend
      rw [cname_succ, if_neg (by simp [hz])]
  | cons c l ih =>
    intro p n hbytes hzero hlen hend
    cases n with
    | zero => simp at hlen
    | succ n =>
      have hc : p 0 = c := hbytes 0 (by simp)
      have hne : c ≠ 0 := fun he => hzero (by simp [he])
      have htail : cname p.tail n = l := by
        refine ih (fun i hi => ?_) (fun hm => hzero (by simp [hm])) (by simpa using hlen) ?_
        · exact hbytes (i + 1) (by simpa using hi)
        · simpa [CString.tail] using hend
      rw [cname_succ, hc, if_pos hne, htail]

namespace Bytes

/-- `memmove(name, s, len)`. -/
def memmove (name : CString) (s : List UInt8) (len : Nat) : CString :=
  fun i => if i < len then s.getD i 0 else name i

/-- The path after the element, and the buffer `name` with the element. -/
def skipelem (path : List UInt8) (name : CString) : Option (List UInt8 × CString) :=
  let s := path.dropWhile (· = SLASH)
  if s = [] then none
  else
    let len := (s.takeWhile (· ≠ SLASH)).length
    let name := if DIRSIZ ≤ len then memmove name s DIRSIZ
      else Function.update (memmove name s len) len 0
    some ((s.dropWhile (· ≠ SLASH)).dropWhile (· = SLASH), name)

theorem getD_takeWhile {l : List UInt8} {q : UInt8 → Bool} {i : Nat}
    (hi : i < (l.takeWhile q).length) : (l.takeWhile q).getD i 0 = l.getD i 0 := by
  have happ := List.takeWhile_append_dropWhile (p := q) (l := l)
  conv_rhs => rw [← happ]
  rw [List.getD_append _ _ _ _ hi]

theorem cname_memmove {s : List UInt8} (h0 : 0 ∉ s) (name : CString) (q : UInt8 → Bool) :
    cname (if DIRSIZ ≤ (s.takeWhile q).length then memmove name s DIRSIZ
      else Function.update (memmove name s (s.takeWhile q).length) (s.takeWhile q).length 0)
      DIRSIZ = (s.takeWhile q).take DIRSIZ := by
  have hzero : 0 ∉ (s.takeWhile q).take DIRSIZ := fun hm =>
    h0 ((List.takeWhile_sublist _).subset (List.mem_of_mem_take hm))
  split_ifs with hlong
  · have hlen : ((s.takeWhile q).take DIRSIZ).length = DIRSIZ := List.length_take_of_le hlong
    refine cname_eq (fun i hi => ?_) hzero hlen.le (.inl hlen)
    rw [hlen] at hi
    rw [memmove, if_pos hi, ← getD_takeWhile (q := q) (by omega), List.getD_eq_getElem?_getD,
      List.getD_eq_getElem?_getD, List.getElem?_take, if_pos hi]
  · rw [List.take_of_length_le (by omega)] at hzero ⊢
    refine cname_eq (fun i hi => ?_) hzero (by omega) (.inr (Function.update_self _ _ _))
    rw [Function.update_of_ne (by omega), memmove, if_pos hi, getD_takeWhile hi]

theorem skipelem_eq {path : List UInt8} (h0 : 0 ∉ path) (name : CString) :
    (skipelem path name).map (fun x => (cname x.2 DIRSIZ, x.1)) = OsProject.skipelem path := by
  have hsub := (List.dropWhile_sublist (l := path) (· = SLASH)).subset
  rw [skipelem, OsProject.skipelem]
  by_cases hnil : path.dropWhile (· = SLASH) = []
  · rw [if_pos hnil, if_pos hnil]
    rfl
  · rw [if_neg hnil, if_neg hnil, Option.map_some]
    simp only
    rw [cname_memmove fun hm => h0 (hsub hm)]

variable (sb : Superblock)

/-- The loop of `namex`. Every pass takes at least one byte of the path. -/
def namexLoop (nameiparent : Bool) : Nat → Slot → List UInt8 → CString →
    FsM (Option (Slot × CString))
  | 0, _, _, _ => throw .stuck
  | fuel + 1, ip, path, name =>
    match skipelem path name with
    | none => do
      if nameiparent then
        iput sb ip
        return none
      else return some (ip, name)
    | some (path, name) => do
      ilock ip
      let d ← getInode ip
      if d.type ≠ .dir then
        iunlockput sb ip
        return none
      else if nameiparent ∧ path = [] then
        iunlock ip
        return some (ip, name)
      else
        match ← dirlookup sb ip name with
        | none =>
          iunlockput sb ip
          return none
        | some (next, _) =>
          iunlockput sb ip
          namexLoop nameiparent fuel next path name

def namex (me : Fin NPROC) (path : List UInt8) (nameiparent : Bool) (name : CString) :
    FsM (Option (Slot × CString)) := do
  let s ← get
  if path.head? = some SLASH then
    let ip ← iget ROOTINO
    namexLoop sb nameiparent (path.length + 1) ip path name
  else
    match (s.kernel.proc me).cwd with
    | none => throw .kerneltrap
    | some cwd =>
      let ip ← idup cwd
      namexLoop sb nameiparent (path.length + 1) ip path name

/-- The buffer of `namei` is a local array, which `namex` fills before it is read. -/
def namei (me : Fin NPROC) (path : List UInt8) : FsM (Option Slot) := do
  let r ← namex sb me path false fun _ => 0
  return r.map Prod.fst

def nameiparent (me : Fin NPROC) (path : List UInt8) (name : CString) :
    FsM (Option (Slot × CString)) :=
  namex sb me path true name

/-- A result of `namex` with the name in the buffer, which only the caller of `nameiparent` reads. -/
def named (np : Bool) (r : Option (Slot × CString)) : Option (Slot × Name) :=
  r.map fun x => (x.1, if np then cname x.2 DIRSIZ else [])

theorem namexLoop_eq {np : Bool} {fuel : Nat} : ∀ {ip : Slot} {path : List UInt8} {name : CString},
    0 ∉ path → path.length < fuel → named np <$> namexLoop sb np fuel ip path name =
      OsProject.namexLoop sb np ip (pathNames path) := by
  induction fuel with
  | zero =>
    intro ip path name _ hlen
    omega
  | succ fuel ih =>
    intro ip path name h0 hlen
    have hskip := skipelem_eq h0 name
    rw [namexLoop]
    cases hs : skipelem path name with
    | none =>
      rw [hs] at hskip
      rw [pathNames_of_skipelem_none hskip.symm, OsProject.namexLoop]
      cases np <;> simp [named]
    | some x =>
      obtain ⟨rest, name'⟩ := x
      rw [hs] at hskip
      obtain ⟨hnames, hshort, hmore⟩ := pathNames_of_skipelem hskip.symm
      have h0' : 0 ∉ rest := fun hm => h0 ((skipelem_sub hskip.symm).2.2 hm)
      have hlast : pathNames rest = [] ↔ rest = [] := by
        refine ⟨fun hnil => ?_, fun hr => by rw [hr]; rfl⟩
        by_contra hr
        cases hsr : OsProject.skipelem rest with
        | none => exact hmore hr hsr
        | some y => simp [(pathNames_of_skipelem hsr).1] at hnil
      rw [hnames, OsProject.namexLoop]
      simp only [hlast, map_bind, dirlookup_eq]
      congr 1
      funext _
      congr 1
      funext d
      by_cases hd : d.type = .dir
      · rw [if_neg (not_not.mpr hd), if_neg (not_not.mpr hd)]
        by_cases hl : np = true ∧ rest = []
        · rw [if_pos hl, if_pos hl]
          simp [named, hl.1]
        · rw [if_neg hl, if_neg hl, map_bind]
          congr 1
          funext r
          cases r with
          | none => simp [named]
          | some y =>
            simp only [map_bind]
            congr 1
            funext _
            exact ih h0' (hshort.trans_le (Nat.lt_succ_iff.mp hlen))
      · rw [if_pos hd, if_pos hd]
        simp [named]

theorem namex_eq {np : Bool} {me : Fin NPROC} {path : List UInt8} (h0 : 0 ∉ path)
    (name : CString) : named np <$> namex sb me path np name = OsProject.namex sb me path np := by
  have hloop : ∀ ip, named np <$> namexLoop sb np (path.length + 1) ip path name =
      OsProject.namexLoop sb np ip (pathElems path.length path) := by
    intro ip
    rw [pathElems_eq le_rfl]
    exact namexLoop_eq sb h0 (Nat.lt_succ_self _)
  rw [namex, OsProject.namex]
  simp only [map_bind]
  congr 1
  funext s
  by_cases hroot : path.head? = some SLASH
  · rw [if_pos hroot, if_pos hroot, map_bind]
    simp only [hloop]
  · rw [if_neg hroot, if_neg hroot]
    cases (s.kernel.proc me).cwd with
    | none => rfl
    | some cwd => simp only [map_bind, hloop]

/-- The names that repeated calls of `skipelem` leave in the buffer. -/
def elems : Nat → List UInt8 → CString → List Name
  | 0, _, _ => []
  | fuel + 1, path, name =>
    match skipelem path name with
    | none => []
    | some (path, name) => cname name DIRSIZ :: elems fuel path name

theorem elems_eq {fuel : Nat} : ∀ {path : List UInt8} (name : CString), 0 ∉ path →
    path.length < fuel → elems fuel path name = pathNames path := by
  induction fuel with
  | zero =>
    intro path name _ hlen
    omega
  | succ fuel ih =>
    intro path name h0 hlen
    have hskip := skipelem_eq h0 name
    rw [elems]
    cases hs : skipelem path name with
    | none =>
      rw [hs] at hskip
      rw [pathNames_of_skipelem_none hskip.symm]
    | some x =>
      rw [hs] at hskip
      obtain ⟨hnames, hshort, -⟩ := pathNames_of_skipelem hskip.symm
      rw [hnames]
      simp only
      rw [ih x.2 (fun hm => h0 ((skipelem_sub hskip.symm).2.2 hm))
        (hshort.trans_le (Nat.lt_succ_iff.mp hlen))]

end Bytes

theorem Graph.walkParent_concat (g : Graph) (init : List Name) (last : Name) : ∀ start : Nat,
    g.walkParent start (init ++ [last]) = (g.walk start init).bind fun d =>
      if (g d).kind = .dir then some (d, last) else none := by
  induction init with
  | nil =>
    intro start
    rfl
  | cons name init ih =>
    intro start
    rw [List.cons_append, Graph.walkParent_cons (by simp), Graph.walk]
    cases g.next start name with
    | none => rfl
    | some n => exact ih n

variable {sb : Superblock} {s : Fs} {hold : Slot → Nat} {held : List Slot} {me : Fin NPROC}
  {path : List UInt8}

/-- What `namei` answers: the inode reached by looking up the names one after the other, and
nothing where that fails. -/
def NameiAnswers (s : Fs) (start : Nat) (names : List Name) : Option Slot → Fs → Prop
  | none, _ => s.graph.walk start names = none
  | some ip, s' => s.graph.walk start names = some (s'.inode ip).inum ∧ 0 < (s'.inode ip).ref

/-- What `nameiparent` answers: the directory reached by all names but the last, which is in the
buffer; nothing if there is no name, if a lookup fails, or if what is reached is no directory. -/
def ParentAnswers (s : Fs) (start : Nat) (names : List Name) : Option (Slot × CString) → Fs → Prop
  | none, _ => ∀ init last, names = init ++ [last] → ∀ d, s.graph.walk start init = some d →
      (s.graph d).kind ≠ .dir
  | some (dp, name), s' => ∃ init, names = init ++ [cname name DIRSIZ] ∧
      s.graph.walk start init = some (s'.inode dp).inum ∧
      (s.graph (s'.inode dp).inum).kind = .dir ∧ 0 < (s'.inode dp).ref

theorem parentAnswers_none {start : Nat} {names : List Name} {s' : Fs}
    (h : s.graph.walkParent start names = none) : ParentAnswers s start names none s' := by
  rintro init last rfl d hwalk hdir
  rw [Graph.walkParent_concat, hwalk, Option.bind_some, if_pos hdir] at h
  cases h

theorem parentAnswers_some {start : Nat} {names : List Name} {s' : Fs} {dp : Slot}
    {name : CString} (hr : 0 < (s'.inode dp).ref)
    (h : s.graph.walkParent start names = some ((s'.inode dp).inum, cname name DIRSIZ)) :
    ParentAnswers s start names (some (dp, name)) s' := by
  rcases List.eq_nil_or_concat names with rfl | ⟨init, last, rfl⟩
  · cases h
  · rw [List.concat_eq_append, Graph.walkParent_concat] at h
    obtain ⟨d, hwalk, hd⟩ := Option.bind_eq_some_iff.mp h
    split_ifs at hd with hdir
    obtain ⟨rfl, rfl⟩ := Prod.mk.inj (Option.some.inj hd)
    exact ⟨init, List.concat_eq_append .., hwalk, hdir, hr⟩

def TableFull (s : Fs) (e : Panic) : Prop :=
  e = .igetNoInodes ∧ ∃ j, ∀ i, i ≠ j → (s.inode i).ref ≠ 0

/-- `namei` and `nameiparent` follow the names of the path, and leave all files as they are. -/
theorem path_resolution (h : FsOk sb s hold held []) (hno : NoDangling s.graph)
    (hunlocked : ∀ i, s.locks i = false)
    (hcwd : ∃ c, (s.kernel.proc me).cwd = some c ∧ 0 < hold c) (h0 : 0 ∉ path) (name : CString) :
    Bytes.elems (path.length + 1) path name = (slashRuns path).map (List.take DIRSIZ) ∧
      wp (Bytes.namei sb me path) (fun r s' => s'.graph = s.graph ∧
        NameiAnswers s (startNum s me path) (pathNames path) r s') (TableFull s) s ∧
      wp (Bytes.nameiparent sb me path name) (fun r s' => s'.graph = s.graph ∧
        ParentAnswers s (startNum s me path) (pathNames path) r s') (TableFull s) s := by
  have herr : PathErr hold held False s.locks (TableFull s) := by
    refine ⟨fun ⟨j, hj⟩ => ⟨rfl, j, fun i hi hz => hj i hi ?_⟩, fun i hi => ?_, False.elim⟩
    · have hrefs := h.cache.refs i
      omega
    · rw [hunlocked i] at hi
      cases hi
  obtain ⟨c, hc, hpos⟩ := hcwd
  have hspec : ∀ np, wp (namex sb me path np) (fun r s' => Found sb hold held [] False np
      (startNum s me path) (pathNames path) s r s') (TableFull s) s := by
    intro np
    rw [← pathElems_eq le_rfl]
    refine namex_spec h (by simp) (fun hd => hd hno) (fun c' hc' => ?_) herr fun hnone => ?_
    · rw [hc] at hc'
      cases hc'
      exact hpos
    · rw [hc] at hnone
      cases hnone
  refine ⟨Bytes.elems_eq name h0 (Nat.lt_succ_self _), ?_, ?_⟩
  · have hnamex := hspec false
    rw [← Bytes.namex_eq sb h0 fun _ => 0, wp_map] at hnamex
    simp only [Bytes.namei, wp_bind, wp_pure]
    refine wp_post hnamex ?_
    rintro r s' ⟨-, ⟨hr, hs, hwalk⟩ | ⟨ip, nm, hr, hs, -, hwalk⟩⟩
    · rw [Option.map_eq_none_iff.mp hr]
      exact ⟨hs.graph, hwalk⟩
    · obtain ⟨x, rfl, hx⟩ := Option.map_eq_some_iff.mp hr
      obtain ⟨rfl, -⟩ := Prod.mk.inj hx
      exact ⟨hs.graph, hwalk, hs.ok.ref_pos (.inr (List.mem_cons_self ..))⟩
  · have hnamex := hspec true
    rw [← Bytes.namex_eq sb h0 name, wp_map] at hnamex
    rw [Bytes.nameiparent]
    refine wp_post hnamex ?_
    rintro r s' ⟨-, ⟨hr, hs, hwalk⟩ | ⟨dp, nm, hr, hs, -, hwalk⟩⟩
    · rw [Option.map_eq_none_iff.mp hr]
      exact ⟨hs.graph, parentAnswers_none hwalk⟩
    · obtain ⟨x, rfl, hx⟩ := Option.map_eq_some_iff.mp hr
      obtain ⟨rfl, rfl⟩ := Prod.mk.inj hx
      exact ⟨hs.graph, parentAnswers_some (hs.ok.ref_pos (.inr (List.mem_cons_self ..))) hwalk⟩

/-- The entries of the directories below `n` name inodes. -/
def Graph.NamedBelow (g : Graph) (n : Nat) : Prop :=
  (∀ d < n, (g d).kind = .dir → ∀ k < (g d).cnt, ((g d).ent k).inum ≠ 0 →
    (g ((g d).ent k).inum).kind ≠ .free) ∧ (g ROOTINO).kind ≠ .free

instance (g : Graph) (n : Nat) : Decidable (g.NamedBelow n) :=
  inferInstanceAs (Decidable ((∀ d < n, _ → ∀ k < (g d).cnt, _ → _) ∧ _))

theorem Graph.NamedBelow.noDangling {doomed : List Nat} (hg : s.graph.NamedBelow sb.ninodes)
    (h : FsOk sb s hold held doomed) : NoDangling s.graph := by
  refine ⟨fun d hd k hk => ?_, hg.2⟩
  have hlt : d < sb.ninodes := by
    refine (h.vol.inums d ?_).2
    rw [Fs.graph, graphOf_kind] at hd
    rw [hd]
    decide
  refine hg.1 d hlt hd k ?_ hk
  by_contra hge
  exact hk (h.ent_beyond (by omega))

def PathReady (s : Fs) : Prop :=
  s.graph.NamedBelow smallSb.ninodes ∧ (∀ i, s.locks i = false) ∧ (s.kernel.proc 0).cwd = some 0

instance : DecidablePred PathReady := fun _ => inferInstanceAs (Decidable (_ ∧ _))

theorem pathReady_note : Outcome (fun s => PathReady s ∧
    s.graph.walk (startNum s 0 [102, 47, 120]) [[102]] = some 2 ∧
    returned (Bytes.namei smallSb 0 [47, 102, 47, 47]) s = some (some 1) ∧
    (returned (Bytes.nameiparent smallSb 0 [102, 47, 120] fun _ => 0) s).map (Option.map Prod.fst) =
      some none) (fun _ => False) (noteCalls.foldl (fsStep smallSb) (.ok smallFs)) := by
  decide +kernel

theorem path_resolution_note : ∃ s s', Sys smallSb s [] ∧ PathReady s ∧
    Bytes.namei smallSb 0 [47, 102, 47, 47] s = .ok (some 1, s') ∧
    s.graph.walk ROOTINO [[102]] = some (s'.inode 1).inum := by
  obtain ⟨s, -, hsys, hready, -, hrun, -⟩ := exists_of_run sys_smallFs pathReady_note
  obtain ⟨s', hok⟩ := exists_of_returned hrun
  obtain ⟨hnamed, hunlocked, hcwd⟩ := hready
  have hpath := @path_resolution smallSb s (holders s) [] 0 [47, 102, 47, 47] hsys.ok
    (hnamed.noDangling hsys.ok) hunlocked ⟨0, hcwd, holders_pos_of_cwd hcwd⟩ (by decide) fun _ => 0
  exact ⟨s, s', hsys, ⟨hnamed, hunlocked, hcwd⟩, hok, (wp_ok hpath.2.1 hok).2.1⟩

theorem nameiparent_below_file : ∃ s, Sys smallSb s [] ∧ PathReady s ∧
    s.graph.walk (startNum s 0 [102, 47, 120]) [[102]] = some 2 ∧
    (returned (Bytes.nameiparent smallSb 0 [102, 47, 120] fun _ => 0) s).map (Option.map Prod.fst) =
      some none := by
  obtain ⟨s, -, hsys, hready, hwalk, -, hrun⟩ := exists_of_run sys_smallFs pathReady_note
  exact ⟨s, hsys, hready, hwalk, hrun⟩

end OsProject
