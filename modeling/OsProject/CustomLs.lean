import Mathlib.Data.List.Nodup
import OsProject.FlagArgs

/-! The program `custom_ls`. An entry of a directory is the index of the `readdir` that returned it.
The entries are read again after `closedir` has freed them, so what the storage of an entry then
holds is a parameter, and may be another name at each read. -/

namespace OsProject.CustomLs

structure Options where
  l : Bool
  a : Bool
  h : Bool
  deriving DecidableEq, Repr

def setLetter (o : Options) (ch : UInt8) : Options :=
  if ch = 108 then { o with l := true }
  else if ch = 97 then { o with a := true }
  else if ch = 104 then { o with h := true }
  else o

def readFlags (o : Options) (arg : List UInt8) : Options := arg.tail.foldl setLetter o

def parseFlags (argv : List (List UInt8)) (o : Options) : Options × Nat :=
  flagLoop readFlags o 1 argv.tail

def MAX_FILES : Nat := 1024

/-- `sizeof(full_path)`. -/
def PATH_SIZE : Nat := 512

def isDir (mode : Nat) : Bool := mode &&& 0xF000 == 0x4000

/-- `strcmp`, where a string ends at its first NUL or with the list. -/
def strcmp : List UInt8 → List UInt8 → Int
  | [], [] => 0
  | [], b :: _ => -b.toNat
  | a :: _, [] => a.toNat
  | a :: s, b :: t =>
    if a = b then if a = 0 then 0 else strcmp s t else a.toNat - b.toNat

def kept (o : Options) (name : List UInt8) : Bool := o.a || name.head? != some 46

/-- The first loop, from the `i`-th entry on with `n` entries stored: the indices of the entries that
are stored. A write behind the end of `files` has no defined result. -/
def collect (o : Options) : List (List UInt8) → Nat → Nat → Option (List Nat)
  | [], _, _ => some []
  | name :: names, i, n =>
    if kept o name then
      if n < MAX_FILES then (collect o names (i + 1) (n + 1)).map (i :: ·) else none
    else collect o names (i + 1) n

/-- `snprintf(full_path, sizeof(full_path), "%s/%s", path, name)`. -/
def fullPath (path name : List UInt8) : List UInt8 := (path ++ 47 :: name).take (PATH_SIZE - 1)

/-- The reads of a freed entry: by `qsort`, and in the `t`-th turn of the last loop for the path and
for the line. -/
inductive Read
  | sorting
  | path (t : Nat)
  | name (t : Nat)

/-- The names that are printed, how often `stat` has failed, and the totals. -/
structure Listing where
  printed : List (List UInt8)
  failed : Nat
  files : Nat
  dirs : Nat

/-- The last loop, from turn `t` on; `stat` gives `st_mode`. -/
def printLoop (stat : List UInt8 → Option Nat) (held : Read → Nat → List UInt8)
    (path : List UInt8) : List Nat → Nat → Listing → Listing
  | [], _, out => out
  | i :: files, t, out =>
    match stat (fullPath path (held (.path t) i)) with
    | none => printLoop stat held path files (t + 1) { out with failed := out.failed + 1 }
    | some mode =>
      printLoop stat held path files (t + 1)
        { out with
          printed := out.printed ++ [held (.name t) i]
          files := if isDir mode then out.files else out.files + 1
          dirs := if isDir mode then out.dirs + 1 else out.dirs }

/-- `compare` on the storage of two entries, as `qsort` uses it. -/
def compare (held : Nat → List UInt8) (i j : Nat) : Bool := strcmp (held i) (held j) ≤ 0

/-- `list_directory` for a directory that can be opened. -/
def listDirectory (stat : List UInt8 → Option Nat) (held : Read → Nat → List UInt8) (o : Options)
    (path : List UInt8) (entries : List (List UInt8)) : Option Listing :=
  (collect o entries 0 0).map fun files =>
    printLoop stat held path (files.mergeSort (compare (held .sorting))) 0 ⟨[], 0, 0, 0⟩

theorem string_cons_zero (s : List UInt8) : string (0 :: s) = [] := rfl

theorem string_cons {a : UInt8} (h : a ≠ 0) (s : List UInt8) : string (a :: s) = a :: string s :=
  List.takeWhile_cons_of_pos (by simpa using h)

theorem strcmp_le (s t : List UInt8) : strcmp s t ≤ 0 ↔ string s ≤ string t := by
  fun_induction strcmp s t with
  | case1 => simp
  | case2 b t => exact iff_of_true (by omega) (List.nil_le _)
  | case3 a s =>
    by_cases ha : a = 0
    · rw [ha, string_cons_zero]
      exact iff_of_true (Int.le_refl 0) (List.nil_le _)
    · have hpos : 0 < a.toNat := Nat.pos_of_ne_zero fun h => ha (UInt8.toNat_inj.mp h)
      rw [string_cons ha]
      exact iff_of_false (by omega) (by simp [string])
  | case4 s t => exact iff_of_true (Int.le_refl 0) (by simp [string_cons_zero])
  | case5 a s t h0 ih =>
    rw [ih, string_cons h0, string_cons h0, List.cons_le_cons_iff]
    simp
  | case6 a s b t hne =>
    have hne' : a.toNat ≠ b.toNat := fun h => hne (UInt8.toNat_inj.mp h)
    by_cases ha : a = 0
    · rw [ha, string_cons_zero]
      exact iff_of_true (by simp) (List.nil_le _)
    · have hlt : (a.toNat : Int) - b.toNat ≤ 0 ↔ a < b := by
        rw [UInt8.lt_iff_toNat_lt]
        omega
      rw [hlt, string_cons ha]
      by_cases hb : b = 0
      · rw [hb, string_cons_zero]
        exact iff_of_false (by simp) (by simp)
      · rw [string_cons hb, List.cons_le_cons_iff]
        simp [hne]

theorem compare_trans (held : Nat → List UInt8) (i j k : Nat) (hij : compare held i j = true)
    (hjk : compare held j k = true) : compare held i k = true := by
  rw [compare, decide_eq_true_eq, strcmp_le] at hij hjk ⊢
  exact List.le_trans hij hjk

theorem compare_total (held : Nat → List UInt8) (i j : Nat) :
    (compare held i j || compare held j i) = true := by
  rw [Bool.or_eq_true, compare, compare, decide_eq_true_eq, decide_eq_true_eq, strcmp_le, strcmp_le]
  exact List.le_total _ _

def keptFrom (o : Options) : List (List UInt8) → Nat → List Nat
  | [], _ => []
  | name :: names, i => if kept o name then i :: keptFrom o names (i + 1) else keptFrom o names (i + 1)

theorem length_keptFrom (o : Options) (names : List (List UInt8)) (i : Nat) :
    (keptFrom o names i).length = (names.filter (kept o)).length := by
  induction names generalizing i with
  | nil => rfl
  | cons name names ih =>
    rw [keptFrom]
    cases hk : kept o name <;> simp [hk, ih]

theorem collect_eq (o : Options) (names : List (List UInt8)) (i : Nat) {n : Nat} (hn : n ≤ MAX_FILES) :
    collect o names i n =
      if n + (keptFrom o names i).length ≤ MAX_FILES then some (keptFrom o names i) else none := by
  induction names generalizing i n with
  | nil => exact (if_pos hn).symm
  | cons name names ih =>
    rw [collect, keptFrom]
    cases hk : kept o name with
    | false => exact ih (i + 1) hn
    | true =>
      rw [if_pos rfl, if_pos rfl, List.length_cons]
      by_cases hlt : n < MAX_FILES
      · have hnext : n + 1 ≤ MAX_FILES := hlt
        rw [if_pos hlt, ih (i + 1) hnext, Nat.add_assoc, Nat.add_comm 1]
        split_ifs
        · rfl
        · rfl
      · rw [if_neg hlt, if_neg (by omega)]

theorem map_keptFrom (o : Options) (names : List (List UInt8)) {i : Nat} {f : Nat → List UInt8}
    (hf : ∀ j, f (i + j) = names.getD j []) :
    (keptFrom o names i).map f = names.filter (kept o) := by
  induction names generalizing i with
  | nil => rfl
  | cons name names ih =>
    have hhead : f i = name := hf 0
    have htail := ih (i := i + 1) fun j => (congrArg f (by omega)).trans (hf (j + 1))
    rw [keptFrom]
    cases hk : kept o name <;> simp [hk, hhead, htail]

section

variable {stat : List UInt8 → Option Nat} {held : Read → Nat → List UInt8} {path : List UInt8}

/-- In the turn `p.2` the entry `p.1` is found. -/
def Found (stat : List UInt8 → Option Nat) (held : Read → Nat → List UInt8) (path : List UInt8)
    (p : Nat × Nat) : Bool :=
  (stat (fullPath path (held (.path p.2) p.1))).isSome

theorem printLoop_printed (files : List Nat) (t : Nat) (out : Listing) :
    (printLoop stat held path files t out).printed = out.printed ++
      ((files.zipIdx t).filter (Found stat held path)).map fun p => held (.name p.2) p.1 := by
  induction files generalizing t out with
  | nil => simp [printLoop]
  | cons i files ih =>
    cases hs : stat (fullPath path (held (.path t) i)) with
    | none => simp [printLoop, Found, hs, ih]
    | some mode => simp [printLoop, Found, hs, ih]

theorem printLoop_totals (files : List Nat) (t : Nat) {out : Listing}
    (h : out.files + out.dirs = out.printed.length) :
    (printLoop stat held path files t out).files + (printLoop stat held path files t out).dirs =
      (printLoop stat held path files t out).printed.length := by
  induction files generalizing t out with
  | nil => exact h
  | cons i files ih =>
    cases hs : stat (fullPath path (held (.path t) i)) with
    | none =>
      simp only [printLoop, hs]
      exact ih _ h
    | some mode =>
      simp only [printLoop, hs]
      refine ih _ ?_
      rw [List.length_append, List.length_singleton, ← h]
      dsimp only
      split_ifs <;> omega

theorem fullPath_of_lt {name : List UInt8} (h : path.length + 1 + name.length < PATH_SIZE) :
    fullPath path name = path ++ 47 :: name := by
  rw [fullPath, List.take_of_length_le]
  rw [List.length_append, List.length_cons]
  omega

/-- The kept entries as `qsort` leaves them, each with the turn in which it is printed. -/
def turns (held : Read → Nat → List UInt8) (o : Options) (entries : List (List UInt8)) :
    List (Nat × Nat) :=
  ((keptFrom o entries 0).mergeSort (compare (held .sorting))).zipIdx

def turnNames (held : Read → Nat → List UInt8) (o : Options) (entries : List (List UInt8)) :
    List (List UInt8) :=
  (turns held o entries).map fun p => held (.name p.2) p.1

theorem map_turns (f : Nat → List UInt8) (o : Options) (entries : List (List UInt8)) :
    (turns held o entries).map (fun p => f p.1) =
      ((keptFrom o entries 0).mergeSort (compare (held .sorting))).map f := by
  rw [turns, ← Function.comp_def f Prod.fst, ← List.map_map, List.zipIdx_map_fst]

theorem turns_entries (o : Options) (entries : List (List UInt8)) :
    ((turns held o entries).map fun p => entries.getD p.1 []).Perm (entries.filter (kept o)) := by
  rw [map_turns fun i => entries.getD i [], ← map_keptFrom o entries (i := 0) fun j => by
    rw [Nat.zero_add]]
  exact (List.mergeSort_perm _ _).map _

/-- A complete listing: the kept entries, each once, in order, and totals that add up. -/
structure Listed (o : Options) (entries : List (List UInt8)) (out : Listing) : Prop where
  entries : out.printed.Perm (entries.filter (kept o))
  order : out.printed.Pairwise fun a b => strcmp a b ≤ 0
  totals : out.files + out.dirs = out.printed.length

def Complete (stat : List UInt8 → Option Nat) (held : Read → Nat → List UInt8) (o : Options)
    (path : List UInt8) (entries : List (List UInt8)) : Prop :=
  ∃ out, listDirectory stat held o path entries = some out ∧ Listed o entries out

/-- At each read the storage of a kept entry holds its name. -/
def Intact (held : Read → Nat → List UInt8) (o : Options) (entries : List (List UInt8)) : Prop :=
  ∀ r, ∀ i ∈ keptFrom o entries 0, held r i = entries.getD i []

theorem listDirectory_eq (o : Options) (entries : List (List UInt8)) :
    listDirectory stat held o path entries =
      if (entries.filter (kept o)).length ≤ MAX_FILES then
        some (printLoop stat held path
          ((keptFrom o entries 0).mergeSort (compare (held .sorting))) 0 ⟨[], 0, 0, 0⟩)
      else none := by
  rw [listDirectory, collect_eq o entries 0 (Nat.zero_le _), Nat.zero_add, length_keptFrom]
  split_ifs
  · rfl
  · rfl

theorem listed_iff (o : Options) (entries : List (List UInt8)) :
    Listed o entries (printLoop stat held path
        ((keptFrom o entries 0).mergeSort (compare (held .sorting))) 0 ⟨[], 0, 0, 0⟩) ↔
      (∀ p ∈ turns held o entries, Found stat held path p = true) ∧
      (turnNames held o entries).Perm (entries.filter (kept o)) ∧
      (turnNames held o entries).Pairwise fun a b => strcmp a b ≤ 0 := by
  have hprinted : (printLoop stat held path ((keptFrom o entries 0).mergeSort
      (compare (held .sorting))) 0 ⟨[], 0, 0, 0⟩).printed =
      ((turns held o entries).filter (Found stat held path)).map fun p => held (.name p.2) p.1 :=
    printLoop_printed _ _ _
  have hall : (∀ p ∈ turns held o entries, Found stat held path p = true) →
      ((turns held o entries).filter (Found stat held path)).map (fun p => held (.name p.2) p.1) =
        turnNames held o entries := fun h => by
    rw [List.filter_eq_self.mpr h, turnNames]
  constructor
  · rintro ⟨hentries, horder, -⟩
    -- no name is missing, so `stat` has found all of them
    have hfound : ∀ p ∈ turns held o entries, Found stat held path p = true := by
      rw [← List.length_filter_eq_length_iff, ← List.length_map (fun p => held (.name p.2) p.1),
        ← hprinted, hentries.length_eq, turns, List.length_zipIdx, List.length_mergeSort,
        length_keptFrom]
    rw [hprinted, hall hfound] at hentries horder
    exact ⟨hfound, hentries, horder⟩
  · rintro ⟨hfound, hnames, hsorted⟩
    rw [hall hfound] at hprinted
    exact ⟨hprinted ▸ hnames, hprinted ▸ hsorted, printLoop_totals _ _ rfl⟩

theorem complete_iff (o : Options) (entries : List (List UInt8)) :
    Complete stat held o path entries ↔
      (entries.filter (kept o)).length ≤ MAX_FILES ∧
      (∀ p ∈ turns held o entries, Found stat held path p = true) ∧
      (turnNames held o entries).Perm (entries.filter (kept o)) ∧
      (turnNames held o entries).Pairwise fun a b => strcmp a b ≤ 0 := by
  rw [← listed_iff, Complete, listDirectory_eq]
  split_ifs with hmax
  · simp [hmax]
  · simp [hmax]

section Intact

variable {o : Options} {entries : List (List UInt8)} (h : Intact held o entries)
include h

theorem held_turn {p : Nat × Nat} (hp : p ∈ turns held o entries) (r : Read) :
    held r p.1 = entries.getD p.1 [] :=
  h r p.1 (List.mem_mergeSort.mp (List.fst_mem_of_mem_zipIdx hp))

theorem turnNames_perm : (turnNames held o entries).Perm (entries.filter (kept o)) := by
  rw [turnNames, List.map_congr_left fun p hp => held_turn h hp (.name p.2)]
  exact turns_entries o entries

theorem turnNames_sorted :
    (turnNames held o entries).Pairwise fun a b => strcmp a b ≤ 0 := by
  have hsame : ∀ p ∈ turns held o entries, held (.name p.2) p.1 = held .sorting p.1 := fun p hp =>
    (held_turn h hp _).trans (held_turn h hp _).symm
  rw [turnNames, List.map_congr_left hsame, map_turns (held .sorting), List.pairwise_map]
  refine (List.pairwise_mergeSort (compare_trans _) (compare_total _) _).imp fun {i j} hij => ?_
  simpa [compare] using hij

theorem found_turns_iff (hstat : ∀ name ∈ entries, (stat (path ++ 47 :: name)).isSome = true) :
    (∀ p ∈ turns held o entries, Found stat held path p = true) ↔
      ∀ name ∈ entries.filter (kept o), PATH_SIZE ≤ path.length + 1 + name.length →
        (stat (fullPath path name)).isSome = true := by
  have hfound : ∀ p ∈ turns held o entries,
      Found stat held path p = (stat (fullPath path (entries.getD p.1 []))).isSome := fun p hp => by
    rw [Found, held_turn h hp]
  have hmem : ∀ name, name ∈ (turns held o entries).map (fun p => entries.getD p.1 []) ↔
      name ∈ entries.filter (kept o) := fun _ => (turns_entries o entries).mem_iff
  constructor
  · intro hall name hname _
    obtain ⟨p, hp, rfl⟩ := List.mem_map.mp ((hmem name).mpr hname)
    exact hfound p hp ▸ hall p hp
  · intro hlong p hp
    have hname := (hmem _).mp (List.mem_map_of_mem hp)
    rw [hfound p hp]
    rcases Nat.lt_or_ge (path.length + 1 + (entries.getD p.1 []).length) PATH_SIZE with hlt | hge
    · rw [fullPath_of_lt hlt]
      exact hstat _ (List.mem_of_mem_filter hname)
    · exact hlong _ hname hge

end Intact

end

def manyNames : List (List UInt8) :=
  (List.range (MAX_FILES + 1)).map fun i => [.ofNat (i / 200 + 48), .ofNat (i % 200 + 48)]

theorem nodup_manyNames : manyNames.Nodup := by
  refine List.Nodup.map_on ?_ List.nodup_range
  intro i hi j hj heq
  rw [List.mem_range, MAX_FILES] at hi hj
  rw [List.cons.injEq, List.cons.injEq] at heq
  have hdiv := congrArg UInt8.toNat heq.1
  have hmod := congrArg UInt8.toNat heq.2.1
  rw [UInt8.toNat_ofNat', UInt8.toNat_ofNat'] at hdiv hmod
  omega

end OsProject.CustomLs
