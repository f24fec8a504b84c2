import OsProject.CustomLs
import OsProject.CustomWc

/-! The flags of `custom_wc` and of `custom_ls` against the letters that occur in their arguments. -/

namespace OsProject

def HasLetter (ch : UInt8) (flags : List (List UInt8)) : Prop := ∃ a ∈ flags, ch ∈ a.tail

instance (ch : UInt8) (flags : List (List UInt8)) : Decidable (HasLetter ch flags) :=
  inferInstanceAs (Decidable (∃ a ∈ flags, ch ∈ a.tail))

theorem hasLetter_nil (ch : UInt8) : ¬HasLetter ch [] := by
  rintro ⟨a, ha, -⟩
  cases ha

theorem hasLetter_cons (ch : UInt8) (a : List UInt8) (flags : List (List UInt8)) :
    HasLetter ch (a :: flags) ↔ ch ∈ a.tail ∨ HasLetter ch flags := by
  simp [HasLetter]

namespace CustomLs

theorem foldl_setLetter (s : List UInt8) (o : Options) :
    ((s.foldl setLetter o).l = true ↔ o.l = true ∨ 108 ∈ s) ∧
      ((s.foldl setLetter o).a = true ↔ o.a = true ∨ 97 ∈ s) ∧
      ((s.foldl setLetter o).h = true ↔ o.h = true ∨ 104 ∈ s) := by
  induction s generalizing o with
  | nil => simp
  | cons ch s ih =>
    obtain ⟨hl, ha, hh⟩ := ih (setLetter o ch)
    rw [List.foldl_cons, hl, ha, hh]
    rw [List.mem_cons, List.mem_cons, List.mem_cons, setLetter]
    split_ifs with h1 h2 h3
    · simp [h1]
    · simp [h2]
    · simp [h3]
    · simp [Ne.symm h1, Ne.symm h2, Ne.symm h3]

theorem foldl_readFlags (flags : List (List UInt8)) (o : Options) :
    ((flags.foldl readFlags o).l = true ↔ o.l = true ∨ HasLetter 108 flags) ∧
      ((flags.foldl readFlags o).a = true ↔ o.a = true ∨ HasLetter 97 flags) ∧
      ((flags.foldl readFlags o).h = true ↔ o.h = true ∨ HasLetter 104 flags) := by
  induction flags generalizing o with
  | nil => simp [hasLetter_nil]
  | cons a flags ih =>
    obtain ⟨hl, ha, hh⟩ := ih (readFlags o a)
    obtain ⟨hl', ha', hh'⟩ := foldl_setLetter a.tail o
    rw [List.foldl_cons, hl, ha, hh, readFlags, hl', ha', hh', hasLetter_cons, hasLetter_cons,
      hasLetter_cons, or_assoc, or_assoc, or_assoc]
    exact ⟨Iff.rfl, Iff.rfl, Iff.rfl⟩

end CustomLs

namespace CustomWc

def asked (flags : List (List UInt8)) : Show :=
  if flags = [] then ⟨true, true, true⟩
  else ⟨HasLetter 108 flags, HasLetter 119 flags, HasLetter 99 flags⟩

def letters (arg : List UInt8) : Show := ⟨108 ∈ arg.tail, 119 ∈ arg.tail, 99 ∈ arg.tail⟩

theorem foldl_setLetter (s : List UInt8) (f : Show) :
    s.foldl setLetter f =
      ⟨f.l || decide (108 ∈ s), f.w || decide (119 ∈ s), f.c || decide (99 ∈ s)⟩ := by
  induction s generalizing f with
  | nil => simp
  | cons ch s ih =>
    rw [List.foldl_cons, ih]
    simp only [setLetter, List.mem_cons]
    split_ifs with h1 h2 h3 <;> simp_all [eq_comm]

theorem readFlags_eq (f : Show) (arg : List UInt8) : readFlags f arg = letters arg := by
  rw [readFlags, foldl_setLetter]
  simp [letters]

variable {flags rest : List (List UInt8)}

theorem parse_eq (prog : List UInt8) (hflags : ∀ a ∈ flags, a.head? = some DASH)
    (hrest : ∀ a ∈ rest.head?, a.head? ≠ some DASH) : parse (prog :: (flags ++ rest)) =
      ((flags.getLast?.map letters).getD ⟨true, true, true⟩, 1 + flags.length) := by
  have hread : readFlags = fun _ arg => letters arg :=
    funext fun f => funext fun arg => readFlags_eq f arg
  rw [parse, List.tail_cons, flagLoop_eq hflags hrest, hread, foldl_forget]

theorem letters_le_asked {last : List UInt8} (h : last ∈ flags) :
    ((letters last).l = true → (asked flags).l = true) ∧
      ((letters last).w = true → (asked flags).w = true) ∧
      ((letters last).c = true → (asked flags).c = true) := by
  have hmem : ∀ ch : UInt8, ch ∈ last.tail → HasLetter ch flags := fun ch hch => ⟨last, h, hch⟩
  rw [asked, if_neg (List.ne_nil_of_mem h)]
  simp only [letters, decide_eq_true_eq]
  exact ⟨hmem 108, hmem 119, hmem 99⟩

theorem letters_eq_asked {last : List UInt8} (h : last ∈ flags) :
    letters last = asked flags ↔
      ∀ ch ∈ ([108, 119, 99] : List UInt8), HasLetter ch flags → ch ∈ last.tail := by
  have hmem : ∀ ch : UInt8, ch ∈ last.tail → HasLetter ch flags := fun ch hch => ⟨last, h, hch⟩
  have hone : ∀ ch : UInt8, decide (ch ∈ last.tail) = decide (HasLetter ch flags) ↔
      (HasLetter ch flags → ch ∈ last.tail) := by
    intro ch
    rw [decide_eq_decide]
    exact ⟨Iff.mpr, fun hch => ⟨hmem ch, hch⟩⟩
  rw [asked, if_neg (List.ne_nil_of_mem h), letters, Show.mk.injEq, hone, hone, hone]
  simp

def Show.number (f : Show) : Nat := f.l.toNat + f.w.toNat + f.c.toNat

theorem Show.eq_of_number {f g : Show} (h : f.number = g.number) (hl : f.l = true → g.l = true)
    (hw : f.w = true → g.w = true) (hc : f.c = true → g.c = true) : f = g := by
  obtain ⟨fl, fw, fc⟩ := f
  obtain ⟨gl, gw, gc⟩ := g
  revert fl fw fc gl gw gc
  decide

theorem countFile_nil (f : Show) :
    ∃ out, countFile f [] = some out ∧ out.length = 2 * f.number := by
  refine ⟨_, rfl, ?_⟩
  obtain ⟨l, w, c⟩ := f
  revert l w c
  decide

theorem countFiles_nil (names : List (List UInt8)) :
    ∃ m, ∀ f, ∃ o, countFiles (fun _ => some []) f names = some o ∧
      o.stdout.length = 2 * names.length * f.number + m := by
  induction names with
  | nil => exact ⟨0, fun f => ⟨⟨[], []⟩, rfl, by simp⟩⟩
  | cons name names ih =>
    obtain ⟨m, hm⟩ := ih
    refine ⟨m + name.length + 1, fun f => ?_⟩
    obtain ⟨out, hout, hlen⟩ := countFile_nil f
    obtain ⟨o, ho, holen⟩ := hm f
    refine ⟨⟨out ++ name ++ [NL] ++ o.stdout, o.failed⟩, ?_, ?_⟩
    · simp only [countFiles, hout, ho]
      rfl
    · simp only [List.length_append, List.length_cons, List.length_nil, hlen, holen]
      ring

theorem run_number {argv : List (List UInt8)} {i : Nat} (hi : i ≤ argv.length) {f g : Show}
    (h : run (fun _ => some []) [] argv f i = run (fun _ => some []) [] argv g i) :
    f.number = g.number := by
  rw [run, run] at h
  by_cases hend : i = argv.length
  · obtain ⟨out, hf, hflen⟩ := countFile_nil f
    obtain ⟨out', hg, hglen⟩ := countFile_nil g
    rw [if_pos hend, if_pos hend, hf, hg, Option.map_some, Option.map_some, Option.some_inj] at h
    have hlen := congrArg (fun o => o.stdout.length) h
    simp only [List.length_append, List.length_singleton] at hlen
    omega
  · obtain ⟨m, hm⟩ := countFiles_nil (argv.drop i)
    obtain ⟨o, ho, holen⟩ := hm f
    obtain ⟨o', ho', holen'⟩ := hm g
    rw [if_neg hend, if_neg hend, ho, ho', Option.some_inj] at h
    rw [h, holen'] at holen
    have hpos : 0 < 2 * (argv.drop i).length := by
      rw [List.length_drop]
      omega
    exact (Nat.eq_of_mul_eq_mul_left hpos (by omega)).symm

end CustomWc

/-- `custom_wc` shows the counts whose letters occur in the leading arguments exactly when the last of
these has every such letter; `parse_flags` of `custom_ls` collects the letters of all of them. -/
theorem flags_accumulate_iff (prog : List UInt8) (flags rest : List (List UInt8))
    (hflags : ∀ a ∈ flags, a.head? = some DASH) (hrest : ∀ a ∈ rest.head?, a.head? ≠ some DASH) :
    ((∀ fopen stdin, CustomWc.main fopen stdin (prog :: (flags ++ rest)) =
        CustomWc.run fopen stdin (prog :: (flags ++ rest)) (CustomWc.asked flags) (1 + flags.length)) ↔
      ∀ last ∈ flags.getLast?, ∀ ch ∈ ([108, 119, 99] : List UInt8),
        HasLetter ch flags → ch ∈ last.tail) ∧
    (CustomWc.parse (prog :: (flags ++ rest))).2 = 1 + flags.length ∧
    ∀ o, (CustomLs.parseFlags (prog :: (flags ++ rest)) o).2 = 1 + flags.length ∧
      ((CustomLs.parseFlags (prog :: (flags ++ rest)) o).1.l = true ↔
        o.l = true ∨ HasLetter 108 flags) ∧
      ((CustomLs.parseFlags (prog :: (flags ++ rest)) o).1.a = true ↔
        o.a = true ∨ HasLetter 97 flags) ∧
      ((CustomLs.parseFlags (prog :: (flags ++ rest)) o).1.h = true ↔
        o.h = true ∨ HasLetter 104 flags) := by
  have hparse := CustomWc.parse_eq prog hflags hrest
  refine ⟨?_, by rw [hparse], ?_⟩
  · cases hlast : flags.getLast? with
    | none =>
      rw [List.getLast?_eq_none_iff] at hlast
      refine iff_of_true ?_ (by simp)
      intro fopen stdin
      rw [CustomWc.main, hparse, hlast]
      rfl
    | some last =>
      have hmem := List.mem_of_getLast? hlast
      rw [hlast] at hparse
      constructor
      · intro hall l hl
        rw [← Option.some_inj.mp hl]
        refine (CustomWc.letters_eq_asked hmem).mp ?_
        have hrun := hall (fun _ => some []) []
        rw [CustomWc.main, hparse] at hrun
        obtain ⟨hsubl, hsubw, hsubc⟩ := CustomWc.letters_le_asked hmem
        refine CustomWc.Show.eq_of_number (CustomWc.run_number ?_ hrun) hsubl hsubw hsubc
        simp only [List.length_cons, List.length_append]
        omega
      · intro hcond fopen stdin
        rw [CustomWc.main, hparse, ← (CustomWc.letters_eq_asked hmem).mpr (hcond last rfl)]
        rfl
  · intro o
    rw [CustomLs.parseFlags, List.tail_cons, flagLoop_eq hflags hrest]
    exact ⟨rfl, CustomLs.foldl_readFlags flags o⟩

theorem flags_accumulate_both :
    CustomWc.main (fun _ => none) [] [[119, 99], [45, 108], [45, 119, 108], [102]] =
      CustomWc.run (fun _ => none) [] [[119, 99], [45, 108], [45, 119, 108], [102]]
        ⟨true, true, false⟩ 3 :=
  (flags_accumulate_iff [119, 99] [[45, 108], [45, 119, 108]] [[102]] (by decide) (by decide)).1.mpr
    (by simp [HasLetter]) _ _

theorem wc_separate_flags :
    CustomWc.asked [[45, 108], [45, 119]] = ⟨true, true, false⟩ ∧
      CustomWc.main (fun _ => none) [] [[119, 99], [45, 108], [45, 119]] = some ⟨[48, 32, 10], []⟩ ∧
      CustomWc.run (fun _ => none) [] [[119, 99], [45, 108], [45, 119]] ⟨true, true, false⟩ 3 =
        some ⟨[48, 32, 48, 32, 10], []⟩ := by
  decide

end OsProject
