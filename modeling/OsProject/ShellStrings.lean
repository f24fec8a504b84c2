import OsProject.ShellGrammar

/-! `parsecmd` as a whole: the commands that it returns are those of the grammar, and the strings in
them read as their words. -/

namespace OsProject.Shell

def Cmd.words : Cmd → List Word
  | .exec argv => argv
  | .redir cmd r => cmd.words ++ [r.file]
  | .pipe left right | .list left right => left.words ++ right.words
  | .back cmd => cmd.words

section Words

variable {L : Line} {ts : List Tok} {w : Word}

structure IsWord (L : Line) (w : Word) : Prop where
  le : w.q ≤ w.eq
  inside : w.eq ≤ L.es
  chars : ∀ i, w.q ≤ i → i < w.eq → isWordChar (L.char i) = true
  stop : w.eq < L.es → isWordChar (L.char w.eq) = false

theorem isWord_skip {q : Nat} (h : q ≤ L.es) : IsWord L ⟨q, skip L isWordChar q⟩ :=
  ⟨le_skip q, skip_le h, fun _ => of_mem_skip, skip_stops⟩

theorem isWord_of_mem {a : Tok} (n s : Nat) (ha : a ∈ tokensFrom L n s) (hw : a.tok = .word) :
    IsWord L a.word := by
  induction n generalizing s with
  | zero => cases ha
  | succ n ih =>
    rw [tokensFrom_succ] at ha
    split_ifs at ha with hnul
    · cases ha
    · rcases List.mem_cons.mp ha with rfl | ha
      · have hsym : L.char (skip L isSpace s) ∉ symbols := by
          intro hsym
          have hlead := (lexeme_of_lt hnul hsym).1
          simp only at hw
          rw [hw] at hlead
          rw [← hlead] at hsym
          exact absurd hsym (by decide)
        rw [lexeme_word hnul hsym]
        exact isWord_skip (Line.lt_of_char_ne hnul).le
      · exact ih _ ha

theorem words_wrap (c : Cmd) (rs : List Redir) :
    (wrap c rs).words = c.words ++ rs.map Redir.file := by
  induction rs generalizing c with
  | nil => simp [wrap]
  | cons r rs ih =>
    show (wrap (.redir c r) rs).words = _
    rw [ih]
    simp [Cmd.words]

theorem words_back (c : Cmd) (n : Nat) : (Cmd.back^[n] c).words = c.words := by
  induction n generalizing c with
  | zero => rfl
  | succ n ih => exact ih (.back c)

def IsIn (ts : List Tok) (w : Word) : Prop := ∃ a ∈ ts, a.tok = .word ∧ a.word = w

theorem IsIn.mono {us : List Tok} (h : IsIn ts w) (hsub : ts ⊆ us) : IsIn us w := by
  obtain ⟨a, ha, hw⟩ := h
  exact ⟨a, hsub ha, hw⟩

theorem Redirs.isIn {rs : List Redir} (h : Redirs ts rs) (hw : w ∈ rs.map Redir.file) :
    IsIn ts w := by
  induction h with
  | nil => cases hw
  | @cons a v r ts rs hr hv h ih =>
    rcases List.mem_cons.mp hw with rfl | hw
    · refine ⟨v, by simp, hv, ?_⟩
      revert hr
      cases a.tok <;> simp only [redirOf, Option.some.injEq, reduceCtorEq, false_implies] <;>
        rintro rfl <;> rfl
    · exact (ih hw).mono fun b hb => by simp [hb]

theorem Args.isIn {argv : List Word} {rs : List Redir} (h : Args ts argv rs)
    (hw : w ∈ argv ++ rs.map Redir.file) : IsIn ts w := by
  induction h with
  | nil => cases hw
  | @cons v ts us argv rs rs' hv hr h ih =>
    rw [List.map_append, List.cons_append, List.mem_cons, List.mem_append, List.mem_append] at hw
    rcases hw with rfl | hw | hw | hw
    · exact ⟨v, by simp, hv, rfl⟩
    · exact (ih (List.mem_append_left _ hw)).mono fun b hb => by simp [hb]
    · exact (hr.isIn hw).mono fun b hb => by simp [hb]
    · exact (ih (List.mem_append_right _ hw)).mono fun b hb => by simp [hb]

theorem Derives.isIn {N : Nonterminal} {c : Cmd} (h : Derives N ts c) (hw : w ∈ c.words) :
    IsIn ts w := by
  induction h with
  | line h ha ih =>
    rw [words_back] at hw
    exact (ih hw).mono (List.subset_append_left _ _)
  | list h ha hb h' ih ih' =>
    rw [Cmd.words, words_back, List.mem_append] at hw
    rcases hw with hw | hw
    · exact (ih hw).mono (List.subset_append_left _ _)
    · exact (ih' hw).mono fun b hb => by simp [hb]
  | one h ih => exact ih hw
  | pipe h hb h' ih ih' =>
    rcases List.mem_append.mp hw with hw | hw
    · exact (ih hw).mono (List.subset_append_left _ _)
    · exact (ih' hw).mono fun b hb => by simp [hb]
  | block ha h hb hr ih =>
    rw [words_wrap, List.mem_append] at hw
    rcases hw with hw | hw
    · exact (ih hw).mono fun b hb => by simp [hb]
    · exact (hr.isIn hw).mono fun b hb => by simp [hb]
  | exec hr hargs hlen =>
    rw [words_wrap, Cmd.words, List.map_append, List.mem_append, List.mem_append] at hw
    rcases hw with hw | hw | hw
    · exact (hargs.isIn (List.mem_append_left _ hw)).mono (List.subset_append_right _ _)
    · exact (hr.isIn hw).mono (List.subset_append_left _ _)
    · exact (hargs.isIn (List.mem_append_right _ hw)).mono (List.subset_append_right _ _)

end Words

section Cut

variable {L : Line} {c : Cmd} {buf : Nat → Char} {w : Word}

theorem foldl_cut_apply (argv : List Word) (buf : Nat → Char) (i : Nat) :
    argv.foldl (fun buf word => Function.update buf word.eq '\x00') buf i =
      if i ∈ argv.map Word.eq then '\x00' else buf i := by
  induction argv generalizing buf with
  | nil => simp
  | cons v argv ih =>
    rw [List.foldl_cons, ih, Function.update_apply, List.map_cons]
    by_cases hi : i ∈ argv.map Word.eq
    · rw [if_pos hi, if_pos (List.mem_cons_of_mem _ hi)]
    · rw [if_neg hi]
      simp only [List.mem_cons, hi, or_false]

theorem nulterminate_apply (c : Cmd) (buf : Nat → Char) (i : Nat) :
    nulterminate c buf i = if i ∈ c.words.map Word.eq then '\x00' else buf i := by
  induction c generalizing buf with
  | exec argv => exact foldl_cut_apply argv buf i
  | redir c r ih =>
    rw [nulterminate, Function.update_apply, ih]
    simp only [Cmd.words, List.map_append, List.mem_append, List.map_singleton, List.mem_singleton]
    split_ifs <;> tauto
  | pipe left right ihl ihr | list left right ihl ihr =>
    rw [nulterminate, ihr, ihl]
    simp only [Cmd.words, List.map_append, List.mem_append]
    split_ifs <;> tauto
  | back c ih => exact ih buf

/-- The string at `s` is `cs`. -/
def ReadsAs (buf : Nat → Char) (s : Nat) (cs : List Char) : Prop :=
  (∀ i, i < cs.length → cs[i]? = some (buf (s + i))) ∧ buf (s + cs.length) = '\x00' ∧ '\x00' ∉ cs

def Line.text (L : Line) (w : Word) : List Char := (L.chars.drop w.q).take (w.eq - w.q)

theorem Line.text_length (h : IsWord L w) : (L.text w).length = w.eq - w.q := by
  have hle := h.inside
  unfold Line.es at hle
  rw [Line.text, List.length_take, List.length_drop]
  omega

theorem nulterminate_readsAs (hc : ∀ v ∈ c.words, IsWord L v) (hw : w ∈ c.words) :
    ReadsAs (nulterminate c L.char) w.q (L.text w) := by
  have hword := hc w hw
  have hlen := Line.text_length hword
  refine ⟨fun i hi => ?_, ?_, ?_⟩
  · rw [hlen] at hi
    have hle := hword.inside
    have hkeep : nulterminate c L.char (w.q + i) = L.char (w.q + i) := by
      rw [nulterminate_apply, if_neg]
      rintro hmem
      obtain ⟨v, hv, he⟩ := List.mem_map.mp hmem
      have hstop := (hc v hv).stop (by omega)
      rw [he, hword.chars _ (by omega) (by omega)] at hstop
      cases hstop
    unfold Line.es at hle
    rw [hkeep, Line.text, Line.char, List.getElem?_take_of_lt hi, List.getElem?_drop,
      List.getD_eq_getElem _ _ (by omega), List.getElem?_eq_getElem (by omega)]
  · rw [hlen, Nat.add_sub_cancel' hword.le, nulterminate_apply, if_pos (List.mem_map_of_mem hw)]
  · exact fun hmem => L.nonzero (List.mem_of_mem_drop (List.mem_of_mem_take hmem))

end Cut

section Cursor

variable {L : Line}

theorem lexeme_le {q : Nat} (h : q ≤ L.es) : (lexeme L q).2 ≤ L.es := by
  by_cases hnul : L.char q = '\x00'
  · rw [lexeme_of_nul hnul]
    exact h
  have hlt := Line.lt_of_char_ne hnul
  have hskip := skip_le (p := isWordChar) h
  unfold lexeme
  by_cases hgt : L.char (q + 1) = '>'
  · have := Line.lt_of_char_ne (L := L) (s := q + 1) (by simp [hgt])
    split <;> simp_all
    omega
  · split <;> simp_all

abbrev Inside (L : Line) {α : Type} (x : ParseM α) : Prop := Maintains (· ≤ L.es) (fun _ : Panic => True) x

theorem gettoken_inside : Inside L (gettoken L) :=
  fun _ h => skip_le (lexeme_le (skip_le h))

theorem peek_inside (cs : List Char) : Inside L (peek L cs) := fun _ h => skip_le (L := L) h

theorem parseback_inside (n : Nat) (cmd : Cmd) : Inside L (parseback L n cmd) := by
  induction n generalizing cmd with
  | zero => exact .throw trivial
  | succ n ih =>
    exact (peek_inside _).bind fun _ => .ite (gettoken_inside.bind fun _ => ih _) (.pure _)

theorem parseredirs_inside (n : Nat) (rs : List Redir) : Inside L (parseredirs L n rs) := by
  induction n generalizing rs with
  | zero => exact .throw trivial
  | succ n ih =>
    exact (peek_inside _).bind fun _ => .ite (gettoken_inside.bind fun _ =>
      gettoken_inside.bind fun _ => .ite (.throw trivial) (ih _)) (.pure _)

theorem parseargs_inside (n : Nat) (argv : List Word) (rs : List Redir) :
    Inside L (parseargs L n argv rs) := by
  induction n generalizing argv rs with
  | zero => exact .throw trivial
  | succ n ih =>
    exact (peek_inside _).bind fun _ => .ite (.pure _) (gettoken_inside.bind fun _ =>
      .ite (.pure _) (.ite (.throw trivial) (.ite (.throw trivial)
        ((parseredirs_inside n rs).bind fun _ => ih _ _))))

theorem parse_inside (n : Nat) : Inside L (parseline L n) ∧ Inside L (parsepipe L n) ∧
    Inside L (parseexec L n) ∧ Inside L (parseblock L n) := by
  induction n with
  | zero => exact ⟨.throw trivial, .throw trivial, .throw trivial, .throw trivial⟩
  | succ n ih =>
    obtain ⟨hline, hpipe, hexec, hblock⟩ := ih
    refine ⟨?_, ?_, ?_, ?_⟩
    · exact hpipe.bind fun _ => (parseback_inside n _).bind fun _ => (peek_inside _).bind fun _ =>
        .ite (gettoken_inside.bind fun _ => hline.bind fun _ => .pure _) (.pure _)
    · exact hexec.bind fun _ => (peek_inside _).bind fun _ =>
        .ite (gettoken_inside.bind fun _ => hpipe.bind fun _ => .pure _) (.pure _)
    · exact (peek_inside _).bind fun _ => .ite hblock ((parseredirs_inside n []).bind fun _ =>
        (parseargs_inside n [] _).bind fun _ => .pure _)
    · exact (peek_inside _).bind fun _ => .ite (gettoken_inside.bind fun _ => hline.bind fun _ =>
        (peek_inside _).bind fun _ => .ite (gettoken_inside.bind fun _ =>
          (parseredirs_inside n []).bind fun _ => .pure _) (.throw trivial)) (.throw trivial)

theorem tokens_eq_nil_iff {s : Nat} (h : s ≤ L.es) : tokens L s = [] ↔ skip L isSpace s = L.es := by
  have hle := skip_le (p := isSpace) h
  rw [tokens_eq]
  split_ifs with hnul
  · have : ¬ skip L isSpace s < L.es := fun hlt => Line.char_ne_zero hlt hnul
    simp only [true_iff]
    omega
  · have := Line.lt_of_char_ne hnul
    simp only [false_iff]
    omega

end Cursor

/-- The parser ends, it accepts the lines whose tokens the grammar derives, with the command that the
grammar assigns, and after `nulterminate` the strings of the command read as their words. -/
theorem parsecmd_grammar (L : Line) :
    parsecmd L ≠ .error .endless ∧
    (∀ c, (∃ buf, parsecmd L = .ok (c, buf)) ↔ Derives .line (tokens L 0) c) ∧
    ∀ c buf, parsecmd L = .ok (c, buf) → ∀ w ∈ c.words, ReadsAs buf w.q (L.text w) := by
  have hbound : 4 * (tokens L 0).length + 4 ≤ 4 * L.es + 4 := by
    have := tokens_length_le (L := L) 0
    omega
  have hsound := (parse_sound L (4 * L.es + 4)).1 0 hbound
  rw [Takes] at hsound
  cases hrun : parseline L (4 * L.es + 4) 0 with
  | error e =>
    have hcmd : parsecmd L = .error e := by simp [parsecmd, hrun, bind, Except.bind]
    have hne := wp_error hsound hrun
    rw [hcmd]
    refine ⟨by simpa using hne, fun c => ⟨?_, fun hd => ?_⟩, fun c buf h => by cases h⟩
    · rintro ⟨_, h⟩
      cases h
    · have hok := parse_complete hd (List.append_nil _).symm (.inl rfl) hbound
      exact (wp_error hok hrun).elim
  | ok r =>
    obtain ⟨c, s⟩ := r
    obtain ⟨ts, hd, hts⟩ := wp_ok hsound hrun
    have hin := wp_ok ((parse_inside (L := L) (4 * L.es + 4)).1 0 (Nat.zero_le _)) hrun
    have hcmd : parsecmd L = if skip L isSpace s ≠ L.es then .error .leftovers
        else .ok (c, nulterminate c L.char) := by
      simp only [parsecmd, hrun, bind, Except.bind]
      rfl
    rw [hcmd]
    by_cases hend : skip L isSpace s = L.es
    · rw [if_neg (not_not.mpr hend)]
      rw [(tokens_eq_nil_iff hin).mpr hend, List.append_nil] at hts
      rw [← hts] at hd
      refine ⟨by simp, fun c' => ⟨?_, fun hd' => ?_⟩, ?_⟩
      · rintro ⟨buf, h⟩
        cases h
        exact hd
      · have hok := parse_complete hd' (List.append_nil _).symm (.inl rfl) hbound
        obtain ⟨rfl, -⟩ := wp_ok hok hrun
        exact ⟨_, rfl⟩
      · intro c' buf h w hw
        cases h
        refine nulterminate_readsAs (fun v hv => ?_) hw
        obtain ⟨a, ha, hword, rfl⟩ := hd.isIn hv
        exact isWord_of_mem _ 0 ha hword
    · rw [if_pos hend]
      refine ⟨by simp, fun c' => ⟨?_, fun hd' => ?_⟩, fun c' buf h => by cases h⟩
      · rintro ⟨_, h⟩
        cases h
      · have hok := parse_complete hd' (List.append_nil _).symm (.inl rfl) hbound
        exact absurd ((tokens_eq_nil_iff hin).mp (wp_ok hok hrun).2) hend

end OsProject.Shell
