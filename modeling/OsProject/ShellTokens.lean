import OsProject.ShellParse

/-! The tokens of a line: what repeated calls of `gettoken` return. The cursor matters to the parser
only through the tokens that are left. -/

namespace OsProject.Shell

variable {L : Line} {p : Char → Bool} {s q i : Nat}

namespace Line

theorem char_ne_zero (h : s < L.es) : L.char s ≠ '\x00' := by
  unfold es at h
  rw [char, List.getD_eq_getElem _ _ h]
  intro hzero
  exact L.nonzero (hzero ▸ List.getElem_mem h)

theorem char_of_le (h : L.es ≤ s) : L.char s = '\x00' := List.getD_eq_default _ _ h

theorem lt_of_char_ne (h : L.char s ≠ '\x00') : s < L.es := by
  by_contra hge
  exact h (char_of_le (not_lt.mp hge))

end Line

theorem le_scan (n s : Nat) : s ≤ scan L p n s := by
  induction n generalizing s with
  | zero => exact le_rfl
  | succ n ih =>
    rw [scan]
    split_ifs
    · exact (Nat.le_succ s).trans (ih (s + 1))
    · exact le_rfl

theorem scan_le (n s : Nat) : scan L p n s ≤ s + n := by
  induction n generalizing s with
  | zero => exact le_rfl
  | succ n ih =>
    rw [scan]
    split_ifs
    · have := ih (s + 1)
      omega
    · omega

theorem of_mem_scan (n s : Nat) (hlo : s ≤ i) (hhi : i < scan L p n s) : p (L.char i) = true := by
  induction n generalizing s with
  | zero => exact absurd hhi (not_lt.mpr hlo)
  | succ n ih =>
    rw [scan] at hhi
    split_ifs at hhi with hp
    · rcases hlo.eq_or_lt with rfl | hlt
      · exact hp
      · exact ih (s + 1) hlt hhi
    · omega

theorem scan_stops (n s : Nat) (h : scan L p n s < s + n) : p (L.char (scan L p n s)) = false := by
  induction n generalizing s with
  | zero => exact absurd h (lt_irrefl _)
  | succ n ih =>
    rw [scan] at h ⊢
    split_ifs at h ⊢ with hp
    · exact ih (s + 1) (by omega)
    · simpa using hp

theorem le_skip (s : Nat) : s ≤ skip L p s := le_scan _ s

theorem skip_le (h : s ≤ L.es) : skip L p s ≤ L.es := by
  have := scan_le (L := L) (p := p) (L.es - s) s
  unfold skip
  omega

theorem skip_of_le (h : L.es ≤ s) : skip L p s = s := by
  rw [skip, Nat.sub_eq_zero_of_le h, scan]

theorem of_mem_skip (hlo : s ≤ i) (hhi : i < skip L p s) : p (L.char i) = true :=
  of_mem_scan _ s hlo hhi

theorem skip_stops (h : skip L p s < L.es) : p (L.char (skip L p s)) = false := by
  refine scan_stops _ s ?_
  have := le_skip (L := L) (p := p) s
  unfold skip at this h
  omega

theorem skip_of_not (h : p (L.char s) = false) : skip L p s = s := by
  unfold skip
  cases L.es - s with
  | zero => rfl
  | succ n => rw [scan, h]; rfl

theorem skip_skip (s : Nat) : skip L p (skip L p s) = skip L p s := by
  by_cases h : skip L p s < L.es
  · exact skip_of_not (skip_stops h)
  · exact skip_of_le (not_lt.mp h)

structure Tok where
  tok : Token
  word : Word
  deriving DecidableEq, Repr

/-- What `gettoken` returns from `s` on, up to the 0 at the end of the line. -/
def tokensFrom (L : Line) : Nat → Nat → List Tok
  | 0, _ => []
  | n + 1, s =>
    match gettoken L s with
    | .ok ((.nul, _), _) => []
    | .ok ((tok, word), t) => ⟨tok, word⟩ :: tokensFrom L n t
    | .error _ => []

def tokens (L : Line) (s : Nat) : List Tok := tokensFrom L (L.es - s) s

def Token.lead : Token → Char
  | .nul => '\x00'
  | .bar => '|'
  | .lpar => '('
  | .rpar => ')'
  | .semi => ';'
  | .amp => '&'
  | .lt => '<'
  | .gt | .gtgt => '>'
  | .word => 'a'

theorem lexeme_nul : (lexeme L q).1 = .nul ↔ L.char q = '\x00' := by
  unfold lexeme
  by_cases hgt : L.char (q + 1) = '>' <;> split <;> simp_all

theorem lexeme_of_nul (h : L.char q = '\x00') : lexeme L q = (.nul, q) := by
  unfold lexeme
  simp [h]

theorem lexeme_of_lt (h : L.char q ≠ '\x00') (hsym : L.char q ∈ symbols) :
    (lexeme L q).1.lead = L.char q ∧ q < (lexeme L q).2 := by
  unfold lexeme
  by_cases hgt : L.char (q + 1) = '>' <;> split <;> simp_all [Token.lead, symbols]

theorem lexeme_word (h : L.char q ≠ '\x00') (hsym : L.char q ∉ symbols) :
    lexeme L q = (.word, skip L isWordChar q) := by
  unfold lexeme
  split <;> simp_all [symbols]

theorem lexeme_progress (hspace : isSpace (L.char q) = false) (h : L.char q ≠ '\x00') :
    q < (lexeme L q).2 := by
  by_cases hsym : L.char q ∈ symbols
  · exact (lexeme_of_lt h hsym).2
  · rw [lexeme_word h hsym]
    have hword : isWordChar (L.char q) = true := by
      simpa [isWordChar, hsym, isSpace] using hspace
    have hlt := Line.lt_of_char_ne h
    obtain ⟨n, hn⟩ : ∃ n, L.es - q = n + 1 := ⟨L.es - q - 1, by omega⟩
    rw [skip, hn, scan, if_pos hword]
    exact le_scan n (q + 1)

theorem tokensFrom_succ (n s : Nat) : tokensFrom L (n + 1) s =
    if L.char (skip L isSpace s) = '\x00' then []
    else ⟨(lexeme L (skip L isSpace s)).1, ⟨skip L isSpace s, (lexeme L (skip L isSpace s)).2⟩⟩ ::
      tokensFrom L n (skip L isSpace (lexeme L (skip L isSpace s)).2) := by
  rw [tokensFrom]
  have hget : gettoken L s = .ok (((lexeme L (skip L isSpace s)).1,
    ⟨skip L isSpace s, (lexeme L (skip L isSpace s)).2⟩),
      skip L isSpace (lexeme L (skip L isSpace s)).2) := rfl
  rw [hget]
  split_ifs with hnul
  · rw [lexeme_nul.mpr hnul]
  · have hne : (lexeme L (skip L isSpace s)).1 ≠ .nul := fun he => hnul (lexeme_nul.mp he)
    split <;> simp_all

theorem tokensFrom_of_le (h : L.es ≤ s) (n : Nat) : tokensFrom L n s = [] := by
  cases n with
  | zero => rfl
  | succ n => rw [tokensFrom_succ, skip_of_le h, if_pos (Line.char_of_le h)]

theorem space_of_ne (h : L.char (skip L isSpace s) ≠ '\x00') :
    isSpace (L.char (skip L isSpace s)) = false :=
  skip_stops (Line.lt_of_char_ne h)

theorem tokensFrom_congr (n m s : Nat) (hn : L.es - s ≤ n) (hm : L.es - s ≤ m) :
    tokensFrom L n s = tokensFrom L m s := by
  induction n generalizing m s with
  | zero => rw [tokensFrom_of_le (by omega), tokensFrom_of_le (by omega)]
  | succ n ih =>
    cases m with
    | zero => rw [tokensFrom_of_le (by omega), tokensFrom_of_le (by omega)]
    | succ m =>
      rw [tokensFrom_succ, tokensFrom_succ]
      split_ifs with hnul
      · rfl
      · have hlt := lexeme_progress (space_of_ne hnul) hnul
        have hle := le_skip (L := L) (p := isSpace) s
        have hle' := le_skip (L := L) (p := isSpace) (lexeme L (skip L isSpace s)).2
        rw [ih m _ (by omega) (by omega)]

theorem tokens_eq (s : Nat) : tokens L s =
    if L.char (skip L isSpace s) = '\x00' then []
    else ⟨(lexeme L (skip L isSpace s)).1, ⟨skip L isSpace s, (lexeme L (skip L isSpace s)).2⟩⟩ ::
      tokens L (skip L isSpace (lexeme L (skip L isSpace s)).2) := by
  rw [tokens, tokensFrom_congr _ (L.es - s + 1) s le_rfl (Nat.le_succ _), tokensFrom_succ]
  split_ifs with hnul
  · rfl
  · have hlt := lexeme_progress (space_of_ne hnul) hnul
    have hle := le_skip (L := L) (p := isSpace) s
    have hle' := le_skip (L := L) (p := isSpace) (lexeme L (skip L isSpace s)).2
    rw [tokens, tokensFrom_congr (L.es - s) (L.es - skip L isSpace (lexeme L (skip L isSpace s)).2) _
      (by omega) le_rfl]

theorem tokens_skip (s : Nat) : tokens L (skip L isSpace s) = tokens L s := by
  rw [tokens_eq, tokens_eq s, skip_skip]

theorem tokens_length_le (s : Nat) : (tokens L s).length ≤ L.es - s := by
  have hfrom : ∀ n s, (tokensFrom L n s).length ≤ n := by
    intro n
    induction n with
    | zero => exact fun _ => le_rfl
    | succ n ih =>
      intro s
      rw [tokensFrom_succ]
      split_ifs
      · exact Nat.zero_le _
      · exact Nat.succ_le_succ (ih _)
  exact hfrom _ s

section Calls

variable {E : Panic → Prop}

theorem gettoken_spec {Q : Token × Word → Nat → Prop}
    (hnil : tokens L s = [] → ∀ word t, tokens L t = [] → Q (.nul, word) t)
    (hcons : ∀ a ts, tokens L s = a :: ts → a.tok ≠ .nul → ∀ t, tokens L t = ts →
      Q (a.tok, a.word) t) :
    wp (gettoken L) Q E s := by
  show Q ((lexeme L (skip L isSpace s)).1, _) (skip L isSpace (lexeme L (skip L isSpace s)).2)
  have htokens := tokens_eq (L := L) s
  split_ifs at htokens with hnul
  · rw [lexeme_of_nul hnul]
    refine hnil htokens _ _ ?_
    rw [tokens_skip, tokens_skip, htokens]
  · exact hcons _ _ htokens (fun he => hnul (lexeme_nul.mp he)) _ rfl

theorem gettoken_cons {Q : Token × Word → Nat → Prop} {a : Tok} {ts : List Tok}
    (hs : tokens L s = a :: ts) (h : ∀ t, tokens L t = ts → Q (a.tok, a.word) t) :
    wp (gettoken L) Q E s := by
  refine gettoken_spec (fun hnil => ?_) fun b us hb _ => ?_
  · rw [hs] at hnil
    cases hnil
  · rw [hs, List.cons.injEq] at hb
    obtain ⟨rfl, rfl⟩ := hb
    exact h

def leads (cs : List Char) : List Tok → Bool
  | [] => false
  | a :: _ => a.tok.lead ∈ cs

theorem exists_of_leads {cs : List Char} {ts : List Tok} (h : leads cs ts = true) :
    ∃ a us, ts = a :: us ∧ a.tok.lead ∈ cs := by
  cases ts with
  | nil => cases h
  | cons a us => exact ⟨a, us, rfl, by simpa [leads] using h⟩

theorem peek_spec {Q : Bool → Nat → Prop} {cs : List Char} (hcs : cs ⊆ symbols)
    (h : ∀ t, tokens L t = tokens L s → Q (leads cs (tokens L s)) t) : wp (peek L cs) Q E s := by
  show Q (decide (L.char (skip L isSpace s) ≠ '\x00' ∧ L.char (skip L isSpace s) ∈ cs)) _
  have hleads : decide (L.char (skip L isSpace s) ≠ '\x00' ∧ L.char (skip L isSpace s) ∈ cs) =
      leads cs (tokens L s) := by
    rw [tokens_eq]
    split_ifs with hnul
    · simp [leads, hnul]
    · rw [leads]
      by_cases hsym : L.char (skip L isSpace s) ∈ symbols
      · rw [(lexeme_of_lt hnul hsym).1]
        simp [hnul]
      · have ha : ('a' : Char) ∉ cs := fun hmem => absurd (hcs hmem) (by decide)
        have hnot : L.char (skip L isSpace s) ∉ cs := fun hmem => hsym (hcs hmem)
        rw [lexeme_word hnul hsym]
        simp [Token.lead, ha, hnot]
  rw [hleads]
  exact h _ (tokens_skip s)

end Calls

end OsProject.Shell
