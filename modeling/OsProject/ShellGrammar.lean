import OsProject.ShellTokens

/-! The parser accepts what the grammar of the shell derives, and nothing else:

  line := pipe '&'* [';' line]
  pipe := exec ['|' pipe]
  exec := '(' line ')' redir* | redir* (word redir*)*
  redir := ('<' | '>' | '>>') word -/

namespace OsProject.Shell

inductive Redirs : List Tok → List Redir → Prop
  | nil : Redirs [] []
  | cons {a w : Tok} {r : Redir} {ts : List Tok} {rs : List Redir}
      (hr : redirOf a.tok w.word = some r) (hw : w.tok = .word) (h : Redirs ts rs) :
      Redirs (a :: w :: ts) (r :: rs)

inductive Args : List Tok → List Word → List Redir → Prop
  | nil : Args [] [] []
  | cons {w : Tok} {ts us : List Tok} {argv : List Word} {rs rs' : List Redir}
      (hw : w.tok = .word) (hr : Redirs ts rs) (h : Args us argv rs') :
      Args (w :: (ts ++ us)) (w.word :: argv) (rs ++ rs')

inductive Nonterminal
  | line
  | pipe
  | exec

/-- The tokens that a nonterminal derives, with the command that they stand for. -/
inductive Derives : Nonterminal → List Tok → Cmd → Prop
  | line {ts as : List Tok} {c : Cmd} (h : Derives .pipe ts c) (ha : ∀ a ∈ as, a.tok = .amp) :
      Derives .line (ts ++ as) (Cmd.back^[as.length] c)
  | list {ts as us : List Tok} {b : Tok} {c d : Cmd} (h : Derives .pipe ts c)
      (ha : ∀ a ∈ as, a.tok = .amp) (hb : b.tok = .semi) (h' : Derives .line us d) :
      Derives .line (ts ++ (as ++ b :: us)) (.list (Cmd.back^[as.length] c) d)
  | one {ts : List Tok} {c : Cmd} (h : Derives .exec ts c) : Derives .pipe ts c
  | pipe {ts us : List Tok} {b : Tok} {c d : Cmd} (h : Derives .exec ts c) (hb : b.tok = .bar)
      (h' : Derives .pipe us d) : Derives .pipe (ts ++ b :: us) (.pipe c d)
  | block {ts us : List Tok} {a b : Tok} {c : Cmd} {rs : List Redir} (ha : a.tok = .lpar)
      (h : Derives .line ts c) (hb : b.tok = .rpar) (hr : Redirs us rs) :
      Derives .exec (a :: (ts ++ b :: us)) (wrap c rs)
  | exec {ts us : List Tok} {argv : List Word} {rs rs' : List Redir} (hr : Redirs ts rs)
      (h : Args us argv rs') (hargs : argv.length ≤ MAXARGS - 1) :
      Derives .exec (ts ++ us) (wrap (.exec argv) (rs ++ rs'))

theorem Token.eq_of_lead {tok : Token} :
    (tok.lead = '&' → tok = .amp) ∧ (tok.lead = ';' → tok = .semi) ∧ (tok.lead = '|' → tok = .bar) ∧
      (tok.lead = '(' → tok = .lpar) ∧ (tok.lead = ')' → tok = .rpar) := by
  cases tok <;> decide

variable {L : Line} {n s : Nat}

section Sound

theorem parseback_sound {cmd : Cmd} (h : (tokens L s).length < n) :
    wp (parseback L n cmd) (fun c t => ∃ as, (∀ a ∈ as, a.tok = .amp) ∧
      tokens L s = as ++ tokens L t ∧ c = Cmd.back^[as.length] cmd) (· ≠ .endless) s := by
  induction n generalizing s cmd with
  | zero => omega
  | succ n ih =>
    rw [parseback, wp_bind]
    refine peek_spec (by decide) fun t ht => ?_
    rw [wp_ite]
    refine ⟨fun hlead => ?_, fun _ => ⟨[], by simp, ht.symm, rfl⟩⟩
    obtain ⟨a, us, hs, ha⟩ := exists_of_leads hlead
    rw [wp_bind]
    refine gettoken_cons (ht.trans hs) fun v hv => ?_
    rw [hs, List.length_cons] at h
    refine wp_post (ih (by rw [hv]; omega)) ?_
    rintro c w ⟨as, has, htokens, rfl⟩
    refine ⟨a :: as, ?_, ?_, rfl⟩
    · have hamp := Token.eq_of_lead.1 (List.mem_singleton.mp ha)
      exact List.forall_mem_cons.mpr ⟨hamp, has⟩
    · rw [hs, List.cons_append, ← htokens, hv]

theorem parseredirs_sound {rs : List Redir} (h : (tokens L s).length < n) :
    wp (parseredirs L n rs) (fun rs' t => ∃ ts xs, Redirs ts xs ∧ tokens L s = ts ++ tokens L t ∧
      rs' = rs ++ xs) (· ≠ .endless) s := by
  induction n generalizing s rs with
  | zero => omega
  | succ n ih =>
    rw [parseredirs, wp_bind]
    refine peek_spec (by decide) fun t ht => ?_
    rw [wp_ite]
    refine ⟨fun hlead => ?_, fun _ => ⟨[], [], .nil, ht.symm, (List.append_nil rs).symm⟩⟩
    obtain ⟨a, us, hs, ha⟩ := exists_of_leads hlead
    rw [wp_bind]
    refine gettoken_cons (ht.trans hs) fun v hv => ?_
    rw [hs, List.length_cons] at h
    simp only [wp_bind]
    refine gettoken_spec (fun _ _ _ _ => by simp) fun w ts hw _ x hx => ?_
    rw [wp_ite]
    refine ⟨fun _ => by simp, fun hword => ?_⟩
    rw [not_not] at hword
    obtain ⟨r, hr⟩ : ∃ r, redirOf a.tok w.word = some r := by
      revert ha
      cases a.tok <;> simp [Token.lead, redirOf]
    rw [hv] at hw
    rw [hw, List.length_cons] at h
    refine wp_post (ih (by rw [hx]; omega)) ?_
    rintro rs' y ⟨ts', xs, hredirs, htokens, rfl⟩
    refine ⟨a :: w :: ts', r :: xs, .cons hr hword hredirs, ?_, ?_⟩
    · rw [hs, hw, List.cons_append, List.cons_append, ← htokens, hx]
    · rw [hr, Option.toList_some, List.append_assoc, List.singleton_append]

theorem parseargs_sound {argv : List Word} {rs : List Redir} (h : (tokens L s).length < n)
    (hargv : argv.length ≤ MAXARGS - 1) :
    wp (parseargs L n argv rs) (fun r t => ∃ ts ws xs, Args ts ws xs ∧ tokens L s = ts ++ tokens L t ∧
      r = (argv ++ ws, rs ++ xs) ∧ (argv ++ ws).length ≤ MAXARGS - 1) (· ≠ .endless) s := by
  induction n generalizing s argv rs with
  | zero => omega
  | succ n ih =>
    rw [parseargs, wp_bind]
    refine peek_spec (by decide) fun t ht => ?_
    rw [wp_ite]
    refine ⟨fun _ => ⟨[], [], [], .nil, ht.symm, by simp, by simpa using hargv⟩, fun _ => ?_⟩
    rw [wp_bind]
    refine gettoken_spec (fun hnil w v hv => ?_) fun w ts hw hnul v hv => ?_
    · exact ⟨[], [], [], .nil, by rw [← ht, hnil, hv]; rfl, by simp, by simpa using hargv⟩
    rw [ht] at hw
    rw [hw, List.length_cons] at h
    simp only [wp_ite, wp_bind, wp_pure, wp_throw]
    refine ⟨fun he => absurd he hnul, fun _ => ⟨by simp, fun hword => ⟨by simp, fun hmax => ?_⟩⟩⟩
    rw [not_not] at hword
    refine wp_post (parseredirs_sound (by rw [hv]; omega)) ?_
    rintro rs' y ⟨us, xs, hredirs, htokens, rfl⟩
    rw [hv] at htokens
    have hlen : (tokens L y).length ≤ ts.length := by rw [htokens, List.length_append]; omega
    refine wp_post (ih (by omega) ?_) ?_
    · simp only [List.length_append, List.length_singleton]
      omega
    · rintro r z ⟨us', ws, xs', hargs, htokens', rfl, hle⟩
      refine ⟨w :: (us ++ us'), w.word :: ws, xs ++ xs', .cons hword hredirs hargs, ?_, ?_, ?_⟩
      · rw [hw, htokens, htokens', List.cons_append, List.append_assoc]
      · simp
      · simpa using hle

def Takes (L : Line) (N : Nonterminal) (x : ParseM Cmd) (s : Nat) : Prop :=
  wp x (fun c t => ∃ ts, Derives N ts c ∧ tokens L s = ts ++ tokens L t) (· ≠ .endless) s

theorem parseline_step
    (hpipe : ∀ s, 4 * (tokens L s).length + 3 ≤ n → Takes L .pipe (parsepipe L n) s)
    (hline : ∀ s, 4 * (tokens L s).length + 4 ≤ n → Takes L .line (parseline L n) s)
    (h : 4 * (tokens L s).length + 4 ≤ n + 1) : Takes L .line (parseline L (n + 1)) s := by
  rw [Takes, parseline]
  refine wp_seq (hpipe s (by omega)) ?_
  rintro c t ⟨ts, hc, hts⟩
  have hlen : (tokens L t).length ≤ (tokens L s).length := by
    rw [hts, List.length_append]
    omega
  refine wp_seq (parseback_sound (by omega)) ?_
  rintro c' v ⟨as, has, htas, rfl⟩
  rw [wp_bind]
  refine peek_spec (by decide) fun w hw => ?_
  rw [wp_ite]
  refine ⟨fun hlead => ?_, fun _ => ?_⟩
  · obtain ⟨b, us, hv, hb⟩ := exists_of_leads hlead
    have hlen' : us.length + 1 ≤ (tokens L t).length := by
      rw [htas, hv, List.length_append, List.length_cons]
      omega
    rw [wp_bind]
    refine gettoken_cons (hw.trans hv) fun x hx => ?_
    refine wp_seq (hline x (by rw [hx]; omega)) ?_
    rintro d y ⟨us', hd, hus⟩
    refine ⟨_, .list hc has (Token.eq_of_lead.2.1 (List.mem_singleton.mp hb)) hd, ?_⟩
    rw [hts, htas, hv, ← hx, hus]
    simp
  · refine ⟨_, .line hc has, ?_⟩
    rw [hts, htas, hw, List.append_assoc]

theorem parsepipe_step
    (hexec : ∀ s, 4 * (tokens L s).length + 2 ≤ n → Takes L .exec (parseexec L n) s)
    (hpipe : ∀ s, 4 * (tokens L s).length + 3 ≤ n → Takes L .pipe (parsepipe L n) s)
    (h : 4 * (tokens L s).length + 3 ≤ n + 1) : Takes L .pipe (parsepipe L (n + 1)) s := by
  rw [Takes, parsepipe]
  refine wp_seq (hexec s (by omega)) ?_
  rintro c t ⟨ts, hc, hts⟩
  rw [wp_bind]
  refine peek_spec (by decide) fun w hw => ?_
  rw [wp_ite]
  refine ⟨fun hlead => ?_, fun _ => ⟨ts, .one hc, by rw [hts, hw]⟩⟩
  obtain ⟨b, us, hv, hb⟩ := exists_of_leads hlead
  have hlen : us.length + 1 ≤ (tokens L s).length := by
    rw [hts, hv, List.length_append, List.length_cons]
    omega
  rw [wp_bind]
  refine gettoken_cons (hw.trans hv) fun x hx => ?_
  refine wp_seq (hpipe x (by rw [hx]; omega)) ?_
  rintro d y ⟨us', hd, hus⟩
  refine ⟨_, .pipe hc (Token.eq_of_lead.2.2.1 (List.mem_singleton.mp hb)) hd, ?_⟩
  rw [hts, hv, ← hx, hus]
  simp

theorem parseexec_step
    (hblock : ∀ s, 4 * (tokens L s).length + 1 ≤ n → Takes L .exec (parseblock L n) s)
    (h : 4 * (tokens L s).length + 2 ≤ n + 1) : Takes L .exec (parseexec L (n + 1)) s := by
  rw [Takes, parseexec, wp_bind]
  refine peek_spec (by decide) fun t ht => ?_
  rw [wp_ite]
  refine ⟨fun _ => ?_, fun _ => ?_⟩
  · rw [← ht]
    exact hblock t (by rw [ht]; omega)
  · refine wp_seq (parseredirs_sound (by rw [ht]; omega)) ?_
    rintro rs v ⟨ts, xs, hredirs, hts, rfl⟩
    have hlen : (tokens L v).length ≤ (tokens L s).length := by
      rw [← ht, hts, List.length_append]
      omega
    refine wp_seq (parseargs_sound (by omega) (Nat.zero_le _)) ?_
    rintro r w ⟨us, ws, xs', hargs, hus, rfl, hle⟩
    refine ⟨_, .exec hredirs hargs hle, ?_⟩
    rw [← ht, hts, hus, List.append_assoc]

theorem parseblock_step
    (hline : ∀ s, 4 * (tokens L s).length + 4 ≤ n → Takes L .line (parseline L n) s)
    (h : 4 * (tokens L s).length + 1 ≤ n + 1) : Takes L .exec (parseblock L (n + 1)) s := by
  rw [Takes, parseblock, wp_bind]
  refine peek_spec (by decide) fun t ht => ?_
  rw [wp_ite]
  refine ⟨fun hlead => ?_, fun _ => by simp⟩
  obtain ⟨a, us, hs, ha⟩ := exists_of_leads hlead
  rw [hs, List.length_cons] at h
  rw [wp_bind]
  refine gettoken_cons (ht.trans hs) fun v hv => ?_
  refine wp_seq (hline v (by rw [hv]; omega)) ?_
  rintro c w ⟨ts, hc, hts⟩
  rw [wp_bind]
  refine peek_spec (by decide) fun x hx => ?_
  rw [wp_ite]
  refine ⟨fun hlead' => ?_, fun _ => by simp⟩
  obtain ⟨b, us', hw, hb⟩ := exists_of_leads hlead'
  have hlen : us'.length ≤ us.length := by
    rw [← hv, hts, hw, List.length_append, List.length_cons]
    omega
  rw [wp_bind]
  refine gettoken_cons (hx.trans hw) fun y hy => ?_
  refine wp_seq (parseredirs_sound (by rw [hy]; omega)) ?_
  rintro rs z ⟨vs, xs, hredirs, hvs, rfl⟩
  refine ⟨_, .block (Token.eq_of_lead.2.2.2.1 (List.mem_singleton.mp ha)) hc
    (Token.eq_of_lead.2.2.2.2 (List.mem_singleton.mp hb)) hredirs, ?_⟩
  rw [hs, ← hv, hts, hw, ← hy, hvs]
  simp

theorem parse_sound (L : Line) (n : Nat) :
    (∀ s, 4 * (tokens L s).length + 4 ≤ n → Takes L .line (parseline L n) s) ∧
    (∀ s, 4 * (tokens L s).length + 3 ≤ n → Takes L .pipe (parsepipe L n) s) ∧
    (∀ s, 4 * (tokens L s).length + 2 ≤ n → Takes L .exec (parseexec L n) s) ∧
    ∀ s, 4 * (tokens L s).length + 1 ≤ n → Takes L .exec (parseblock L n) s := by
  induction n with
  | zero => refine ⟨?_, ?_, ?_, ?_⟩ <;> intro s h <;> omega
  | succ n ih =>
    obtain ⟨hline, hpipe, hexec, hblock⟩ := ih
    exact ⟨fun s => parseline_step hpipe hline, fun s => parsepipe_step hexec hpipe,
      fun s => parseexec_step hblock, fun s => parseblock_step hline⟩

end Sound

section Complete

def Ends (cs : List Char) (ts : List Tok) : Prop := ts = [] ∨ leads cs ts = true

variable {cs ds : List Char} {ts us rest : List Tok}

theorem Ends.not_leads (h : Ends cs ts) (hds : ∀ c ∈ cs, c ∉ ds) : leads ds ts = false := by
  rcases h with rfl | h
  · rfl
  · obtain ⟨a, us, rfl, ha⟩ := exists_of_leads h
    simpa [leads] using hds _ ha

theorem Ends.mono (h : Ends cs ts) (hds : cs ⊆ ds) : Ends ds ts := by
  rcases h with rfl | h
  · exact .inl rfl
  · obtain ⟨a, us, rfl, ha⟩ := exists_of_leads h
    exact .inr (by simpa [leads] using hds ha)

theorem leads_cons {a : Tok} {tok : Token} (ha : a.tok = tok) :
    leads cs (a :: ts) = decide (tok.lead ∈ cs) := by
  rw [leads, ha]

theorem Args.ends (h : Args ts argv xs) (hrest : Ends cs rest) : Ends ('a' :: cs) (ts ++ rest) := by
  cases h with
  | nil => exact hrest.mono (List.subset_cons_self _ _)
  | cons hw _ _ => exact .inr (by simp [leads_cons hw, Token.lead])

theorem Redirs.ends (h : Redirs ts xs) (hrest : Ends cs rest) :
    Ends ('<' :: '>' :: cs) (ts ++ rest) := by
  cases h with
  | nil => exact hrest.mono fun c hc => by simp [hc]
  | @cons a w r ts rs hr hw _ =>
    refine .inr ?_
    revert hr
    simp only [List.cons_append, leads]
    cases a.tok <;> simp [redirOf, Token.lead]

theorem amps_ends {as : List Tok} (h : ∀ a ∈ as, a.tok = .amp) (hrest : Ends cs rest) :
    Ends ('&' :: cs) (as ++ rest) := by
  cases as with
  | nil => exact hrest.mono (List.subset_cons_self _ _)
  | cons a as => exact .inr (by simp [leads_cons (h a List.mem_cons_self), Token.lead])

theorem parseback_complete {as : List Tok} (has : ∀ a ∈ as, a.tok = .amp) {cmd : Cmd}
    (hs : tokens L s = as ++ rest) (hrest : leads ['&'] rest = false)
    (h : (tokens L s).length < n) :
    wp (parseback L n cmd) (fun c t => c = Cmd.back^[as.length] cmd ∧ tokens L t = rest)
      (fun _ => False) s := by
  induction as generalizing n s cmd with
  | nil =>
    obtain ⟨n, rfl⟩ : ∃ m, n = m + 1 := ⟨n - 1, by omega⟩
    rw [parseback, wp_bind]
    refine peek_spec (by decide) fun t ht => ?_
    rw [hs, List.nil_append, hrest, if_neg (by simp)]
    exact ⟨rfl, by rw [ht, hs, List.nil_append]⟩
  | cons a as ih =>
    obtain ⟨n, rfl⟩ : ∃ m, n = m + 1 := ⟨n - 1, by omega⟩
    obtain ⟨ha, has⟩ := List.forall_mem_cons.mp has
    rw [List.cons_append] at hs
    rw [parseback, wp_bind]
    refine peek_spec (by decide) fun t ht => ?_
    rw [hs, leads_cons ha, if_pos (by decide), wp_bind]
    refine gettoken_cons (ht.trans hs) fun v hv => ?_
    rw [hs, List.length_cons] at h
    exact ih has hv (by rw [hv]; omega)

theorem parseredirs_complete {xs : List Redir} (hx : Redirs ts xs) {rs : List Redir}
    (hs : tokens L s = ts ++ rest) (hrest : leads ['<', '>'] rest = false)
    (h : (tokens L s).length < n) :
    wp (parseredirs L n rs) (fun r t => r = rs ++ xs ∧ tokens L t = rest) (fun _ => False) s := by
  induction hx generalizing n s rs with
  | nil =>
    obtain ⟨n, rfl⟩ : ∃ m, n = m + 1 := ⟨n - 1, by omega⟩
    rw [parseredirs, wp_bind]
    refine peek_spec (by decide) fun t ht => ?_
    rw [hs, List.nil_append, hrest, if_neg (by simp)]
    exact ⟨(List.append_nil rs).symm, by rw [ht, hs, List.nil_append]⟩
  | @cons a w r ts xs hr hw hx ih =>
    obtain ⟨n, rfl⟩ : ∃ m, n = m + 1 := ⟨n - 1, by omega⟩
    rw [List.cons_append, List.cons_append] at hs
    rw [parseredirs, wp_bind]
    refine peek_spec (by decide) fun t ht => ?_
    have hlead : leads ['<', '>'] (tokens L s) = true := by
      rw [hs, leads]
      revert hr
      cases a.tok <;> simp [redirOf, Token.lead]
    rw [hlead, if_pos rfl, wp_bind]
    refine gettoken_cons (ht.trans hs) fun v hv => ?_
    simp only [wp_bind]
    refine gettoken_cons hv fun x hv' => ?_
    rw [if_neg (not_not.mpr hw), hr, Option.toList_some]
    rw [hs, List.length_cons, List.length_cons] at h
    refine wp_post (ih hv' (by rw [hv']; omega)) ?_
    rintro r' y ⟨rfl, hy⟩
    exact ⟨by simp, hy⟩

theorem parseargs_complete {ws : List Word} {xs : List Redir} (hx : Args ts ws xs)
    {argv : List Word} {rs : List Redir} (hs : tokens L s = ts ++ rest)
    (hrest : Ends ['|', ')', '&', ';'] rest) (hargs : (argv ++ ws).length ≤ MAXARGS - 1)
    (h : (tokens L s).length < n) :
    wp (parseargs L n argv rs) (fun r t => r = (argv ++ ws, rs ++ xs) ∧ tokens L t = rest)
      (fun _ => False) s := by
  induction hx generalizing n s argv rs with
  | nil =>
    obtain ⟨n, rfl⟩ : ∃ m, n = m + 1 := ⟨n - 1, by omega⟩
    rw [List.nil_append] at hs
    rw [parseargs, wp_bind]
    refine peek_spec (by decide) fun t ht => ?_
    rw [hs]
    rcases hrest with rfl | hrest
    · rw [leads, if_neg (by simp), wp_bind]
      refine gettoken_spec (fun _ w v hv => ?_) fun a us ha => ?_
      · exact ⟨by simp, hv⟩
      · rw [ht, hs] at ha
        cases ha
    · rw [hrest, if_pos rfl]
      exact ⟨by simp, ht.trans hs⟩
  | @cons w ts us ws xs xs' hw hr hargs' ih =>
    obtain ⟨n, rfl⟩ : ∃ m, n = m + 1 := ⟨n - 1, by omega⟩
    rw [List.cons_append, List.append_assoc] at hs
    rw [hs, List.length_cons, List.length_append] at h
    rw [parseargs, wp_bind]
    refine peek_spec (by decide) fun t ht => ?_
    rw [hs, leads_cons hw, if_neg (by decide), wp_bind]
    refine gettoken_cons (ht.trans hs) fun v hv => ?_
    have hmax : ¬ MAXARGS ≤ argv.length + 1 := by
      simp only [List.length_append, List.length_cons] at hargs
      unfold MAXARGS at hargs ⊢
      omega
    simp only [hw]
    rw [if_neg (by decide), if_neg (by decide), if_neg hmax, wp_bind]
    have hnot : leads ['<', '>'] _ = false := (hargs'.ends hrest).not_leads (by simp)
    refine wp_post (parseredirs_complete hr hv hnot (by rw [hv, List.length_append]; omega)) ?_
    rintro r y ⟨rfl, hy⟩
    refine wp_post (ih hy (by simpa using hargs) (by rw [hy]; omega)) ?_
    rintro r z ⟨rfl, hz⟩
    exact ⟨by simp, hz⟩

def Nonterminal.follow : Nonterminal → List Char
  | .line => [')']
  | .pipe => [')', '&', ';']
  | .exec => ['|', ')', '&', ';']

def parser (L : Line) : Nonterminal → Nat → ParseM Cmd
  | .line => parseline L
  | .pipe => parsepipe L
  | .exec => parseexec L

def Nonterminal.depth : Nonterminal → Nat
  | .line => 4
  | .pipe => 3
  | .exec => 2

theorem parse_complete {N : Nonterminal} {c : Cmd} (hd : Derives N ts c)
    (hs : tokens L s = ts ++ rest) (hrest : Ends N.follow rest)
    (h : 4 * (tokens L s).length + N.depth ≤ n) :
    wp (parser L N n) (fun c' t => c' = c ∧ tokens L t = rest) (fun _ => False) s := by
  obtain ⟨n, rfl⟩ : ∃ m, n = m + 1 := ⟨n - 1, by cases N <;> simp only [Nonterminal.depth] at h <;> omega⟩
  induction hd generalizing n s rest with
  | @line ts as c hd has ih =>
    rw [List.append_assoc] at hs
    have hlen := congrArg List.length hs
    simp only [Nonterminal.depth, List.length_append] at h hlen
    rw [parser, parseline, wp_bind]
    obtain ⟨n, rfl⟩ : ∃ m, n = m + 1 := ⟨n - 1, by omega⟩
    refine wp_post (ih hs ((amps_ends has hrest).mono (by simp [Nonterminal.follow])) n
      (by simp only [Nonterminal.depth]; omega)) ?_
    rintro c' t ⟨rfl, ht⟩
    refine wp_seq (parseback_complete has ht (hrest.not_leads (by simp [Nonterminal.follow]))
      (by rw [ht, List.length_append]; omega)) ?_
    rintro c'' v ⟨rfl, hv⟩
    rw [wp_bind]
    refine peek_spec (by decide) fun w hw => ?_
    rw [hv, hrest.not_leads (by simp [Nonterminal.follow]), if_neg (by simp)]
    exact ⟨rfl, hw.trans hv⟩
  | @list ts as us b c d hd has hb hd' ih ih' =>
    rw [List.append_assoc, List.append_assoc, List.cons_append] at hs
    have hlen := congrArg List.length hs
    simp only [Nonterminal.depth, List.length_append, List.length_cons] at h hlen
    rw [parser, parseline, wp_bind]
    obtain ⟨n, rfl⟩ : ∃ m, n = m + 1 := ⟨n - 1, by omega⟩
    have hsemi : Ends [';'] (b :: (us ++ rest)) := .inr (by simp [leads_cons hb, Token.lead])
    refine wp_post (ih hs ((amps_ends has hsemi).mono (by simp [Nonterminal.follow])) n
      (by simp only [Nonterminal.depth]; omega)) ?_
    rintro c' t ⟨rfl, ht⟩
    refine wp_seq (parseback_complete has ht (hsemi.not_leads (by simp))
      (by rw [ht, List.length_append, List.length_cons, List.length_append]; omega)) ?_
    rintro c'' v ⟨rfl, hv⟩
    rw [wp_bind]
    refine peek_spec (by decide) fun w hw => ?_
    rw [hv, leads_cons hb, if_pos (by decide), wp_bind]
    refine gettoken_cons (hw.trans hv) fun x hx => ?_
    refine wp_seq (ih' hx hrest n (by
      rw [hx, List.length_append]; simp only [Nonterminal.depth]; omega)) ?_
    rintro d' y ⟨rfl, hy⟩
    exact ⟨rfl, hy⟩
  | @one ts c hd ih =>
    simp only [Nonterminal.depth] at h
    rw [parser, parsepipe, wp_bind]
    obtain ⟨n, rfl⟩ : ∃ m, n = m + 1 := ⟨n - 1, by omega⟩
    refine wp_post (ih hs (hrest.mono (by simp [Nonterminal.follow])) n
      (by simp only [Nonterminal.depth]; omega)) ?_
    rintro c' t ⟨rfl, ht⟩
    rw [wp_bind]
    refine peek_spec (by decide) fun w hw => ?_
    rw [ht, hrest.not_leads (by simp [Nonterminal.follow]), if_neg (by simp)]
    exact ⟨rfl, hw.trans ht⟩
  | @pipe ts us b c d hd hb hd' ih ih' =>
    rw [List.append_assoc, List.cons_append] at hs
    have hlen := congrArg List.length hs
    simp only [Nonterminal.depth, List.length_append, List.length_cons] at h hlen
    rw [parser, parsepipe, wp_bind]
    obtain ⟨n, rfl⟩ : ∃ m, n = m + 1 := ⟨n - 1, by omega⟩
    have hbar : Ends Nonterminal.exec.follow (b :: (us ++ rest)) :=
      .inr (by simp [leads_cons hb, Token.lead, Nonterminal.follow])
    refine wp_post (ih hs hbar n (by simp only [Nonterminal.depth]; omega)) ?_
    rintro c' t ⟨rfl, ht⟩
    rw [wp_bind]
    refine peek_spec (by decide) fun w hw => ?_
    rw [ht, leads_cons hb, if_pos (by decide), wp_bind]
    refine gettoken_cons (hw.trans ht) fun x hx => ?_
    refine wp_seq (ih' hx hrest n (by
      rw [hx, List.length_append]; simp only [Nonterminal.depth]; omega)) ?_
    rintro d' y ⟨rfl, hy⟩
    exact ⟨rfl, hy⟩
  | @block ts us a b c rs ha hd hb hr ih =>
    rw [List.cons_append, List.append_assoc, List.cons_append] at hs
    have hlen := congrArg List.length hs
    simp only [Nonterminal.depth, List.length_append, List.length_cons] at h hlen
    rw [parser, parseexec, wp_bind]
    refine peek_spec (by decide) fun t ht => ?_
    rw [hs, leads_cons ha, if_pos (by decide)]
    obtain ⟨n, rfl⟩ : ∃ m, n = m + 1 := ⟨n - 1, by omega⟩
    rw [parseblock, wp_bind]
    refine peek_spec (by decide) fun v hv => ?_
    rw [ht, hs, leads_cons ha, if_pos (by decide), wp_bind]
    refine gettoken_cons (hv.trans (ht.trans hs)) fun x hx => ?_
    rw [wp_bind]
    obtain ⟨n, rfl⟩ : ∃ m, n = m + 1 := ⟨n - 1, by omega⟩
    have hpar : Ends Nonterminal.line.follow (b :: (us ++ rest)) :=
      .inr (by simp [leads_cons hb, Token.lead, Nonterminal.follow])
    refine wp_post (ih hx hpar n (by
      rw [hx]; simp only [Nonterminal.depth, List.length_append, List.length_cons]; omega)) ?_
    rintro c' y ⟨rfl, hy⟩
    rw [wp_bind]
    refine peek_spec (by decide) fun w hw => ?_
    rw [hy, leads_cons hb, if_pos (by decide), wp_bind]
    refine gettoken_cons (hw.trans hy) fun z hz => ?_
    refine wp_seq (parseredirs_complete hr hz (hrest.not_leads (by simp [Nonterminal.follow]))
      (by rw [hz, List.length_append]; omega)) ?_
    rintro rs' u ⟨rfl, hu⟩
    exact ⟨rfl, hu⟩
  | @exec ts us argv rs rs' hr hargs hargv =>
    rw [List.append_assoc] at hs
    have hlen := congrArg List.length hs
    simp only [Nonterminal.depth, List.length_append] at h hlen
    have hafter := hargs.ends hrest
    rw [parser, parseexec, wp_bind]
    refine peek_spec (by decide) fun t ht => ?_
    rw [hs, (hr.ends hafter).not_leads (by simp [Nonterminal.follow]), if_neg (by simp), wp_bind]
    refine wp_post (parseredirs_complete hr (ht.trans hs)
      (hafter.not_leads (by simp [Nonterminal.follow])) (by rw [ht]; omega)) ?_
    rintro r v ⟨rfl, hv⟩
    refine wp_seq (parseargs_complete hargs hv hrest hargv
      (by rw [hv, List.length_append]; omega)) ?_
    rintro r w ⟨rfl, hw⟩
    exact ⟨rfl, hw⟩

end Complete

end OsProject.Shell
