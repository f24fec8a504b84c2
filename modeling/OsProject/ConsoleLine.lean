import OsProject.Console

/-! The console hands out the committed lines, in order and once. The circular buffer holds the
characters that the editor has not given to a read yet, so every index fact is one about lists. -/

namespace OsProject.Console

/-- How a read in front of the characters `l` ends, and how many of them it passes: after `n`
bytes, after a newline, before a ^D that is passed only if there is nothing else to return, or
because the process was killed while it waited. -/
inductive Stop (l : List UInt8) (rd : Read) : Nat → Prop
  | full (hret : rd.ret = rd.n) (hlen : rd.bytes.length = rd.n) : Stop l rd rd.n
  | line (hret : rd.ret = rd.bytes.length) (hlast : rd.bytes.getLast? = some newline) :
      Stop l rd rd.bytes.length
  | eof (hret : rd.ret = rd.bytes.length) (hlt : rd.bytes.length < rd.n)
      (hnext : l[rd.bytes.length]? = some eof) :
      Stop l rd (if rd.bytes = [] then 1 else rd.bytes.length)
  | killed (hret : rd.ret = -1) (hlt : rd.bytes.length < rd.n) (hline : newline ∉ rd.bytes) :
      Stop l rd rd.bytes.length

/-- The read `rd` in front of the characters `l` passes `k` of them. -/
structure Served (l : List UInt8) (rd : Read) (k : Nat) : Prop where
  bytes : rd.bytes <+: l
  noEof : eof ∉ rd.bytes
  oneLine : newline ∉ rd.bytes.dropLast
  le : rd.bytes.length ≤ rd.n
  stop : Stop l rd k

/-- The reads are served one after the other from `l`, and `rest` is left. -/
def Serves : List UInt8 → List Read → List UInt8 → Prop
  | l, [], rest => rest = l
  | l, rd :: rds, rest => ∃ k, Served l rd k ∧ Serves (l.drop k) rds rest

section Serving

variable {l l' rest : List UInt8} {rd : Read} {rds rds' : List Read} {k : Nat}

theorem Stop.le (h : Stop l rd k) (hb : rd.bytes <+: l) : k ≤ l.length := by
  have hlen := hb.length_le
  cases h with
  | full hret hl => omega
  | line hret hlast => exact hlen
  | eof hret hlt hnext =>
    have hlt' := (List.getElem?_eq_some_iff.mp hnext).1
    split_ifs <;> omega
  | killed hret hlt hline => exact hlen

theorem Served.append (h : Served l rd k) (l' : List UInt8) : Served (l ++ l') rd k := by
  refine ⟨h.bytes.trans (List.prefix_append l l'), h.noEof, h.oneLine, h.le, ?_⟩
  cases h.stop with
  | full hret hlen => exact .full hret hlen
  | line hret hlast => exact .line hret hlast
  | eof hret hlt hnext =>
    refine .eof hret hlt ?_
    rw [List.getElem?_append_left (List.getElem?_eq_some_iff.mp hnext).1]
    exact hnext
  | killed hret hlt hline => exact .killed hret hlt hline

theorem Serves.append (h : Serves l rds rest) (l' : List UInt8) :
    Serves (l ++ l') rds (rest ++ l') := by
  induction rds generalizing l with
  | nil => rw [Serves] at h ⊢; rw [h]
  | cons rd rds ih =>
    obtain ⟨k, hk, hrest⟩ := h
    refine ⟨k, hk.append l', ?_⟩
    rw [List.drop_append_of_le_length (hk.stop.le hk.bytes)]
    exact ih hrest

theorem serves_append : Serves l (rds ++ rds') rest ↔
    ∃ mid, Serves l rds mid ∧ Serves mid rds' rest := by
  induction rds generalizing l with
  | nil => simp [Serves]
  | cons rd rds ih =>
    simp only [List.cons_append, Serves, ih]
    constructor
    · rintro ⟨k, hk, mid, hmid, hrest⟩
      exact ⟨mid, ⟨k, hk, hmid⟩, hrest⟩
    · rintro ⟨mid, ⟨k, hk, hmid⟩, hrest⟩
      exact ⟨k, hk, mid, hmid, hrest⟩

theorem serves_singleton (h : Served l rd k) : Serves l [rd] (l.drop k) := ⟨k, h, rfl⟩

theorem Served.take (h : Served l rd k) : (l.take k).filter (· ≠ eof) = rd.bytes := by
  have hbytes : l.take rd.bytes.length = rd.bytes := (List.prefix_iff_eq_take.mp h.bytes).symm
  have hself : rd.bytes.filter (· ≠ eof) = rd.bytes := by
    rw [List.filter_eq_self]
    intro c hc
    have hne : c ≠ eof := fun he => h.noEof (he ▸ hc)
    simpa using hne
  cases h.stop with
  | full hret hlen => rw [← hlen, hbytes, hself]
  | line hret hlast => rw [hbytes, hself]
  | eof hret hlt hnext =>
    split_ifs with hnil
    · rw [hnil, List.length_nil] at hnext
      cases l with
      | nil => simp at hnext
      | cons c l =>
        have hc : c = eof := by simpa using hnext
        simp [hc, hnil]
    · rw [hbytes, hself]
  | killed hret hlt hline => rw [hbytes, hself]

theorem Serves.bytes (h : Serves l rds rest) :
    ∃ m ≤ l.length, rest = l.drop m ∧
      rds.flatMap Read.bytes = (l.take m).filter (· ≠ eof) := by
  induction rds generalizing l with
  | nil => exact ⟨0, Nat.zero_le _, by rw [Serves] at h; simpa using h, by simp⟩
  | cons rd rds ih =>
    obtain ⟨k, hk, hrest⟩ := h
    obtain ⟨m, hm, hdrop, hflat⟩ := ih hrest
    have hle := hk.stop.le hk.bytes
    rw [List.length_drop] at hm
    refine ⟨k + m, by omega, by rw [hdrop, List.drop_drop], ?_⟩
    rw [List.flatMap_cons, hflat, List.take_add, List.filter_append, hk.take]

/-- The read has returned some bytes, but neither a whole line nor as many as it could. -/
def Read.Short (rd : Read) : Prop :=
  rd.ret ≠ -1 ∧ rd.bytes ≠ [] ∧ rd.bytes.length < rd.n ∧ rd.bytes.getLast? ≠ some newline

instance (rd : Read) : Decidable rd.Short :=
  inferInstanceAs (Decidable (rd.ret ≠ -1 ∧ rd.bytes ≠ [] ∧ rd.bytes.length < rd.n ∧
    rd.bytes.getLast? ≠ some newline))

theorem Served.short (h : Served l rd k) (hshort : rd.Short) : (l.drop k)[0]? = some eof := by
  obtain ⟨hret, hne, hlt, hlast⟩ := hshort
  cases h.stop with
  | full _ hlen => omega
  | line _ hl => exact absurd hl hlast
  | eof _ _ hnext => rwa [if_neg hne, List.getElem?_drop, Nat.add_zero]
  | killed hk _ _ => exact absurd hk hret

end Serving

section Buffer

variable {c : Cons} {u l : List UInt8} {x : UInt8}

structure Holds (c : Cons) (u l : List UInt8) : Prop where
  chars : window INPUT_BUF_SIZE c.buf c.r.toNat (c.e - c.r).toNat = u ++ l
  mark : (c.w - c.r).toNat = u.length
  room : u.length + l.length ≤ INPUT_BUF_SIZE

theorem Holds.filled (h : Holds c u l) : (c.e - c.r).toNat = u.length + l.length := by
  have hlen := congrArg List.length h.chars
  rwa [window_length, List.length_append] at hlen

theorem Holds.edited (h : Holds c u l) : (c.e - c.w).toNat = l.length := by
  have hfilled := h.filled
  have hmark := h.mark
  have hroom := h.room
  have hdiff : c.e - c.w = (c.e - c.r) - (c.w - c.r) := by grind
  rw [hdiff, UInt32.toNat_sub_of_le]
  · omega
  · rw [UInt32.le_iff_toNat_le]
    omega

theorem Holds.e_ne_w (h : Holds c u l) : c.e ≠ c.w ↔ l ≠ [] := by
  have hlen := h.edited
  rw [not_iff_not, ← List.length_eq_zero_iff, ← hlen]
  constructor
  · intro he
    rw [he, UInt32.sub_self]
    rfl
  · intro hz
    have hsub : c.e - c.w = 0 := UInt32.toNat_inj.mp hz
    grind

theorem Holds.r_eq_w (h : Holds c u l) : c.r = c.w ↔ u = [] := by
  have hmark := h.mark
  rw [← List.length_eq_zero_iff, ← hmark]
  constructor
  · intro he
    rw [he, UInt32.sub_self]
    rfl
  · intro hz
    have hsub : c.w - c.r = 0 := UInt32.toNat_inj.mp hz
    grind

theorem index_cell (r i : UInt32) :
    (r.toNat + (i - r).toNat) % INPUT_BUF_SIZE = i.toNat % INPUT_BUF_SIZE := by
  have hr := r.toNat_lt
  have hi := i.toNat_lt
  rw [UInt32.toNat_sub]
  unfold INPUT_BUF_SIZE
  omega

theorem Holds.erase (h : Holds c u (l ++ [x])) :
    Holds c.erase u l ∧ c.buf ((c.e - 1).toNat % INPUT_BUF_SIZE) = x := by
  have hfilled := h.filled
  have hroom := h.room
  rw [List.length_append, List.length_singleton] at hfilled hroom
  have hlen : (c.e - 1 - c.r).toNat = u.length + l.length := by
    have hsub : c.e - 1 - c.r = (c.e - c.r) - 1 := by grind
    rw [hsub, UInt32.toNat_sub_of_le]
    · rw [hfilled, UInt32.toNat_one]
      omega
    · rw [UInt32.le_iff_toNat_le, hfilled, UInt32.toNat_one]
      omega
  have hchars := h.chars
  rw [hfilled, ← Nat.add_assoc, window_succ, ← hlen, index_cell, ← List.append_assoc] at hchars
  obtain ⟨hinit, hlast⟩ := List.append_inj' hchars rfl
  exact ⟨⟨hinit, h.mark, by omega⟩, by simpa using hlast⟩

theorem Holds.killLine (h : Holds c u l) (hl : newline ∉ l) :
    Holds (Cons.killLine l.length c) u [] := by
  induction l using List.reverseRecOn generalizing c with
  | nil => exact h
  | append_singleton l x ih =>
    obtain ⟨herase, hx⟩ := h.erase
    have hne : x ≠ newline := fun he => hl (by simp [he])
    have hgo : c.e ≠ c.w ∧ c.buf ((c.e - 1).toNat % INPUT_BUF_SIZE) ≠ newline :=
      ⟨h.e_ne_w.mpr (by simp), by rwa [hx]⟩
    rw [List.length_append, List.length_singleton, Cons.killLine, if_pos hgo]
    exact ih herase fun hin => hl (List.mem_append_left _ hin)

theorem Holds.store (h : Holds c u l) (hroom : u.length + l.length < INPUT_BUF_SIZE) :
    Holds (c.store x) u (l ++ [x]) := by
  have hfilled := h.filled
  have hlen : (c.e + 1 - c.r).toNat = (c.e - c.r).toNat + 1 := by
    have hadd : c.e + 1 - c.r = (c.e - c.r) + 1 := by grind
    have hsize : INPUT_BUF_SIZE = 128 := rfl
    rw [hadd, UInt32.toNat_add, hfilled, UInt32.toNat_one]
    omega
  refine ⟨?_, h.mark, ?_⟩
  · show window INPUT_BUF_SIZE (Function.update c.buf (c.e.toNat % INPUT_BUF_SIZE) x) c.r.toNat
      (c.e + 1 - c.r).toNat = u ++ (l ++ [x])
    rw [hlen, ← index_cell c.r c.e, window_push (by omega), h.chars, List.append_assoc]
  · rw [List.length_append, List.length_singleton]
    omega

theorem Holds.commit (h : Holds c u l) : Holds { c with w := c.e } (u ++ l) [] := by
  refine ⟨by rw [List.append_nil]; exact h.chars, ?_, ?_⟩
  · rw [List.length_append]
    exact h.filled
  · rw [List.length_append]
    exact h.room

theorem Holds.take (h : Holds c (x :: u) l) :
    c.front = x ∧ Holds { c with r := c.r + 1 } u l := by
  have hfilled := h.filled
  have hmark := h.mark
  have hroom := h.room
  have hsize : INPUT_BUF_SIZE = 128 := rfl
  rw [List.length_cons] at hfilled hmark hroom
  have hstep : ∀ i : UInt32, 0 < (i - c.r).toNat → (i - (c.r + 1)).toNat + 1 = (i - c.r).toNat := by
    intro i hi
    have hsub : i - (c.r + 1) = (i - c.r) - 1 := by grind
    rw [hsub, UInt32.toNat_sub_of_le, UInt32.toNat_one]
    · omega
    · rw [UInt32.le_iff_toNat_le, UInt32.toNat_one]
      omega
  have hw := hstep c.w (by omega)
  have he := hstep c.e (by omega)
  have hchars := h.chars
  rw [← he, window_cons, List.cons_append] at hchars
  obtain ⟨hfront, hrest⟩ := List.cons.inj hchars
  refine ⟨hfront, ?_, by dsimp only; omega, by omega⟩
  rw [← hrest]
  refine window_congr ?_
  have hr := c.r.toNat_lt
  rw [UInt32.toNat_add, UInt32.toNat_one, hsize]
  omega

end Buffer

section Reading

def Pending (reader : Option Reader) (rest u : List UInt8) : Prop :=
  match reader with
  | none => rest = u
  | some rd => rest = rd.got ++ u ∧ eof ∉ rd.got ∧ newline ∉ rd.got ∧
      rd.got.length + rd.n = rd.target

def TurnOk (rest u : List UInt8) (target k : Nat) : Turn → Prop
  | .sleeps rd => rd.target = target ∧ k = u.length ∧ Pending (some rd) rest []
  | .returns ret bytes => ∃ m, Served rest ⟨target, ret, bytes⟩ m ∧ rest.drop m = u.drop k

variable {killed : Bool} {copyout : Nat → Bool} {target n : Nat} {got : List UInt8} {c : Cons}
  {u l : List UInt8}

theorem readLoop_spec (killed : Bool) (hcopy : ∀ i, copyout i = true) (hc : Holds c u l)
    (hgot : Pending (some ⟨target, n, got⟩) (got ++ u) u) :
    ∃ k ≤ u.length,
      Holds (readLoop killed copyout target n got c).2 (u.drop k) l ∧
      ((readLoop killed copyout target n got c).2.r - c.r).toNat = k ∧
      TurnOk (got ++ u) u target k (readLoop killed copyout target n got c).1 := by
  induction n generalizing c u got with
  | zero =>
    obtain ⟨-, heof, hline, hlen⟩ := hgot
    refine ⟨0, Nat.zero_le _, hc, by rw [readLoop, UInt32.sub_self]; rfl, target, ?_, ?_⟩
    · refine ⟨List.prefix_append got u, heof, fun hin => hline (List.dropLast_subset _ hin),
        by dsimp only at hlen ⊢; omega, .full rfl hlen⟩
    · dsimp only at hlen
      rw [← hlen, Nat.add_zero, List.drop_left]
      rfl
  | succ n ih =>
    obtain ⟨-, heof, hline, hlen⟩ := hgot
    dsimp only at heof hline hlen
    have hpre : got <+: got ++ u := List.prefix_append got u
    have hone : newline ∉ got.dropLast := fun hin => hline (List.dropLast_subset _ hin)
    rw [readLoop]
    cases u with
    | nil =>
      rw [if_pos (hc.r_eq_w.mpr rfl)]
      split_ifs with hkilled
      · refine ⟨0, le_rfl, hc, by rw [UInt32.sub_self]; rfl, got.length, ?_, ?_⟩
        · exact ⟨hpre, heof, hone, by dsimp only; omega,
            .killed rfl (by dsimp only; omega) hline⟩
        · rw [List.drop_left]
          rfl
      · exact ⟨0, le_rfl, hc, by rw [UInt32.sub_self]; rfl, rfl, rfl, rfl, heof, hline, hlen⟩
    | cons x u =>
      rw [if_neg fun he => by simpa using hc.r_eq_w.mp he]
      obtain ⟨hfront, htake⟩ := hc.take
      have hnext : (got ++ x :: u)[got.length]? = some x := by simp
      simp only [hfront, hcopy, Bool.true_eq_false, if_false]
      split_ifs with hx hlt hnl
      · -- the ^D goes back in front of the next read
        have hne : got ≠ [] := fun he => by simp [he] at hlen; omega
        have hback : c.r + 1 - 1 = c.r := by grind
        refine ⟨0, Nat.zero_le _, ?_, ?_, got.length, ?_, ?_⟩
        · rw [hback]
          exact hc
        · dsimp only
          rw [hback, UInt32.sub_self]
          rfl
        · refine ⟨hpre, heof, hone, by dsimp only; omega, ?_⟩
          have hstop : Stop (got ++ x :: u) ⟨target, target - (n + 1), got⟩
              (if got = [] then 1 else got.length) :=
            .eof (by dsimp only; omega) (by dsimp only; omega) (hx ▸ hnext)
          rwa [if_neg hne] at hstop
        · rw [List.drop_left]
          rfl
      · have hnil : got = [] := List.length_eq_zero_iff.mp (by omega)
        subst hnil
        refine ⟨1, by simp, htake, ?_, 1, ?_, rfl⟩
        · have hone : c.r + 1 - c.r = 1 := by grind
          dsimp only
          rw [hone]
          rfl
        · refine ⟨List.nil_prefix, by simp, by simp, by dsimp only; omega, ?_⟩
          rw [List.length_nil] at hlen
          exact .eof (by simp only [List.length_nil]; omega) (by simp only [List.length_nil]; omega)
            (by simp [hx])
      · have hone : c.r + 1 - c.r = 1 := by grind
        have hbytes : (got ++ [x]).length = got.length + 1 := by simp
        refine ⟨1, by simp, htake, by dsimp only; rw [hone]; rfl, (got ++ [x]).length, ?_, ?_⟩
        · refine ⟨?_, ?_, ?_, by dsimp only; omega, .line (by dsimp only; omega) (by simp [hnl])⟩
          · exact ⟨u, by simp⟩
          · simpa [heof] using fun he => hx he.symm
          · simpa using hline
        · have hsplit : got ++ x :: u = (got ++ [x]) ++ u := by simp
          rw [hsplit, List.drop_left]
          rfl
      · have hsplit : got ++ x :: u = (got ++ [x]) ++ u := by simp
        have hgot : Pending (some ⟨target, n, got ++ [x]⟩) ((got ++ [x]) ++ u) u :=
          ⟨rfl, by simpa [heof] using fun he => hx he.symm,
            by simpa [hline] using fun he => hnl he.symm, by simp; omega⟩
        obtain ⟨k, hk, hholds, hr, hturn⟩ := ih htake hgot
        refine ⟨k + 1, by simpa using hk, hholds, ?_, ?_⟩
        · have hroom := hc.room
          have hsize : INPUT_BUF_SIZE = 128 := rfl
          rw [List.length_cons] at hroom
          generalize (readLoop killed copyout target n (got ++ [x]) { c with r := c.r + 1 }).2.r = r
            at hr ⊢
          have hadd : r - c.r = (r - (c.r + 1)) + 1 := by grind
          dsimp only at hr
          rw [hadd, UInt32.toNat_add, hr, UInt32.toNat_one]
          omega
        · rw [hsplit]
          generalize (readLoop killed copyout target n (got ++ [x]) { c with r := c.r + 1 }).1 = t
            at hturn ⊢
          cases t with
          | sleeps rd => exact ⟨hturn.1, by rw [hturn.2.1, List.length_cons], hturn.2.2⟩
          | returns ret bytes => exact hturn

theorem readLoop_eof (killed : Bool) (copyout : Nat → Bool) (n : Nat) (hc : Holds c u l)
    (hu : u[0]? = some eof) : (readLoop killed copyout n n [] c).1 = .returns 0 [] := by
  cases u with
  | nil => simp at hu
  | cons x u =>
    have hx : x = eof := by simpa using hu
    cases n with
    | zero => rfl
    | succ n =>
      rw [readLoop, if_neg fun he => by simpa using hc.r_eq_w.mp he]
      simp only [hc.take.1, hx, if_true]
      simp

end Reading

section Editing

variable {E : Editor} {c : UInt8}

def Editor.kept (E : Editor) : List (Nat × UInt8) := E.erased ++ E.committed ++ E.line

structure Editor.Ok (E : Editor) : Prop where
  numbered : (E.kept.map Prod.fst).Nodup
  below : ∀ x ∈ E.kept, x.1 < E.typed
  plain : newline ∉ E.line.map Prod.snd
  taken : E.taken ≤ E.committed.length

theorem Editor.Ok.moved {F : Editor} (h : E.Ok) (htyped : F.typed = E.typed + 1)
    (hkept : F.kept.Perm E.kept ∨ ∃ c, F.kept.Perm (E.kept ++ [(E.typed, c)]))
    (hplain : newline ∉ F.line.map Prod.snd) (htaken : F.taken ≤ F.committed.length) : F.Ok := by
  rcases hkept with hperm | ⟨c, hperm⟩
  · refine ⟨(hperm.map Prod.fst).nodup_iff.mpr h.numbered, fun x hx => ?_, hplain, htaken⟩
    have hlt := h.below x (hperm.mem_iff.mp hx)
    omega
  · refine ⟨?_, ?_, hplain, htaken⟩
    · rw [(hperm.map Prod.fst).nodup_iff, List.map_append, List.map_singleton, List.nodup_append]
      refine ⟨h.numbered, List.nodup_singleton _, ?_⟩
      rintro _ ha _ hb rfl
      obtain ⟨x, hx, rfl⟩ := List.mem_map.mp ha
      have hlt := h.below x hx
      rw [List.mem_singleton.mp hb] at hlt
      exact lt_irrefl _ hlt
    · intro x hx
      rcases List.mem_append.mp (hperm.mem_iff.mp hx) with hin | hin
      · have hlt := h.below x hin
        omega
      · rw [List.mem_singleton.mp hin, htyped]
        exact Nat.lt_succ_self _

theorem Editor.add_committed (E : Editor) (c : UInt8) : E.committed <+: (E.add c).committed := by
  unfold Editor.add
  dsimp only
  split_ifs
  · exact List.prefix_append _ _
  · exact List.prefix_rfl

theorem Editor.input_committed (E : Editor) (c : UInt8) : E.committed <+: (E.input c).committed := by
  unfold Editor.input
  split_ifs <;> first | exact List.prefix_rfl | exact E.add_committed _

@[simp] theorem Editor.add_taken (E : Editor) (c : UInt8) : (E.add c).taken = E.taken := by
  unfold Editor.add
  dsimp only
  split_ifs <;> rfl

@[simp] theorem Editor.input_taken (E : Editor) (c : UInt8) : (E.input c).taken = E.taken := by
  unfold Editor.input
  split_ifs <;> first | rfl | exact E.add_taken _

theorem Editor.Ok.add (h : E.Ok) (c : UInt8) : (E.add c).Ok := by
  have hkept : (E.add c).kept = E.kept ++ [(E.typed, c)] := by
    unfold Editor.add Editor.kept
    dsimp only
    split_ifs <;> simp
  have htyped : (E.add c).typed = E.typed + 1 := by
    unfold Editor.add
    dsimp only
    split_ifs <;> rfl
  refine h.moved htyped (.inr ⟨c, by rw [hkept]⟩) ?_ ?_
  · unfold Editor.add
    dsimp only
    split_ifs with hcommit
    · simp
    · have hplain := h.plain
      have hne : c ≠ newline := fun he => hcommit (.inl he)
      simpa [Ne.symm hne] using hplain
  · rw [E.add_taken]
    exact h.taken.trans (E.add_committed c).length_le

theorem Editor.Ok.input (h : E.Ok) (c : UInt8) : (E.input c).Ok := by
  unfold Editor.input
  split_ifs with hp hu hh hstore hcr
  · exact h.moved rfl (.inl (List.Perm.refl _)) h.plain h.taken
  · have hperm : ((E.erased ++ E.line) ++ E.committed ++ []).Perm E.kept := by
      rw [List.append_nil, List.append_assoc, Editor.kept, List.append_assoc]
      exact List.perm_append_comm.append_left _
    exact h.moved rfl (.inl hperm) (by simp) h.taken
  · have hperm : ((E.erased ++ E.line.getLast?.toList) ++ E.committed ++ E.line.dropLast).Perm
        E.kept := by
      rw [Editor.kept, List.append_assoc, List.append_assoc, List.append_assoc]
      refine List.Perm.append_left _ ?_
      rw [← List.append_assoc]
      refine (List.perm_append_comm.append_right _).trans ?_
      rw [List.append_assoc]
      refine List.Perm.append_left _ ?_
      cases hl : E.line using List.reverseRecOn with
      | nil => simp
      | append_singleton l x => simpa using (List.perm_append_singleton x l).symm
    refine h.moved rfl (.inl hperm) (fun hin => h.plain ?_) h.taken
    rw [List.map_dropLast] at hin
    exact List.dropLast_subset _ hin
  · exact h.add _
  · exact h.add _
  · exact h.moved rfl (.inl (List.Perm.refl _)) h.plain h.taken

end Editing

/-- What the console keeps: the buffer holds what the editor has for the reads and in the line, and
the reads have got what was committed. -/
structure Inv (s : System) : Prop where
  holds : Holds s.cons (s.editor.unread.map Prod.snd) (s.editor.line.map Prod.snd)
  editor : s.editor.Ok
  served : ∃ rest, Serves (s.editor.committed.map Prod.snd) s.reads rest ∧
    Pending s.reader rest (s.editor.unread.map Prod.snd)
  short : ∀ rd ∈ s.reads.getLast?, rd.Short →
    s.reader = none ∧ (s.editor.unread.map Prod.snd)[0]? = some eof
  chain : s.reads.IsChain fun a b => a.Short → b.ret = 0 ∧ b.bytes = []

def Event.Copies : Event → Prop
  | .consoleintr _ => True
  | .consoleread _ _ copyout | .resume _ copyout => ∀ i, copyout i = true

section Steps

variable {s : System}

theorem Holds.add {cons : Cons} {E : Editor}
    (h : Holds cons (E.unread.map Prod.snd) (E.line.map Prod.snd)) (hok : E.Ok)
    (hroom : E.unread.length + E.line.length < INPUT_BUF_SIZE) (c : UInt8) :
    Holds (if c = newline ∨ c = eof ∨
        ((cons.store c).e - (cons.store c).r).toNat = INPUT_BUF_SIZE then
        { cons.store c with w := (cons.store c).e } else cons.store c)
      ((E.add c).unread.map Prod.snd) ((E.add c).line.map Prod.snd) := by
  have hstore :
      Holds (cons.store c) (E.unread.map Prod.snd) ((E.line ++ [(E.typed, c)]).map Prod.snd) := by
    rw [List.map_append]
    exact h.store (by simpa using hroom)
  have hfilled := hstore.filled
  rw [List.length_map, List.length_map] at hfilled
  rw [hfilled, Editor.add]
  dsimp only
  split_ifs with hcommit
  · rw [Editor.unread, List.drop_append_of_le_length hok.taken, List.map_append]
    exact hstore.commit
  · exact hstore

theorem Holds.consoleintr {cons : Cons} {E : Editor}
    (h : Holds cons (E.unread.map Prod.snd) (E.line.map Prod.snd)) (hok : E.Ok) (c : UInt8) :
    Holds (cons.consoleintr c) ((E.input c).unread.map Prod.snd)
      ((E.input c).line.map Prod.snd) := by
  have hfilled := h.filled
  rw [List.length_map, List.length_map] at hfilled
  unfold Cons.consoleintr Editor.input
  rw [hfilled]
  split_ifs with hp hu hh hne hroom hcr
  · exact h
  · have hkill := h.killLine hok.plain
    rwa [← h.edited] at hkill
  · have hline : E.line ≠ [] := fun he => by simpa [he] using h.e_ne_w.mp hne
    have hlast : Holds cons (E.unread.map Prod.snd)
        (E.line.dropLast.map Prod.snd ++ [(E.line.getLast hline).2]) := by
      rwa [← List.map_singleton, ← List.map_append, List.dropLast_append_getLast]
    exact hlast.erase.1
  · have hline : E.line = [] := by
      by_contra hl
      exact hne (h.e_ne_w.mpr (by simpa using hl))
    show Holds cons (E.unread.map Prod.snd) (E.line.dropLast.map Prod.snd)
    rw [hline] at h ⊢
    exact h
  · exact h.add hok hroom.2 _
  · exact h.add hok hroom.2 _
  · exact h

theorem Inv.intr (h : Inv s) (c : UInt8) : Inv (consoleStep s (.consoleintr c)) := by
  obtain ⟨new, hnew⟩ := s.editor.input_committed c
  have hunread : (s.editor.input c).unread = s.editor.unread ++ new := by
    rw [Editor.unread, s.editor.input_taken, ← hnew,
      List.drop_append_of_le_length h.editor.taken]
    rfl
  refine ⟨h.holds.consoleintr h.editor c, h.editor.input c, ?_, fun rd hrd hshort => ?_, h.chain⟩
  · obtain ⟨rest, hserves, hpending⟩ := h.served
    refine ⟨rest ++ new.map Prod.snd, ?_, ?_⟩
    · show Serves ((s.editor.input c).committed.map Prod.snd) s.reads _
      rw [← hnew, List.map_append]
      exact hserves.append _
    · show Pending s.reader _ ((s.editor.input c).unread.map Prod.snd)
      rw [hunread, List.map_append]
      cases hreader : s.reader with
      | none =>
        rw [hreader] at hpending
        exact congrArg (· ++ new.map Prod.snd) hpending
      | some rd =>
        rw [hreader] at hpending
        exact ⟨by rw [hpending.1, List.append_assoc], hpending.2⟩
  · obtain ⟨hnone, heof⟩ := h.short rd hrd hshort
    refine ⟨hnone, ?_⟩
    show ((s.editor.input c).unread.map Prod.snd)[0]? = some eof
    rw [hunread, List.map_append, List.getElem?_append_left (List.getElem?_eq_some_iff.mp heof).1]
    exact heof

theorem Inv.turn {rd : Reader} {killed : Bool} {copyout : Nat → Bool} {rest : List UInt8}
    (h : Inv s) (hcopy : ∀ i, copyout i = true)
    (hserves : Serves (s.editor.committed.map Prod.snd) s.reads rest)
    (hpending : Pending (some rd) rest (s.editor.unread.map Prod.snd))
    (hshort : ∀ a ∈ s.reads.getLast?, a.Short → rd.got = [] ∧ rd.n = rd.target) :
    Inv (s.turn killed copyout rd) := by
  obtain ⟨hrest, hgot⟩ := hpending
  obtain ⟨k, hk, hholds, hr, hturn⟩ := readLoop_spec killed hcopy h.holds ⟨rfl, hgot⟩
  rw [List.length_map] at hk
  -- a read after a short one begins in front of a ^D, so it returns 0
  have hzero : ∀ a ∈ s.reads.getLast?, a.Short →
      (readLoop killed copyout rd.target rd.n rd.got s.cons).1 = .returns 0 [] := by
    intro a ha hs
    obtain ⟨hnil, hn⟩ := hshort a ha hs
    rw [hnil, hn]
    exact readLoop_eof killed copyout rd.target h.holds (h.short a ha hs).2
  generalize hloop : readLoop killed copyout rd.target rd.n rd.got s.cons = res at hholds hr hturn hzero
  obtain ⟨t, cons⟩ := res
  have hunread : ({ s.editor with taken := s.editor.taken + k } : Editor).unread =
      s.editor.unread.drop k := by
    simp only [Editor.unread, List.drop_drop]
  have hed : Editor.Ok { s.editor with taken := s.editor.taken + k } := by
    refine ⟨h.editor.numbered, h.editor.below, h.editor.plain, ?_⟩
    have hlen := h.editor.taken
    rw [Editor.unread, List.length_drop] at hk
    dsimp only
    omega
  rw [System.turn, hloop]
  dsimp only at hholds hr hzero ⊢
  rw [hr]
  rw [← List.map_drop, ← hunread] at hholds
  cases t with
  | sleeps rd' =>
    obtain ⟨-, hall, hpend⟩ := hturn
    refine ⟨hholds, hed, ⟨rest, hserves, ?_⟩, fun a ha hs => ?_, h.chain⟩
    · dsimp only
      rw [hunread, hall, List.length_map, List.drop_length, hrest]
      exact hpend
    · cases hzero a ha hs
  | returns ret bytes =>
    obtain ⟨m, hserved, hdrop⟩ := hturn
    rw [← hrest] at hserved hdrop
    have hleft : rest.drop m =
        ({ s.editor with taken := s.editor.taken + k } : Editor).unread.map Prod.snd := by
      rw [hdrop, hunread, List.map_drop]
    refine ⟨hholds, hed, ⟨rest.drop m, ?_, hleft⟩, fun a ha hs => ⟨rfl, ?_⟩, ?_⟩
    · exact serves_append.mpr ⟨rest, hserves, serves_singleton hserved⟩
    · rw [List.getLast?_concat, Option.mem_some_iff] at ha
      subst ha
      rw [← hleft]
      exact hserved.short hs
    · refine List.isChain_append.mpr ⟨h.chain, List.isChain_singleton _, ?_⟩
      rintro a ha b hb hs
      have hb' : b = ⟨rd.target, ret, bytes⟩ := by simpa using hb.symm
      obtain ⟨hret, hbytes⟩ := Turn.returns.inj (hzero a ha hs)
      rw [hb']
      exact ⟨hret, hbytes⟩

theorem inv_step {e : Event} (h : Inv s) (hcopy : e.Copies) : Inv (consoleStep s e) := by
  obtain ⟨rest, hserves, hpending⟩ := h.served
  cases e with
  | consoleintr c => exact h.intr c
  | consoleread n killed copyout =>
    rw [consoleStep]
    cases hreader : s.reader with
    | none =>
      rw [hreader] at hpending
      exact h.turn hcopy hserves ⟨hpending, by simp, by simp, by simp⟩ fun _ _ _ => ⟨rfl, rfl⟩
    | some rd => exact h
  | resume killed copyout =>
    rw [consoleStep]
    cases hreader : s.reader with
    | none => exact h
    | some rd =>
      rw [hreader] at hpending
      refine h.turn hcopy hserves hpending fun a ha hs => ?_
      exact absurd (h.short a ha hs).1 (by simp [hreader])

theorem System.turn_committed (s : System) (killed : Bool) (copyout : Nat → Bool) (rd : Reader) :
    (s.turn killed copyout rd).editor.committed = s.editor.committed := by
  rw [System.turn]
  dsimp only
  split <;> rfl

theorem committed_step (s : System) (e : Event) :
    s.editor.committed <+: (consoleStep s e).editor.committed := by
  cases e with
  | consoleintr c => exact s.editor.input_committed c
  | consoleread n killed copyout | resume killed copyout =>
    rw [consoleStep]
    split
    all_goals
      first
        | exact List.prefix_rfl
        | rw [System.turn_committed]

/-- A read begins, or the one in progress goes on. -/
def Event.Turns (s : System) : Event → Prop
  | .consoleintr _ => False
  | .consoleread _ _ _ => s.reader = none
  | .resume _ _ => True

theorem readLoop_sleeps {killed : Bool} {copyout : Nat → Bool} {target n : Nat} {got : List UInt8}
    {c : Cons} {rd : Reader} (h : (readLoop killed copyout target n got c).1 = .sleeps rd) :
    (readLoop killed copyout target n got c).2.r = (readLoop killed copyout target n got c).2.w := by
  induction n generalizing got c with
  | zero => cases h
  | succ n ih =>
    rw [readLoop] at h ⊢
    dsimp only at h ⊢
    by_cases hempty : c.r = c.w
    · rw [if_pos hempty] at h ⊢
      cases killed with
      | true => cases h
      | false => exact hempty
    · rw [if_neg hempty] at h ⊢
      split_ifs at h ⊢
      exact ih h

theorem System.turn_sleeps {killed : Bool} {copyout : Nat → Bool} {rd : Reader}
    (h : (s.turn killed copyout rd).reader ≠ none) :
    (s.turn killed copyout rd).cons.r = (s.turn killed copyout rd).cons.w := by
  rw [System.turn] at h ⊢
  dsimp only at h ⊢
  split at h
  · exact readLoop_sleeps ‹_›
  · exact absurd rfl h

theorem Inv.sleeps {e : Event} (h : Inv s) (hcopy : e.Copies) (he : e.Turns s)
    (hreader : (consoleStep s e).reader ≠ none) : (consoleStep s e).editor.unread = [] := by
  have hempty : (consoleStep s e).cons.r = (consoleStep s e).cons.w := by
    cases e with
    | consoleintr c => exact he.elim
    | consoleread n killed copyout =>
      simp only [consoleStep, show s.reader = none from he] at hreader ⊢
      exact System.turn_sleeps hreader
    | resume killed copyout =>
      cases hs : s.reader with
      | none => simp [consoleStep, hs] at hreader
      | some rd =>
        simp only [consoleStep, hs] at hreader ⊢
        exact System.turn_sleeps hreader
  exact List.map_eq_nil_iff.mp ((inv_step h hcopy).holds.r_eq_w.mp hempty)

end Steps

def System.got (s : System) : List UInt8 := s.reader.elim [] Reader.got

/-- The discipline: the three indices are in order modulo `2 ^ 32`, the ring between them holds the
committed characters that are unread and then the line, no character is both erased and committed,
and the reads are served from the committed characters one after the other, so that
their bytes are these characters in order and a read that stops in front of a ^D is followed by one
that returns 0. -/
structure Disciplined (s : System) : Prop where
  ordered : (s.cons.w - s.cons.r).toNat ≤ (s.cons.e - s.cons.r).toNat
  bounded : (s.cons.e - s.cons.r).toNat ≤ INPUT_BUF_SIZE
  ring : Holds s.cons (s.editor.unread.map Prod.snd) (s.editor.line.map Prod.snd)
  apart : ∀ x ∈ s.editor.erased, ∀ y ∈ s.editor.committed, x.1 ≠ y.1
  served : Serves (s.editor.committed.map Prod.snd) s.reads
    (s.got ++ s.editor.unread.map Prod.snd)
  bytes : s.reads.flatMap Read.bytes ++ s.got =
    ((s.editor.committed.take s.editor.taken).map Prod.snd).filter (· ≠ eof)
  eof : s.reads.IsChain fun a b => a.Short → b.ret = 0 ∧ b.bytes = []

theorem Inv.disciplined {s : System} (h : Inv s) : Disciplined s := by
  have hfilled := h.holds.filled
  have hmark := h.holds.mark
  have hroom := h.holds.room
  obtain ⟨rest, hserves, hpending⟩ := h.served
  have hrest : rest = s.got ++ s.editor.unread.map Prod.snd ∧ Console.eof ∉ s.got := by
    unfold System.got
    cases hreader : s.reader with
    | none =>
      rw [hreader] at hpending
      exact ⟨hpending, by simp⟩
    | some rd =>
      rw [hreader] at hpending
      exact ⟨hpending.1, hpending.2.1⟩
  refine ⟨by omega, by omega, h.holds, ?_, hrest.1 ▸ hserves, ?_, h.chain⟩
  · intro x hx y hy hxy
    have hnodup := h.editor.numbered
    rw [Editor.kept, List.map_append, List.map_append, List.nodup_append] at hnodup
    have hdisjoint := (List.nodup_append.mp hnodup.1).2.2
    exact hdisjoint _ (List.mem_map_of_mem hx) _ (List.mem_map_of_mem hy) hxy
  · obtain ⟨m, hm, hdrop, hflat⟩ := hserves.bytes
    have htaken := h.editor.taken
    have hlen : m + s.got.length = s.editor.taken := by
      have hcount := congrArg List.length (hdrop.symm.trans hrest.1)
      simp only [List.length_drop, List.length_append, List.length_map, Editor.unread] at hcount hm
      omega
    have hgot : ((s.editor.committed.map Prod.snd).drop m).take s.got.length = s.got := by
      rw [← hdrop, hrest.1, List.take_left]
    have hself : s.got.filter (· ≠ Console.eof) = s.got := by
      rw [List.filter_eq_self]
      intro c hc
      have hne : c ≠ Console.eof := fun he => hrest.2 (he ▸ hc)
      simpa using hne
    rw [List.map_take, ← hlen, List.take_add, List.filter_append, hgot, hself, hflat]

/-- One step of the console: what is committed stays so, and a read goes to sleep only when it has
taken everything that is committed. -/
def StepLaw (s : System) (e : Event) : Prop :=
  s.editor.committed <+: (consoleStep s e).editor.committed ∧
    (e.Turns s → (consoleStep s e).reader ≠ none → (consoleStep s e).editor.unread = [])

/-- `ab`, a backspace, a carriage return, `x` and a ^D, with a read that waits for the line and two
that meet the ^D. -/
def typing : List Event :=
  [.consoleintr 97, .consoleread 10 false fun _ => true, .consoleintr 98, .consoleintr 8,
    .consoleintr 13, .resume false fun _ => true, .consoleintr 120, .consoleintr 4,
    .consoleread 10 false fun _ => true, .consoleread 10 false fun _ => true]

end OsProject.Console
