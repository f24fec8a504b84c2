import OsProject.TextMatch

/-! The matcher of `grep.c`. A string is the list of its bytes, and the NUL that ends it is the byte
behind the last one. -/

namespace OsProject.Grep

open scoped Computability

/-- The byte `s[i]`. -/
def byte (s : List UInt8) (i : Nat) : UInt8 := s.getD i 0

mutual

/-- `matchhere` looks for `re` at the beginning of the text. -/
def matchhere (re text : List UInt8) : Int :=
  if _ : byte re 0 = 0 then 1
  else if byte re 1 = '*'.toUInt8 then matchstar (byte re 0) (re.drop 2) text
  else if byte re 0 = '$'.toUInt8 ∧ byte re 1 = 0 then if byte text 0 = 0 then 1 else 0
  else if byte text 0 ≠ 0 ∧ (byte re 0 = '.'.toUInt8 ∨ byte re 0 = byte text 0) then
    matchhere (re.drop 1) (text.drop 1)
  else 0
termination_by (re.length, text.length)
decreasing_by
  all_goals
    have hpos : 0 < re.length := by
      cases re with
      | nil => exact absurd rfl ‹¬ byte [] 0 = 0›
      | cons c re => exact Nat.succ_pos _
    exact Prod.Lex.left _ _ (by rw [List.length_drop]; omega)

def matchstar (c : UInt8) (re text : List UInt8) : Int :=
  if matchhere re text ≠ 0 then 1
  else if _ : byte text 0 ≠ 0 ∧ (byte text 0 = c ∨ c = '.'.toUInt8) then
    matchstar c re (text.drop 1)
  else 0
termination_by (re.length, text.length + 1)
decreasing_by
  · exact Prod.Lex.right _ (Nat.lt_succ_self _)
  · have hpos : 0 < text.length := by
      cases text with
      | nil => exact absurd rfl ‹byte [] 0 ≠ 0 ∧ _›.1
      | cons c text => exact Nat.succ_pos _
    exact Prod.Lex.right _ (by rw [List.length_drop]; omega)

end

/-- The loop of `match`, which looks at the empty text too. -/
def search (re : List UInt8) : List UInt8 → Int
  | [] => if matchhere re [] ≠ 0 then 1 else 0
  | x :: text => if matchhere re (x :: text) ≠ 0 then 1 else if x = 0 then 0 else search re text

/-- The function `match`. -/
def matchText (re text : List UInt8) : Int :=
  if byte re 0 = '^'.toUInt8 then matchhere (re.drop 1) text else search re text

inductive Item
  | star (c : UInt8)
  | any
  | lit (c : UInt8)
  deriving DecidableEq, Repr

def Item.one (c : UInt8) : Item := if c = '.'.toUInt8 then .any else .lit c

/-- The items of a pattern without its '^', and whether a final '$' follows them. -/
def items : List UInt8 → List Item × Bool
  | [] => ([], false)
  | [c] => if c = '$'.toUInt8 then ([], true) else ([.one c], false)
  | c :: d :: re =>
    if d = '*'.toUInt8 then (.star c :: (items re).1, (items re).2)
    else (.one c :: (items (d :: re)).1, (items (d :: re)).2)

def Item.language : Item → Language UInt8
  | .star c => (letters fun x => x = c ∨ c = '.'.toUInt8)∗
  | .any => letters fun _ => True
  | .lit c => letters fun x => x = c

def language (is : List Item) : Language UInt8 := (is.map Item.language).prod

/-- What a pattern stands for: its items are found in the text, at the beginning after '^' and at the
end before '$'. -/
def Matches (re text : List UInt8) : Prop :=
  if re.head? = some '^'.toUInt8 then
    Occurs (language (items re.tail).1) True ((items re.tail).2 = true) text
  else Occurs (language (items re).1) False ((items re).2 = true) text

section

variable {c d x : UInt8} {re text : List UInt8}

theorem language_cons (i : Item) (is : List Item) : language (i :: is) = i.language * language is := by
  rw [language, List.map_cons, List.prod_cons, language]

theorem Item.language_one (c : UInt8) :
    (Item.one c).language = letters fun x => c = '.'.toUInt8 ∨ c = x := by
  rw [Item.one]
  split_ifs with hc
  · simp [Item.language, hc]
  · simp [Item.language, hc, eq_comm]

theorem matchhere_nil (text : List UInt8) : matchhere [] text = 1 := by
  rw [matchhere]
  rfl

theorem matchhere_star (hc : c ≠ 0) (re text : List UInt8) :
    matchhere (c :: '*'.toUInt8 :: re) text = matchstar c re text := by
  rw [matchhere, dif_neg (by exact hc), if_pos (by rfl)]
  rfl

theorem matchhere_dollar (text : List UInt8) :
    matchhere ['$'.toUInt8] text = if byte text 0 = 0 then 1 else 0 := by
  rw [matchhere, dif_neg (by decide), if_neg (by decide), if_pos (by decide)]

theorem matchhere_one (hc : c ≠ 0) (hstar : byte re 0 ≠ '*'.toUInt8)
    (hlast : ¬ (c = '$'.toUInt8 ∧ re = [])) (hre : 0 ∉ re) (text : List UInt8) :
    matchhere (c :: re) text = if byte text 0 ≠ 0 ∧ (c = '.'.toUInt8 ∨ c = byte text 0) then
      matchhere re (text.drop 1) else 0 := by
  have hnul : byte re 0 = 0 → re = [] := by
    cases re with
    | nil => exact fun _ => rfl
    | cons d re =>
      intro hd
      exact absurd (hd ▸ List.mem_cons_self) hre
  rw [matchhere, dif_neg (by exact hc), if_neg (by exact hstar),
    if_neg (fun h => hlast ⟨h.1, hnul h.2⟩)]
  rfl

theorem matchstar_nil (c : UInt8) (re : List UInt8) :
    matchstar c re [] = if matchhere re [] ≠ 0 then 1 else 0 := by
  rw [matchstar]
  simp [byte]

theorem matchstar_cons (hx : x ≠ 0) : matchstar c re (x :: text) =
    if matchhere re (x :: text) ≠ 0 then 1
    else if x = c ∨ c = '.'.toUInt8 then matchstar c re text else 0 := by
  rw [matchstar]
  simp [byte, hx]

theorem matchstar_iff {L : Language UInt8} {last : Prop} (ht : 0 ∉ text)
    (hrest : ∀ t : List UInt8, 0 ∉ t → (matchhere re t ≠ 0 ↔ Begins L last t)) :
    matchstar c re text ≠ 0 ↔
      Begins ((letters fun x => x = c ∨ c = '.'.toUInt8)∗ * L) last text := by
  induction text with
  | nil =>
    rw [matchstar_nil, begins_kstar_nil, ← hrest [] ht]
    split_ifs with h <;> simp [h]
  | cons x text ih =>
    rw [List.mem_cons, not_or] at ht
    rw [matchstar_cons (Ne.symm ht.1), begins_kstar_cons, ← ih ht.2,
      ← hrest (x :: text) (by simp [ht.1, ht.2])]
    split_ifs with h hx
    · simp [h]
    · simp [h, hx]
    · simp [h, hx]

theorem matchhere_one_iff {L : Language UInt8} {last : Prop} (hre : 0 ∉ c :: re)
    (hstar : byte re 0 ≠ '*'.toUInt8) (hlast : ¬ (c = '$'.toUInt8 ∧ re = [])) (ht : 0 ∉ text)
    (hrest : ∀ t : List UInt8, 0 ∉ t → (matchhere re t ≠ 0 ↔ Begins L last t)) :
    matchhere (c :: re) text ≠ 0 ↔ Begins ((Item.one c).language * L) last text := by
  rw [List.mem_cons, not_or] at hre
  rw [matchhere_one (Ne.symm hre.1) hstar hlast hre.2, Item.language_one]
  cases text with
  | nil => simp [byte, begins_letters_nil]
  | cons x text =>
    rw [List.mem_cons, not_or] at ht
    rw [begins_letters_cons, ← hrest text ht.2]
    have hx : x ≠ 0 := Ne.symm ht.1
    simp [byte, hx]

theorem matchhere_iff (hre : 0 ∉ re) (ht : 0 ∉ text) :
    matchhere re text ≠ 0 ↔ Begins (language (items re).1) ((items re).2 = true) text := by
  induction re using items.induct generalizing text with
  | case1 =>
    rw [matchhere_nil, items, language, List.map_nil, List.prod_nil, begins_one]
    simp
  | case2 =>
    rw [matchhere_dollar, items, if_pos rfl, language, List.map_nil, List.prod_nil, begins_one]
    cases text with
    | nil => simp [byte]
    | cons x text =>
      rw [List.mem_cons, not_or] at ht
      simp [byte, Ne.symm ht.1]
  | case3 c hc =>
    rw [items, if_neg hc, language_cons]
    refine matchhere_one_iff hre (by decide) (fun h => hc h.1) ht fun t _ => ?_
    rw [matchhere_nil, language, List.map_nil, List.prod_nil, begins_one]
    simp
  | case4 c re ih =>
    simp only [List.mem_cons, not_or] at hre
    rw [items, if_pos rfl, language_cons, matchhere_star (Ne.symm hre.1)]
    exact matchstar_iff ht fun t ht => ih hre.2.2 ht
  | case5 c d re hd ih =>
    rw [items, if_neg hd, language_cons]
    refine matchhere_one_iff hre (by simpa [byte] using hd) (by simp) ht fun t ht => ?_
    exact ih (fun h => hre (List.mem_cons_of_mem c h)) ht

theorem search_iff (hre : 0 ∉ re) (ht : 0 ∉ text) : search re text ≠ 0 ↔
    Occurs (language (items re).1) False ((items re).2 = true) text := by
  induction text with
  | nil =>
    rw [search, occurs_nil, ← matchhere_iff hre ht]
    split_ifs with h <;> simp [h]
  | cons x text ih =>
    have hhere := matchhere_iff hre ht
    rw [List.mem_cons, not_or] at ht
    rw [search, occurs_cons, ← hhere, ← ih ht.2, if_neg (Ne.symm ht.1)]
    split_ifs with h <;> simp [h]

theorem matchstar_bit (c : UInt8) (re text : List UInt8) :
    matchstar c re text = 0 ∨ matchstar c re text = 1 := by
  induction text with
  | nil =>
    rw [matchstar_nil]
    split_ifs <;> simp
  | cons x text ih =>
    rw [matchstar]
    split_ifs
    · exact .inr rfl
    · exact ih
    · exact .inl rfl

theorem matchhere_bit (re text : List UInt8) : matchhere re text = 0 ∨ matchhere re text = 1 := by
  induction re generalizing text with
  | nil => exact .inr (matchhere_nil text)
  | cons c re ih =>
    rw [matchhere]
    split_ifs
    · exact .inr rfl
    · exact matchstar_bit _ _ _
    · exact .inr rfl
    · exact .inl rfl
    · exact ih _
    · exact .inl rfl

theorem search_bit (re text : List UInt8) : search re text = 0 ∨ search re text = 1 := by
  induction text with
  | nil =>
    rw [search]
    split_ifs <;> simp
  | cons x text ih =>
    rw [search]
    split_ifs
    · exact .inr rfl
    · exact .inl rfl
    · exact ih

end

/-- `match` finds exactly the texts that the pattern stands for. -/
theorem match_correct {re text : List UInt8} (hre : 0 ∉ re) (htext : 0 ∉ text) :
    (Matches re text → matchText re text = 1) ∧ (¬ Matches re text → matchText re text = 0) := by
  have hbit : matchText re text = 0 ∨ matchText re text = 1 := by
    rw [matchText]
    split_ifs
    · exact matchhere_bit _ _
    · exact search_bit _ _
  have hiff : matchText re text ≠ 0 ↔ Matches re text := by
    cases re with
    | nil => exact search_iff hre htext
    | cons c re =>
      by_cases hc : c = '^'.toUInt8
      · have hre' : 0 ∉ re := fun h => hre (List.mem_cons_of_mem c h)
        rw [matchText, if_pos (by exact hc), Matches, if_pos (by rw [hc]; rfl), occurs_first]
        exact matchhere_iff hre' htext
      · rw [matchText, if_neg (by exact hc), Matches, if_neg (by simpa using hc)]
        exact search_iff hre htext
  constructor
  · intro h
    exact hbit.resolve_left (hiff.mpr h)
  · intro h
    by_contra hne
    exact h (hiff.mp hne)

theorem match_correct_abb : matchText [94, 97, 46, 42, 98, 36] [97, 98, 98] = 1 := by
  refine (match_correct (by decide) (by decide)).1 ⟨[], [97, 98, 98], [], rfl, ?_, by simp, by simp⟩
  have hstar : [98] ∈ (Item.star 46).language := by
    rw [Item.language, mem_kstar_letters]
    simp only [List.mem_singleton, forall_eq]
    decide
  have hb : [98] ∈ language [.lit 98] := by
    rw [language_cons]
    exact cons_mem_letters_mul.mpr ⟨rfl, rfl⟩
  change [97, 98, 98] ∈ language [.lit 97, .star 46, .lit 98]
  rw [language_cons, language_cons]
  exact cons_mem_letters_mul.mpr ⟨rfl, Language.append_mem_mul hstar hb⟩

end OsProject.Grep
