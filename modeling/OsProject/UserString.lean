import OsProject.FaultSpec

/-! Strings in user memory, and what `copyinstr` takes of them. -/

namespace OsProject.Vm

section Strings

/-- The string at `a` in a memory with holes, up to its NUL or up to `max` bytes. It is nothing if
one of these bytes is missing. -/
def stringAt (f : Nat → Option UInt8) : Nat → Nat → Option (List UInt8)
  | 0, _ => some []
  | max + 1, a =>
    match f a with
    | none => none
    | some b => if b = 0 then some [] else (stringAt f max (a + 1)).map (b :: ·)

def stringCopy (f : Nat → Option UInt8) : Nat → Nat → Int × List UInt8
  | 0, _ => (-1, [])
  | max + 1, a =>
    match f a with
    | none => (-1, [])
    | some b =>
      if b = 0 then (0, [0])
      else ((stringCopy f max (a + 1)).1, b :: (stringCopy f max (a + 1)).2)

variable {f : Nat → Option UInt8} {max a n : Nat} {s : List UInt8}

theorem stringCopy_append (bs : List UInt8) (k a : Nat)
    (h : ∀ i, i < bs.length → f (a + i) = bs[i]?) :
    stringCopy f (bs.length + k) a =
      if (untilNul bs).2 then (0, (untilNul bs).1)
      else ((stringCopy f k (a + bs.length)).1,
        (untilNul bs).1 ++ (stringCopy f k (a + bs.length)).2) := by
  induction bs generalizing a with
  | nil => simp [untilNul]
  | cons b bs ih =>
    have hb : f a = some b := h 0 (Nat.zero_lt_succ _)
    have htail : ∀ i, i < bs.length → f (a + 1 + i) = bs[i]? := by
      intro i hi
      have hsucc := h (i + 1) (Nat.succ_lt_succ hi)
      rwa [List.getElem?_cons_succ, ← Nat.add_assoc, Nat.add_right_comm] at hsucc
    rw [List.length_cons, Nat.add_right_comm, stringCopy, hb, untilNul]
    dsimp only
    by_cases h0 : b = 0
    · rw [if_pos h0, if_pos h0, if_pos rfl]
    · rw [if_neg h0, if_neg h0, ih (a + 1) htail, Nat.add_assoc a 1, Nat.add_comm 1]
      split_ifs <;> rfl

theorem stringCopy_of_some (h : stringAt f n a = some s) (k : Nat) (rest : List UInt8) :
    (((stringCopy f (n + k) a).2 ++ rest).take n).takeWhile (· ≠ 0) = s := by
  induction n generalizing a s with
  | zero =>
    cases h
    rfl
  | succ n ih =>
    rw [stringAt] at h
    rw [Nat.add_right_comm, stringCopy]
    cases hb : f a with
    | none =>
      rw [hb] at h
      cases h
    | some b =>
      rw [hb] at h
      dsimp only at h ⊢
      by_cases h0 : b = 0
      · rw [if_pos h0] at h
        cases h
        rw [if_pos h0]
        rfl
      · rw [if_neg h0, Option.map_eq_some_iff] at h
        obtain ⟨t, ht, rfl⟩ := h
        rw [if_neg h0, List.cons_append, List.take_succ_cons, List.takeWhile_cons_of_pos (by simpa using h0),
          ih ht]

theorem stringCopy_of_none (h : stringAt f n a = none) (k : Nat) :
    ∃ p, stringCopy f (n + k) a = (-1, p) ∧ p.length < n ∧ ∀ b ∈ p, b ≠ 0 := by
  induction n generalizing a with
  | zero => cases h
  | succ n ih =>
    rw [stringAt] at h
    rw [Nat.add_right_comm, stringCopy]
    cases hb : f a with
    | none => exact ⟨[], rfl, Nat.zero_lt_succ n, by simp⟩
    | some b =>
      rw [hb] at h
      dsimp only at h ⊢
      by_cases h0 : b = 0
      · rw [if_pos h0] at h
        cases h
      · rw [if_neg h0, Option.map_eq_none_iff] at h
        obtain ⟨p, hp, hlen, hne⟩ := ih h
        refine ⟨b :: p, by rw [if_neg h0, hp], Nat.succ_lt_succ hlen, ?_⟩
        rintro c (_ | ⟨_, hc⟩)
        · exact h0
        · exact hne c hc

theorem stringAt_take (h : stringAt f (n + 1) a = some s) : stringAt f n a = some (s.take n) := by
  induction n generalizing a s with
  | zero => rfl
  | succ n ih =>
    rw [stringAt] at h ⊢
    cases hb : f a with
    | none =>
      rw [hb] at h
      cases h
    | some b =>
      rw [hb] at h
      dsimp only at h ⊢
      by_cases h0 : b = 0
      · rw [if_pos h0] at h ⊢
        cases h
        rfl
      · rw [if_neg h0, Option.map_eq_some_iff] at h
        obtain ⟨t, ht, rfl⟩ := h
        rw [if_neg h0, ih ht]
        rfl

end Strings

/-- The page behind a user address, or 0 if the table maps none there for user code. -/
def mappedPage (mem : Buffer) (r a : Nat) : Nat :=
  if a < MAXVA then (userAddr mem r (a / PGSIZE)).getD 0 else 0

def userByte (mem : Buffer) (r a : Nat) : Option UInt8 :=
  if mappedPage mem r a = 0 then none else some (mem (mappedPage mem r a + a % PGSIZE))

section Copy

variable {mem : Buffer} {r a b n : Nat} {E : VmPanic → Prop} {m : Phys}

theorem mappedPage_congr (h : a / PGSIZE = b / PGSIZE) : mappedPage mem r a = mappedPage mem r b := by
  have hiff : a < MAXVA ↔ b < MAXVA := by
    unfold MAXVA PGSIZE at *
    omega
  rw [mappedPage, mappedPage, h]
  exact if_congr hiff rfl rfl

theorem mappedPage_lt (h : mappedPage mem r a ≠ 0) : a < MAXVA := by
  by_contra hge
  exact h (if_neg hge)

theorem userByte_chunk (hp : mappedPage mem r a ≠ 0) (hn : a % PGSIZE + n ≤ PGSIZE) (i : Nat) (hi : i < n) :
    userByte mem r (a + i) = (bytesFrom mem (mappedPage mem r a + a % PGSIZE) n)[i]? := by
  have hpage : (a + i) / PGSIZE = a / PGSIZE ∧ (a + i) % PGSIZE = a % PGSIZE + i := by
    unfold PGSIZE at *
    omega
  rw [userByte, mappedPage_congr hpage.1, if_neg hp, hpage.2, ← Nat.add_assoc]
  simp [bytesFrom, hi]

theorem stringCopy_turn (hp : mappedPage mem r a ≠ 0) (hn : a % PGSIZE + n ≤ PGSIZE) {max : Nat}
    (hmax : n ≤ max) : stringCopy (userByte mem r) max a =
      if (untilNul (bytesFrom mem (mappedPage mem r a + a % PGSIZE) n)).2 then
        (0, (untilNul (bytesFrom mem (mappedPage mem r a + a % PGSIZE) n)).1)
      else ((stringCopy (userByte mem r) (max - n) (a + n)).1,
        (untilNul (bytesFrom mem (mappedPage mem r a + a % PGSIZE) n)).1 ++
          (stringCopy (userByte mem r) (max - n) (a + n)).2) := by
  have hlen : (bytesFrom mem (mappedPage mem r a + a % PGSIZE) n).length = n := by simp [bytesFrom]
  have hbytes := stringCopy_append (f := userByte mem r)
    (bytesFrom mem (mappedPage mem r a + a % PGSIZE) n) (max - n) a
    fun i hi => userByte_chunk hp hn i (hlen ▸ hi)
  rwa [hlen, Nat.add_sub_cancel' hmax] at hbytes

theorem wp_copyinstrLoop {Q : Int × List UInt8 → Phys → Prop} {turns : Nat} (max a : Nat)
    (h : max ≤ turns) :
    wp (copyinstrLoop r turns a max) Q E m ↔ Q (stringCopy (userByte m.mem r) max a) m := by
  induction turns generalizing max a Q with
  | zero =>
    rw [Nat.le_zero.mp h]
    rfl
  | succ turns ih =>
    by_cases h0 : 0 < max
    · have hround : PGROUNDDOWN a / PGSIZE = a / PGSIZE := Nat.mul_div_cancel _ (by decide)
      have hoff : a - PGROUNDDOWN a = a % PGSIZE := by
        unfold PGROUNDDOWN PGSIZE
        omega
      have hpage : (if PGROUNDDOWN a < MAXVA then
          (userAddr m.mem r (PGROUNDDOWN a / PGSIZE)).getD 0 else 0) = mappedPage m.mem r a :=
        mappedPage_congr hround
      rw [copyinstrLoop, if_pos h0]
      simp only [wp_bind, wp_walkaddr, hpage, hoff]
      by_cases hp : mappedPage m.mem r a = 0
      · obtain ⟨max, rfl⟩ := Nat.exists_eq_succ_of_ne_zero h0.ne'
        rw [if_pos hp, stringCopy, userByte, if_pos hp]
        rfl
      · rw [if_neg hp]
        simp only [wp_bind, wp_get]
        have hlt := Nat.mod_lt a (show PGSIZE > 0 by decide)
        generalize hn : min (PGSIZE - a % PGSIZE) max = n
        have hle : a % PGSIZE + n ≤ PGSIZE ∧ n ≤ max ∧ 0 < n := by omega
        rw [stringCopy_turn hp hle.1 hle.2.1]
        generalize hu : untilNul (bytesFrom m.mem (mappedPage m.mem r a + a % PGSIZE) n) = u
        by_cases hnul : u.2 = true
        · rw [if_pos hnul, if_pos hnul]
          rfl
        · rw [if_neg hnul, if_neg hnul, wp_bind, ih _ _ (by omega)]
          -- after the last byte the address does not matter
          have hnext : stringCopy (userByte m.mem r) (max - n) ((PGROUNDDOWN a + PGSIZE) % 2 ^ 64) =
              stringCopy (userByte m.mem r) (max - n) (a + n) := by
            by_cases hlast : max - n = 0
            · rw [hlast, stringCopy, stringCopy]
            · have hmaxva := mappedPage_lt hp
              have haddr : (PGROUNDDOWN a + PGSIZE) % 2 ^ 64 = a + n := by
                unfold PGROUNDDOWN MAXVA PGSIZE at *
                omega
              rw [haddr]
          rw [hnext]
          rfl
    · rw [Nat.eq_zero_of_not_pos h0]
      rfl

theorem wp_copyinstr {Q : Int × List UInt8 → Phys → Prop} (a max : Nat) :
    wp (copyinstr r a max) Q E m ↔ Q (stringCopy (userByte m.mem r) max a) m :=
  wp_copyinstrLoop max a le_rfl

end Copy

end OsProject.Vm
