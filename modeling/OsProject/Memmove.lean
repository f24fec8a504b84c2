import OsProject.Sv39

/-! The two `memmove`s, byte by byte. Addresses are 64-bit, so a pointer that goes past the last
byte of memory comes back at 0. -/

namespace OsProject

/-- `while(n-- > 0) *d++ = *s++;` -/
def copyUp (mem : Buffer) (d s : Nat) : Nat → Buffer
  | 0 => mem
  | n + 1 => copyUp (Function.update mem d (mem s)) ((d + 1) % 2 ^ 64) ((s + 1) % 2 ^ 64) n

/-- `while(n-- > 0) *--d = *--s;` -/
def copyDown (mem : Buffer) (d s : Nat) : Nat → Buffer
  | 0 => mem
  | n + 1 =>
    let d := (d + 2 ^ 64 - 1) % 2 ^ 64
    let s := (s + 2 ^ 64 - 1) % 2 ^ 64
    copyDown (Function.update mem d (mem s)) d s n

/-- The kernel's `memmove` for a `uint n`: what it returns, and the memory afterwards. -/
def Kstring.memmove (mem : Buffer) (dst src n : Nat) : Nat × Buffer :=
  if n = 0 then (dst, mem)
  else if src < dst ∧ (src + n) % 2 ^ 64 > dst then
    (dst, copyDown mem ((dst + n) % 2 ^ 64) ((src + n) % 2 ^ 64) n)
  else (dst, copyUp mem dst src n)

/-- `vdst += n` for an `int` that may be negative. -/
def advance (p : Nat) (n : Int) : Nat := ((p + n) % 2 ^ 64).toNat

/-- The user library's `memmove`. A negative `n` moves the pointers and copies nothing. -/
def Ulib.memmove (mem : Buffer) (vdst vsrc : Nat) (n : Int) : Nat × Buffer :=
  if vsrc > vdst then (vdst, copyUp mem vdst vsrc n.toNat)
  else (vdst, copyDown mem (advance vdst n) (advance vsrc n) n.toNat)

section

variable {mem : Buffer} {d s n : Nat}

theorem memmove_first (h : d ≤ s ∨ s + (n + 1) ≤ d) :
    Vm.memmove (Function.update mem d (mem s)) (d + 1) (s + 1) n = Vm.memmove mem d s (n + 1) := by
  funext a
  simp only [Vm.memmove]
  by_cases ha : d + 1 ≤ a ∧ a < d + 1 + n
  · have hread : s + 1 + (a - (d + 1)) = s + (a - d) := by omega
    rw [if_pos ha, if_pos (by omega), hread, Function.update_of_ne (by omega)]
  · rw [if_neg ha]
    by_cases had : a = d
    · rw [had, Function.update_self, if_pos (by omega), Nat.sub_self, Nat.add_zero]
    · rw [Function.update_of_ne had, if_neg (by omega)]

theorem memmove_last (h : s ≤ d ∨ d + (n + 1) ≤ s) :
    Vm.memmove (Function.update mem (d + n) (mem (s + n))) d s n = Vm.memmove mem d s (n + 1) := by
  funext a
  simp only [Vm.memmove]
  by_cases ha : d ≤ a ∧ a < d + n
  · rw [if_pos ha, if_pos (by omega), Function.update_of_ne (by omega)]
  · rw [if_neg ha]
    by_cases had : a = d + n
    · rw [had, Function.update_self, if_pos (by omega), Nat.add_sub_cancel_left]
    · rw [Function.update_of_ne had, if_neg (by omega)]

theorem copyUp_eq (hd : d + n ≤ 2 ^ 64) (hs : s + n ≤ 2 ^ 64) (h : d ≤ s ∨ s + n ≤ d) :
    copyUp mem d s n = Vm.memmove mem d s n := by
  induction n generalizing mem d s with
  | zero =>
    funext a
    rw [copyUp, Vm.memmove, if_neg (by omega)]
  | succ n ih =>
    rw [copyUp, ← memmove_first h]
    rcases Nat.eq_zero_or_pos n with hn | hn
    · -- the pointers may have wrapped, but nothing is copied any more
      funext a
      rw [hn, copyUp, Vm.memmove, if_neg (by omega)]
    · rw [Nat.mod_eq_of_lt (by omega), Nat.mod_eq_of_lt (by omega)]
      exact ih (by omega) (by omega) (by omega)

theorem back_one {p n : Nat} (h : p + (n + 1) ≤ 2 ^ 64) :
    ((p + (n + 1)) % 2 ^ 64 + 2 ^ 64 - 1) % 2 ^ 64 = p + n := by
  omega

theorem copyDown_eq (hd : d + n ≤ 2 ^ 64) (hs : s + n ≤ 2 ^ 64) (h : s ≤ d ∨ d + n ≤ s) :
    copyDown mem ((d + n) % 2 ^ 64) ((s + n) % 2 ^ 64) n = Vm.memmove mem d s n := by
  induction n generalizing mem with
  | zero =>
    funext a
    rw [copyDown, Vm.memmove, if_neg (by omega)]
  | succ n ih =>
    have hrest := @ih (Function.update mem (d + n) (mem (s + n)))
      (by omega) (by omega) (by omega)
    rw [Nat.mod_eq_of_lt (by omega), Nat.mod_eq_of_lt (by omega), memmove_last h] at hrest
    rw [copyDown, back_one hd, back_one hs]
    exact hrest

end

theorem Kstring.memmove_eq (mem : Buffer) {dst src n : Nat} (hsrc : src + n ≤ 2 ^ 64)
    (hdst : dst + n ≤ 2 ^ 64) : Kstring.memmove mem dst src n = (dst, Vm.memmove mem dst src n) := by
  rw [Kstring.memmove]
  split_ifs with hn hdir
  · have hnone : Vm.memmove mem dst src n = mem := by
      funext a
      rw [Vm.memmove, if_neg (by omega)]
    rw [hnone]
  · rw [copyDown_eq hdst hsrc (.inl (by omega))]
  · rw [copyUp_eq hdst hsrc (by omega)]

theorem advance_nat (p n : Nat) : advance p n = (p + n) % 2 ^ 64 := by
  rw [advance]
  omega

theorem Ulib.memmove_eq (mem : Buffer) {vdst vsrc : Nat} {n : Int}
    (hsrc : vsrc + n.toNat ≤ 2 ^ 64) (hdst : vdst + n.toNat ≤ 2 ^ 64) :
    Ulib.memmove mem vdst vsrc n = (vdst, Vm.memmove mem vdst vsrc n.toNat) := by
  rw [Ulib.memmove]
  split_ifs with hdir
  · rw [copyUp_eq hdst hsrc (.inl (by omega))]
  · rcases Int.le_total 0 n with hn | hn
    · obtain ⟨k, rfl⟩ := Int.eq_ofNat_of_zero_le hn
      rw [Int.toNat_natCast] at hsrc hdst ⊢
      rw [advance_nat, advance_nat, copyDown_eq hdst hsrc (.inl (by omega))]
    · have hnone : Vm.memmove mem vdst vsrc 0 = mem := by
        funext a
        rw [Vm.memmove, if_neg (by omega)]
      rw [Int.toNat_of_nonpos hn, copyDown, hnone]

/-- `mem'` has the old bytes of `src..src+n` at `dst..dst+n`, and is `mem` elsewhere. -/
structure Moved (mem mem' : Buffer) (dst src n : Nat) : Prop where
  copied : ∀ i < n, mem' (dst + i) = mem (src + i)
  outside : ∀ a, a < dst ∨ dst + n ≤ a → mem' a = mem a

theorem Moved.memmove (mem : Buffer) (dst src n : Nat) :
    Moved mem (Vm.memmove mem dst src n) dst src n where
  copied i hi := by rw [Vm.memmove, if_pos (by omega), Nat.add_sub_cancel_left]
  outside a ha := by rw [Vm.memmove, if_neg (by omega)]

/-- Both versions, for every overlap of ranges that do not wrap. The user's count may be negative. -/
theorem memmove_moves (mem : Buffer) (dst src : Nat) :
    (∀ n, src + n ≤ 2 ^ 64 → dst + n ≤ 2 ^ 64 →
      Moved mem (Kstring.memmove mem dst src n).2 dst src n) ∧
    ∀ n : Int, src + n.toNat ≤ 2 ^ 64 → dst + n.toNat ≤ 2 ^ 64 →
      Moved mem (Ulib.memmove mem dst src n).2 dst src n.toNat := by
  constructor
  · intro n hsrc hdst
    rw [Kstring.memmove_eq mem hsrc hdst]
    exact Moved.memmove mem dst src n
  · intro n hsrc hdst
    rw [Ulib.memmove_eq mem hsrc hdst]
    exact Moved.memmove mem dst src n.toNat

theorem memmove_moves_up :
    Moved (fun a => .ofNat a) (Kstring.memmove (fun a => .ofNat a) 1 0 4).2 1 0 4 ∧
      Moved (fun a => .ofNat a) (Ulib.memmove (fun a => .ofNat a) (2 ^ 64 - 4) 0 4).2
        (2 ^ 64 - 4) 0 4 :=
  ⟨(memmove_moves _ 1 0).1 4 (by decide) (by decide),
    (memmove_moves _ (2 ^ 64 - 4) 0).2 4 (by decide) (by decide)⟩

end OsProject
