import OsProject.Mailbox
import OsProject.Signal
import OsProject.UserString

/-! `sys_send` with the message in user memory. The result of `argstr` is not looked at. -/

namespace OsProject.Vm

/-- `fetchstr` into `buf`: its result, and the buffer afterwards. -/
def fetchstr (pagetable addr : Nat) (buf : List UInt8) : VmM (Int × List UInt8) := do
  let (ret, bytes) ← copyinstr pagetable addr buf.length
  let buf := bytes ++ buf.drop bytes.length
  if ret < 0 then return (-1, buf)
  return ((buf.takeWhile (· ≠ 0)).length, buf)

/-- `sys_send` by a process with the registers `a0` and `a1`. Before the call `msg` has what is
on the kernel stack. -/
def sendUser (k : Kernel) (pagetable : Nat) (a0 a1 : UInt64) (msg : List UInt8) :
    VmM (Kernel × Int) := do
  let (_, msg) ← fetchstr pagetable a1.toNat msg
  return sysSend k (argint a0) msg

/-- A string arrives with at most 63 characters, and without a string nothing changes. -/
def Sends (k : Kernel) (i : Fin NPROC) : Option (List UInt8) → Kernel × Int → Prop
  | some s, out =>
    out = (k.setProc i { k.proc i with message := s.take 63, hasMessage := 1 }, 0)
  | none, out => out.2 = -1 ∧ ∀ j, (out.1.proc j).message = (k.proc j).message ∧
      (out.1.proc j).hasMessage = (k.proc j).hasMessage

/-- Whatever is on the stack, the string at `a1` is sent, or the call fails without a trace. -/
def SendsString (k : Kernel) (i : Fin NPROC) (m : Phys) (r : Nat) (a0 a1 : UInt64) : Prop :=
  ∀ stack, stack.length = 64 → wp (sendUser k r a0 a1 stack)
    (fun out _ => Sends k i (stringAt (userByte m.mem r) 64 a1.toNat) out) (fun _ => False) m

def StackHidden (k : Kernel) (m : Phys) (r : Nat) (a0 a1 : UInt64) : Prop :=
  ∀ stack stack', stack.length = 64 → stack'.length = 64 →
    returned (sendUser k r a0 a1 stack) m = returned (sendUser k r a0 a1 stack') m

variable {k : Kernel} {i : Fin NPROC} {m : Phys} {r : Nat} {a0 a1 : UInt64} {E : VmPanic → Prop}

theorem wp_fetchstr {Q : Int × List UInt8 → Phys → Prop} {addr : Nat} {buf : List UInt8} :
    wp (fetchstr r addr buf) Q E m ↔
      let c := stringCopy (userByte m.mem r) buf.length addr
      let after := c.2 ++ buf.drop c.2.length
      Q (if c.1 < 0 then -1 else (after.takeWhile (· ≠ 0)).length, after) m := by
  rw [fetchstr, wp_bind, wp_copyinstr]
  dsimp only
  split_ifs <;> rfl

def sentText (m : Phys) (r : Nat) (a1 : UInt64) (stack : List UInt8) : List UInt8 :=
  let c := (stringCopy (userByte m.mem r) 64 a1.toNat).2
  ((c ++ stack.drop c.length).take 63).takeWhile (· ≠ 0)

theorem sendUser_found (hi : pidSlot k (argint a0) = some i) {stack : List UInt8}
    (hstack : stack.length = 64) : sendUser k r a0 a1 stack m =
      .ok ((k.setProc i { k.proc i with message := sentText m r a1 stack, hasMessage := 1 }, 0), m) := by
  refine eq_ok_of_wp ?_
  rw [sendUser, wp_bind, wp_fetchstr, hstack]
  refine ⟨?_, rfl⟩
  rw [sysSend, hi]
  rfl

theorem sentText_of_some {s : List UInt8} (h : stringAt (userByte m.mem r) 63 a1.toNat = some s)
    (stack : List UInt8) : sentText m r a1 stack = s :=
  stringCopy_of_some h 1 _

theorem sentText_of_none (h : stringAt (userByte m.mem r) 63 a1.toNat = none) :
    ∃ p : List UInt8, p.length < 63 ∧ ∀ b, sentText m r a1 (List.replicate 64 b) =
      p ++ (List.replicate (63 - p.length) b).takeWhile (· ≠ 0) := by
  obtain ⟨p, hp, hlen, hne⟩ := stringCopy_of_none h 1
  refine ⟨p, hlen, fun b => ?_⟩
  rw [sentText, hp, List.drop_replicate, List.take_append, List.take_of_length_le hlen.le,
    List.take_replicate, List.takeWhile_append_of_pos (by simpa using hne),
    Nat.min_eq_left (by omega)]

theorem sendsString_iff (hi : pidSlot k (argint a0) = some i) :
    SendsString k i m r a0 a1 ↔ (stringAt (userByte m.mem r) 64 a1.toNat).isSome := by
  constructor
  · intro h
    have hsent := wp_ok (h _ List.length_replicate) (sendUser_found hi (List.length_replicate (a := 0)))
    cases hs : stringAt (userByte m.mem r) 64 a1.toNat with
    | some s => rfl
    | none =>
      rw [hs] at hsent
      have hret : (0 : Int) = -1 := hsent.1
      omega
  · intro h stack hstack
    obtain ⟨s, hs⟩ := Option.isSome_iff_exists.mp h
    have htext : sentText m r a1 stack = s.take 63 := sentText_of_some (stringAt_take hs) stack
    rw [wp, sendUser_found hi hstack, hs, htext]
    rfl

theorem stackHidden_iff (hi : pidSlot k (argint a0) = some i) :
    StackHidden k m r a0 a1 ↔ (stringAt (userByte m.mem r) 63 a1.toNat).isSome := by
  have hret : ∀ {stack : List UInt8}, stack.length = 64 → returned (sendUser k r a0 a1 stack) m =
      some (k.setProc i { k.proc i with message := sentText m r a1 stack, hasMessage := 1 }, 0) := by
    intro stack hstack
    rw [returned, sendUser_found hi hstack]
    rfl
  constructor
  · intro h
    cases hs : stringAt (userByte m.mem r) 63 a1.toNat with
    | some s => rfl
    | none =>
      obtain ⟨p, hp, htext⟩ := sentText_of_none hs
      have hsame := h (List.replicate 64 0) (List.replicate 64 1) List.length_replicate
        List.length_replicate
      rw [hret List.length_replicate, hret List.length_replicate] at hsame
      have hmessage := congrArg (fun out => out.map fun o : Kernel × Int => (o.1.proc i).message) hsame
      simp only [Option.map_some, Kernel.setProc, Function.update_self, htext, Option.some.injEq,
        List.append_cancel_left_eq] at hmessage
      have hlen := congrArg List.length hmessage
      simp at hlen
      omega
  · intro h stack stack' hstack hstack'
    obtain ⟨s, hs⟩ := Option.isSome_iff_exists.mp h
    rw [hret hstack, hret hstack', sentText_of_some hs, sentText_of_some hs]

/-- `sys_send` to a process does what it should exactly if the string can be read, and the message
is free of the stack exactly if 63 characters of it can. -/
theorem send_string_iff (hi : pidSlot k (argint a0) = some i) (m : Phys) (r : Nat) (a1 : UInt64) :
    (SendsString k i m r a0 a1 ↔ (stringAt (userByte m.mem r) 64 a1.toNat).isSome) ∧
    (StackHidden k m r a0 a1 ↔ (stringAt (userByte m.mem r) 63 a1.toNat).isSome) :=
  ⟨sendsString_iff hi, stackHidden_iff hi⟩

/-- A page table at 4096 that maps page 0 alone, which has the string "hi". -/
def hiMem : Phys where
  mem a :=
    if a = 0x1000 ∨ a = 0x2000 then 0x01
    else if a = 0x1001 then 0x08
    else if a = 0x2001 then 0x0c
    else if a = 0x3000 then 0x13
    else if a = 0x3001 then 0x10
    else if a = 0x4000 then 104
    else if a = 0x4001 then 105
    else 0
  freelist := []

theorem send_string_hi : pidSlot threeProcs (argint 2) = some 1 ∧
    SendsString threeProcs 1 hiMem 4096 2 0 ∧ StackHidden threeProcs hiMem 4096 2 0 := by
  have hi : pidSlot threeProcs (argint 2) = some 1 := by decide
  have h := send_string_iff hi hiMem 4096 0
  exact ⟨hi, h.1.mpr (by decide +kernel), h.2.mpr (by decide +kernel)⟩

theorem send_unmapped : (threeProcs.proc 1).state ≠ .unused ∧
    pidSlot threeProcs (argint 2) = some 1 ∧ userByte hiMem.mem 4096 4096 = none ∧
    ¬ SendsString threeProcs 1 hiMem 4096 2 4096 ∧
    (returned (sendUser threeProcs 4096 2 4096 (List.replicate 64 65)) hiMem).map
      (fun out => (out.2, (out.1.proc 1).message)) = some (0, List.replicate 63 65) := by
  have hi : pidSlot threeProcs (argint 2) = some 1 := by decide
  have hnone : stringAt (userByte hiMem.mem 4096) 64 (4096 : UInt64).toNat = none := by
    decide +kernel
  refine ⟨by decide, hi, by decide +kernel, ?_, by decide +kernel⟩
  rw [sendsString_iff hi, hnone]
  decide

end OsProject.Vm
