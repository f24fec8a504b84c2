import OsProject.Mailbox

/-! Accepted messages. The mailbox of a process is one buffer with a flag, and `sys_send` does
not look at the flag, so a second message overwrites one that was not received. Of a long
message only the first 63 bytes are kept. -/

namespace OsProject

structure MailEvent where
  call : MailCall
  ret : Int
  lines : List MailLine

def mailEvents : Kernel → List MailCall → List MailEvent
  | _, [] => []
  | k, call :: calls =>
    { call := call, ret := (mailStep k call).2.1, lines := (mailStep k call).2.2 } ::
      mailEvents (mailNext k call) calls

/-- The message that one event accepts for `q`. -/
def MailEvent.accepted (q : Int) (e : MailEvent) : List (List UInt8) :=
  match e.call with
  | .send _ pid msg => if pid = q ∧ e.ret = 0 then [msg] else []
  | .recv _ => []

def linesFor (q : Int) (lines : List MailLine) : List (List UInt8) :=
  (lines.filter fun line => line.1 = q).map Prod.snd

/-- The messages for which `send(q, ...)` returned 0, in order. -/
def acceptedFor (q : Int) (events : List MailEvent) : List (List UInt8) :=
  events.flatMap (MailEvent.accepted q)

/-- The texts that were printed for `q`, in order. -/
def receivedFor (q : Int) (events : List MailEvent) : List (List UInt8) :=
  events.flatMap fun e => linesFor q e.lines

/-- The texts that wait for `q`. -/
def heldFor (q : Int) (k : Kernel) : List (List UInt8) :=
  match pidSlot k q with
  | some i => if (k.proc i).hasMessage ≠ 0 then [(k.proc i).message] else []
  | none => []

/-- What was accepted is what was received, in order and each once, and then what is held. -/
def NoneLost (k : Kernel) (calls : List MailCall) : Prop :=
  ∀ q, receivedFor q (mailEvents k calls) ++ heldFor q (runMail k calls) =
    acceptedFor q (mailEvents k calls)

def FindsRoom (k : Kernel) : MailCall → Prop
  | .send _ q msg => heldFor q k = [] ∧ ((pidSlot k q).isSome → msg.length ≤ 63 ∧ 0 ∉ msg)
  | .recv _ => True

/-- Every `send` of the run finds the mailbox it fills empty, and its message fits there. -/
def SendsFindRoom (k : Kernel) (calls : List MailCall) : Prop := Meets mailNext FindsRoom k calls

def MailFound (k : Kernel) : Prop :=
  ∀ i, (k.proc i).hasMessage ≠ 0 → pidSlot k (k.proc i).pid = some i

theorem pidSlot_congr {k l : Kernel} (h : ∀ i, (l.proc i).pid = (k.proc i).pid) (q : Int) :
    pidSlot l q = pidSlot k q := by
  simp only [pidSlot, h]

theorem pid_of_pidSlot {k : Kernel} {q : Int} {i : Fin NPROC} (h : pidSlot k q = some i) :
    (k.proc i).pid = q := by
  simpa using List.find?_some h

@[simp] theorem Proc.putMail_pid (p : Proc) (msg : List UInt8) : (p.putMail msg).pid = p.pid := rfl

@[simp] theorem Proc.takeMail_pid (p : Proc) : p.takeMail.1.pid = p.pid := by
  by_cases hm : p.hasMessage = 0 <;> simp [takeMail, hm]

@[simp] theorem Proc.takeMail_hasMessage (p : Proc) : p.takeMail.1.hasMessage = 0 := by
  by_cases hm : p.hasMessage = 0 <;> simp [takeMail, hm]

theorem mailStep_pid (k : Kernel) (call : MailCall) (i : Fin NPROC) :
    ((mailNext k call).proc i).pid = (k.proc i).pid := by
  cases call with
  | send caller q msg =>
    cases hq : pidSlot k q with
    | none => simp [mailNext, mailStep, sysSend, hq]
    | some j =>
      by_cases hij : i = j
      · subst hij
        simp [mailNext, mailStep, sysSend, hq]
      · simp [mailNext, mailStep, sysSend, hq, k.setProc_of_ne hij]
  | recv caller => simp [mailNext, mailStep, sysRecv_proc]

theorem MailFound.step {k : Kernel} (h : MailFound k) (call : MailCall) :
    MailFound (mailNext k call) := by
  intro i hi
  rw [mailStep_pid, pidSlot_congr (mailStep_pid k call)]
  cases call with
  | send caller q msg =>
    cases hq : pidSlot k q with
    | none => exact h i (by simpa [mailNext, mailStep, sysSend, hq] using hi)
    | some j =>
      by_cases hij : i = j
      · subst hij
        rw [pid_of_pidSlot hq, hq]
      · exact h i (by simpa [mailNext, mailStep, sysSend, hq, k.setProc_of_ne hij] using hi)
  | recv caller => simp [mailNext, mailStep, sysRecv_proc] at hi

theorem heldFor_recv (q caller : Int) (k : Kernel) :
    heldFor q (mailNext k (.recv caller)) = [] := by
  rw [heldFor, pidSlot_congr (mailStep_pid k _)]
  cases pidSlot k q <;> simp [mailNext, mailStep, sysRecv_proc]

theorem heldFor_send (q caller pid : Int) (msg : List UInt8) (k : Kernel) :
    heldFor q (mailNext k (.send caller pid msg)) =
      if q = pid ∧ (pidSlot k q).isSome then [safestrcpy msg 64] else heldFor q k := by
  rw [heldFor, pidSlot_congr (mailStep_pid k _)]
  cases hp : pidSlot k pid with
  | none =>
    by_cases hq : q = pid
    · subst hq
      simp [heldFor, hp]
    · simp [heldFor, mailNext, mailStep, sysSend, hp, hq]
  | some j =>
    by_cases hq : q = pid
    · subst hq
      simp [hp, mailNext, mailStep, sysSend, Proc.putMail]
    · cases hs : pidSlot k q with
      | none => simp [heldFor, hs]
      | some i =>
        have hij : i ≠ j := by
          rintro rfl
          exact hq ((pid_of_pidSlot hs).symm.trans (pid_of_pidSlot hp))
        simp [heldFor, hs, mailNext, mailStep, sysSend, hp, hq, k.setProc_of_ne hij]

theorem linesFor_takeMail (q : Int) (p : Proc) :
    linesFor q p.takeMail.2 = if p.pid = q ∧ p.hasMessage ≠ 0 then [p.message] else [] := by
  by_cases hm : p.hasMessage = 0
  · simp [Proc.takeMail, linesFor, hm]
  · by_cases hp : p.pid = q <;> simp [Proc.takeMail, linesFor, hm, hp]

theorem flatMap_eq_of_forall_ne {α β : Type*} {l : List α} {f : α → List β} {a : α}
    (hnd : l.Nodup) (ha : a ∈ l) (h : ∀ b ∈ l, b ≠ a → f b = []) : l.flatMap f = f a := by
  obtain ⟨s, t, rfl⟩ := List.append_of_mem ha
  have hnil : ∀ u : List α, (∀ b ∈ u, f b = []) → u.flatMap f = [] := fun u hu =>
    List.flatMap_eq_nil_iff.mpr hu
  rw [List.nodup_append] at hnd
  obtain ⟨-, hcons, hdis⟩ := hnd
  rw [List.flatMap_append, List.flatMap_cons, hnil s, hnil t, List.nil_append, List.append_nil]
  · intro b hb
    exact h b (by simp [hb]) fun he => (List.nodup_cons.mp hcons).1 (he ▸ hb)
  · intro b hb
    exact h b (by simp [hb]) (hdis b hb a (by simp))

theorem linesFor_flatMap {α : Type*} (q : Int) (l : List α) (f : α → List MailLine) :
    linesFor q (l.flatMap f) = l.flatMap fun a => linesFor q (f a) := by
  induction l with
  | nil => rfl
  | cons a l ih => simpa [linesFor] using ih

theorem MailFound.linesFor_recv {k : Kernel} (h : MailFound k) (q caller : Int) :
    linesFor q (mailStep k (.recv caller)).2.2 = heldFor q k := by
  simp only [mailStep, sysRecv_lines, linesFor_flatMap, linesFor_takeMail]
  cases hq : pidSlot k q with
  | none =>
    have hnone : ∀ i, (k.proc i).pid ≠ q := by simpa [pidSlot] using hq
    simp [heldFor, hq, hnone]
  | some i =>
    rw [flatMap_eq_of_forall_ne (List.nodup_finRange NPROC) (List.mem_finRange i)]
    · simp [heldFor, hq, pid_of_pidSlot hq]
    · intro j _ hj
      rw [if_neg]
      rintro ⟨hpid, hm⟩
      have hslot := h j hm
      rw [hpid, hq, Option.some.injEq] at hslot
      exact hj hslot.symm

theorem linesFor_send (q caller pid : Int) (msg : List UInt8) (k : Kernel) :
    linesFor q (mailStep k (.send caller pid msg)).2.2 = [] := rfl

theorem accepted_send (q caller pid : Int) (msg : List UInt8) (k : Kernel) (lines : List MailLine) :
    MailEvent.accepted q
      { call := .send caller pid msg, ret := (mailStep k (.send caller pid msg)).2.1,
        lines := lines } =
      if q = pid ∧ (pidSlot k q).isSome then [msg] else [] := by
  by_cases hq : q = pid
  · subst hq
    cases hs : pidSlot k q <;> simp [MailEvent.accepted, mailStep, sysSend, hs]
  · simp [MailEvent.accepted, hq, Ne.symm hq]

theorem received_le {k : Kernel} (h : MailFound k) (calls : List MailCall) (q : Int) :
    (receivedFor q (mailEvents k calls)).length + (heldFor q (runMail k calls)).length ≤
      (heldFor q k).length + (acceptedFor q (mailEvents k calls)).length := by
  induction calls generalizing k with
  | nil => simp [receivedFor, acceptedFor, mailEvents, runMail]
  | cons call calls ih =>
    have hrest := ih (h.step call)
    simp only [receivedFor, acceptedFor, mailEvents, runMail, List.foldl_cons,
      List.flatMap_cons, List.length_append] at hrest ⊢
    cases call with
    | send caller pid msg =>
      rw [heldFor_send] at hrest
      rw [accepted_send, linesFor_send]
      split_ifs at hrest ⊢ <;> simp at hrest ⊢ <;> omega
    | recv caller =>
      rw [heldFor_recv] at hrest
      rw [h.linesFor_recv]
      simp only [MailEvent.accepted, List.length_nil] at hrest ⊢
      omega

theorem heldFor_nil_of_send {k : Kernel} (h : MailFound k) {caller pid : Int} {msg : List UInt8}
    {calls : List MailCall} {pre : List (List UInt8)} (hpre : pre.length = (heldFor pid k).length)
    (heq : receivedFor pid (mailEvents k (.send caller pid msg :: calls)) ++
        heldFor pid (runMail k (.send caller pid msg :: calls)) =
      pre ++ acceptedFor pid (mailEvents k (.send caller pid msg :: calls))) :
    heldFor pid k = [] := by
  cases hs : pidSlot k pid with
  | none => simp [heldFor, hs]
  | some i =>
    have hle := received_le (h.step (.send caller pid msg)) calls pid
    have hlen := congrArg List.length heq
    rw [heldFor_send] at hle
    simp only [receivedFor, acceptedFor, mailEvents, runMail, List.foldl_cons,
      List.flatMap_cons, accepted_send, hs, Option.isSome_some, and_self, if_true,
      List.length_append, List.length_singleton, linesFor_send, List.length_nil] at hle hlen
    have hzero : (heldFor pid k).length = 0 := by omega
    exact List.length_eq_zero_iff.mp hzero

theorem safestrcpy_eq_self {t : List UInt8} {n : Nat} :
    safestrcpy t n = t ↔ t.length ≤ n - 1 ∧ 0 ∉ t := by
  have hzero : t.takeWhile (· ≠ 0) = t ↔ 0 ∉ t := by
    rw [List.takeWhile_eq_self_iff]
    refine ⟨fun h hmem => by simpa using h 0 hmem, fun h x hx => ?_⟩
    simpa using ne_of_mem_of_not_mem hx h
  constructor
  · intro h
    have hlen : t.length ≤ n - 1 := by
      rw [← h]
      exact (List.takeWhile_prefix _).length_le.trans (List.length_take_le _ _)
    rw [safestrcpy, List.take_of_length_le hlen] at h
    exact ⟨hlen, hzero.mp h⟩
  · intro h
    rw [safestrcpy, List.take_of_length_le h.1, hzero.mpr h.2]

section Sends

variable {k : Kernel} {pid : Int} {msg : List UInt8} {pre : Int → List (List UInt8)}

/-- `pre`, texts that wait, with an accepted message in the place of those for its target. -/
def afterSend (k : Kernel) (pid : Int) (msg : List UInt8) (pre : Int → List (List UInt8)) (q : Int) :
    List (List UInt8) :=
  if q = pid ∧ (pidSlot k q).isSome then [msg] else pre q

theorem length_afterSend (hpre : ∀ q, (pre q).length = (heldFor q k).length) (caller q : Int) :
    (afterSend k pid msg pre q).length =
      (heldFor q (mailNext k (.send caller pid msg))).length := by
  rw [afterSend, heldFor_send]
  split_ifs
  · rfl
  · exact hpre q

theorem append_acceptedFor_send (hnil : pre pid = []) (caller q : Int) (calls : List MailCall) :
    pre q ++ acceptedFor q (mailEvents k (.send caller pid msg :: calls)) =
      afterSend k pid msg pre q ++
        acceptedFor q (mailEvents (mailNext k (.send caller pid msg)) calls) := by
  simp only [afterSend, acceptedFor, mailEvents, List.flatMap_cons, accepted_send]
  split_ifs with hq
  · rw [hq.1, hnil, List.nil_append]
  · rfl

theorem afterSend_eq_heldFor (hroom : heldFor pid k = []) (hnil : pre pid = []) (caller : Int) :
    (∀ q, afterSend k pid msg pre q = heldFor q (mailNext k (.send caller pid msg))) ↔
      (∀ q, pre q = heldFor q k) ∧ ((pidSlot k pid).isSome → msg.length ≤ 63 ∧ 0 ∉ msg) := by
  have hfit : [msg] = [safestrcpy msg 64] ↔ msg.length ≤ 63 ∧ 0 ∉ msg := by
    rw [List.singleton_inj, eq_comm, safestrcpy_eq_self]
  simp only [afterSend, heldFor_send]
  constructor
  · intro heq
    refine ⟨fun q => ?_, fun hs => hfit.mp (by simpa [hs] using heq pid)⟩
    by_cases hq : q = pid
    · rw [hq, hnil, hroom]
    · simpa [hq] using heq q
  · rintro ⟨heq, hfits⟩ q
    split_ifs with hq
    · exact hfit.mpr (hfits (hq.1 ▸ hq.2))
    · exact heq q

end Sends

/-- The induction is over the calls, with any texts `pre` in the place of those that wait at the
start: a `send` puts its message there, whether or not the mailbox keeps all of it. -/
theorem noneLost_from {k : Kernel} (h : MailFound k) (calls : List MailCall)
    (pre : Int → List (List UInt8)) (hpre : ∀ q, (pre q).length = (heldFor q k).length) :
    (∀ q, receivedFor q (mailEvents k calls) ++ heldFor q (runMail k calls) =
      pre q ++ acceptedFor q (mailEvents k calls)) ↔
      (∀ q, pre q = heldFor q k) ∧ SendsFindRoom k calls := by
  induction calls generalizing k pre with
  | nil => simp [receivedFor, acceptedFor, mailEvents, runMail, SendsFindRoom, Meets, eq_comm]
  | cons call calls ih =>
    change _ ↔ _ ∧ FindsRoom k call ∧ SendsFindRoom (mailNext k call) calls
    cases call with
    | send caller pid msg =>
      have hnil : heldFor pid k = [] → pre pid = [] := fun hroom =>
        List.length_eq_zero_iff.mp (by rw [hpre, hroom]; rfl)
      have hiff := ih (h.step (.send caller pid msg)) _ (length_afterSend hpre caller)
      constructor
      · intro heq
        have hroom := heldFor_nil_of_send h (hpre pid) (heq pid)
        obtain ⟨hall, hrest⟩ :=
          hiff.mp fun q => (heq q).trans (append_acceptedFor_send (hnil hroom) caller q calls)
        obtain ⟨hall, hfits⟩ := (afterSend_eq_heldFor hroom (hnil hroom) caller).mp hall
        exact ⟨hall, ⟨hroom, hfits⟩, hrest⟩
      · rintro ⟨hall, ⟨hroom, hfits⟩, hrest⟩ q
        rw [append_acceptedFor_send (hnil hroom)]
        exact hiff.mpr ⟨(afterSend_eq_heldFor hroom (hnil hroom) caller).mpr ⟨hall, hfits⟩, hrest⟩ q
    | recv caller =>
      have hiff := ih (h.step (.recv caller)) (fun _ => []) fun q => by rw [heldFor_recv]
      simp only [heldFor_recv, forall_const, true_and, List.nil_append] at hiff
      rw [FindsRoom, true_and, ← hiff, ← forall_and]
      refine forall_congr' fun q => ?_
      simp only [receivedFor, acceptedFor, mailEvents, runMail, List.foldl_cons,
        List.flatMap_cons, h.linesFor_recv, MailEvent.accepted, List.append_assoc,
        List.nil_append]
      exact ⟨fun heq => (List.append_inj heq (hpre q).symm).imp_left Eq.symm,
        fun heq => by rw [heq.1, ← heq.2]⟩

/-- From empty mailboxes, no accepted message is lost, cut or repeated in exactly those runs in
which every `send` finds the mailbox of its target empty and its message fits there. -/
theorem noneLost_iff {k : Kernel} (hempty : ∀ i, (k.proc i).hasMessage = 0)
    (calls : List MailCall) : NoneLost k calls ↔ SendsFindRoom k calls := by
  have hheld : ∀ q, heldFor q k = [] := fun q => by
    cases hq : pidSlot k q <;> simp [heldFor, hq, hempty]
  have hiff := noneLost_from (fun i hi => absurd (hempty i) hi) calls (fun _ => [])
    fun q => by rw [hheld]
  simp only [hheld, List.nil_append, forall_const, true_and] at hiff
  exact hiff

theorem threeProcs_empty (i : Fin NPROC) : (threeProcs.proc i).hasMessage = 0 := by
  by_cases hi : i.val < 3 <;> simp [threeProcs, hi]

theorem noneLost_alternating :
    NoneLost threeProcs [.send 1 2 [97], .recv 2, .send 3 2 [98], .recv 2, .send 1 3 [99]] := by
  rw [noneLost_iff threeProcs_empty]
  refine ⟨?_, trivial, ?_, trivial, ?_, trivial⟩ <;>
    · simp only [FindsRoom]
      decide

theorem send_overwrites_mail :
    (∀ i, (threeProcs.proc i).hasMessage = 0) ∧
    ¬ NoneLost threeProcs [.send 1 2 [97], .send 3 2 [98], .recv 2] := by
  refine ⟨threeProcs_empty, fun h => ?_⟩
  have hmail := h 2
  revert hmail
  decide

end OsProject
