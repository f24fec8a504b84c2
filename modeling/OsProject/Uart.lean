import OsProject.Spinlock
import OsProject.WaitLoop

/-! The transmitter of `uart.c`. `uartwrite` sends a byte when the interrupt handler has found the
transmitter idle since its last one, and `uartputc_sync` when it has found it idle itself. The two
do not know of each other, but the FIFO of the device has room for what they can send at once. -/

namespace OsProject.Waits

def FIFO_SIZE : Nat := 16

/-- The bytes in `fifo` come from `uartwrite` or from the `uartputc_sync` on a CPU. `spin c` is the
character of a `uartputc_sync` that has seen `LSR_TX_IDLE`, which says that `fifo` is empty, and
`acked` is a `uartintr` that has read `ISR`. What was stored in `THR` is recorded in `written`, and
what was sent in `line`. -/
structure Uart where
  txBusy : Bool := false
  fifo : List (Option (Fin NCPU) × UInt8) := []
  spin : Fin NCPU → Option UInt8 := fun _ => none
  irq : Bool := false
  acked : Bool := false
  written : List UInt8 := []
  line : List UInt8 := []

/-- `WriteReg(THR, ch)`. A full FIFO loses the byte, and the device withdraws its interrupt. -/
def Uart.thr (r : Uart) (src : Option (Fin NCPU)) (ch : UInt8) : Uart :=
  { r with
    fifo := if r.fifo.length < FIFO_SIZE then r.fifo ++ [(src, ch)] else r.fifo
    irq := false
    written := r.written ++ [ch] }

/-- The loop of `uartwrite` with the bytes that are left. -/
def uartLoop (r : Uart) : List UInt8 → Uart × Option (List UInt8)
  | [] => (r, none)
  | b :: bs =>
    if r.txBusy then (r, some (b :: bs)) else uartLoop { r.thr none b with txBusy := true } bs

theorem uartLoop_sleeps {r : Uart} {bs : List UInt8} (h : (uartLoop r bs).2 ≠ none) :
    (uartLoop r bs).1.txBusy = true := by
  fun_induction uartLoop r bs with
  | case1 => exact absurd rfl h
  | case2 r b bs hb => exact hb
  | case3 r b bs hb ih => exact ih h

theorem uartLoop_stays {r : Uart} (hb : r.txBusy = true) (bs : List UInt8) :
    (uartLoop r bs).1.txBusy = true := by
  cases bs with
  | nil => exact hb
  | cons b bs => rwa [uartLoop, if_pos hb]

variable (txChan : Nat)

def uartwrite : Loop Uart (List UInt8) where
  chan := txChan
  enter r _ _ bs := uartLoop r bs
  Blocked r := r.txBusy = true
  sleeps _ _ _ _ h := uartLoop_sleeps h
  stays _ _ _ bs h := uartLoop_stays h bs

/-- `uartputc_sync` finds the transmitter idle, and stores its character. The device sends a byte,
and raises its interrupt when there is no other one. `uartintr` reads `ISR`, and then has its
critical section, on a CPU that runs the process `me` or none. Anything else may happen to a process
outside of `uartwrite`. -/
inductive UartEvent
  | idle (c : Fin NCPU) (ch : UInt8)
  | putc (c : Fin NCPU)
  | shift
  | ack
  | intr (me : Option (Fin NPROC))
  | other (p : Fin NPROC) (x : Proc)

def uartAct (s : WaitState Uart (List UInt8)) : UartEvent → WaitState Uart (List UInt8)
  | .idle c ch =>
    if s.res.fifo = [] ∧ s.res.spin c = none then
      { s with res := { s.res with spin := Function.update s.res.spin c (some ch) } }
    else s
  | .putc c =>
    match s.res.spin c with
    | none => s
    | some ch =>
      { s with res := { s.res.thr (some c) ch with spin := Function.update s.res.spin c none } }
  | .shift =>
    match s.res.fifo with
    | [] => s
    | x :: rest =>
      { s with res := { s.res with
          fifo := rest, line := s.res.line ++ [x.2], irq := s.res.irq || rest.isEmpty } }
  | .ack =>
    -- the interrupt may also be one for input
    if s.res.acked then s else { s with res := { s.res with irq := false, acked := true } }
  | .intr me =>
    if s.res.acked ∧ ∀ p ∈ me, (s.kernel.proc p).state = .running then
      if s.res.fifo = [] then
        { s with
          kernel := me.elim (wakeupAll s.kernel txChan) (wakeup s.kernel · txChan)
          res := { s.res with txBusy := false, acked := false } }
      else { s with res := { s.res with acked := false } }
    else s
  | .other p x =>
    if s.left p = none ∧ ¬ x.SleepsOn txChan then { s with kernel := s.kernel.setProc p x } else s

def Uart.sources (r : Uart) : List (Option (Fin NCPU)) := r.fifo.map Prod.fst

/-- Nobody has two bytes in the FIFO, and nobody who is about to store one has any. -/
structure UartOk (r : Uart) : Prop where
  nodup : r.sources.Nodup
  spin : ∀ c, r.spin c ≠ none → some c ∉ r.sources
  ready : r.txBusy = false → none ∉ r.sources
  due : r.txBusy = true → r.fifo ≠ [] ∨ r.irq = true ∨ r.acked = true
  whole : r.written = r.line ++ r.fifo.map Prod.snd

variable {txChan} {r : Uart} {s : WaitState Uart (List UInt8)}

theorem UartOk.init : UartOk {} :=
  ⟨List.nodup_nil, fun _ hc => absurd rfl hc, fun _ => List.not_mem_nil,
    fun hb => (by cases hb), rfl⟩

theorem UartOk.length_le (h : UartOk r) : r.fifo.length ≤ NCPU + 1 := by
  have hcard := h.nodup.length_le_card
  rwa [Uart.sources, List.length_map, Fintype.card_option, Fintype.card_fin] at hcard

theorem UartOk.thr_eq (h : UartOk r) (src : Option (Fin NCPU)) (ch : UInt8) :
    r.thr src ch =
      { r with fifo := r.fifo ++ [(src, ch)], irq := false, written := r.written ++ [ch] } := by
  rw [Uart.thr, if_pos (h.length_le.trans_lt (by decide))]

/-- A byte from somebody who has none in the FIFO. -/
theorem UartOk.push (h : UartOk r) {src : Option (Fin NCPU)} (hsrc : src ∉ r.sources) (ch : UInt8) :
    ((r.thr src ch).sources = r.sources ++ [src]) ∧ (r.sources ++ [src]).Nodup ∧
      (r.thr src ch).fifo ≠ [] ∧
      (r.thr src ch).written = (r.thr src ch).line ++ (r.thr src ch).fifo.map Prod.snd := by
  rw [h.thr_eq]
  refine ⟨by simp [Uart.sources], ?_, by simp, by simp [h.whole]⟩
  exact List.nodup_append.mpr ⟨h.nodup, List.nodup_singleton src, by
    rintro a ha b hb rfl
    exact hsrc (List.mem_singleton.mp hb ▸ ha)⟩

theorem UartOk.write (h : UartOk r) (hb : r.txBusy = false) (ch : UInt8) :
    UartOk { r.thr none ch with txBusy := true } := by
  obtain ⟨hsrc, hnodup, hne, hwhole⟩ := h.push (h.ready hb) ch
  refine ⟨hsrc ▸ hnodup, fun c hc hmem => ?_, fun hfalse => (by cases hfalse), fun _ => .inl hne, hwhole⟩
  rw [show Uart.sources { r.thr none ch with txBusy := true } = r.sources ++ [none] from hsrc] at hmem
  exact h.spin c hc (by simpa using hmem)

theorem UartOk.loop (h : UartOk r) (bs : List UInt8) : UartOk (uartLoop r bs).1 := by
  fun_induction uartLoop r bs with
  | case1 => exact h
  | case2 => exact h
  | case3 r b bs hb ih => exact ih (h.write (Bool.eq_false_of_not_eq_true hb) b)

theorem UartOk.act (h : UartOk s.res) (a : UartEvent) : UartOk (uartAct txChan s a).res := by
  cases a with
  | idle c ch =>
    rw [uartAct]
    split_ifs with hg
    · refine ⟨h.nodup, fun d _ => ?_, h.ready, h.due, h.whole⟩
      simp [Uart.sources, hg.1]
    · exact h
  | putc c =>
    rw [uartAct]
    cases hc : s.res.spin c with
    | none => exact h
    | some ch =>
      obtain ⟨hsrc, hnodup, hne, hwhole⟩ := h.push (h.spin c (by simp [hc])) ch
      have hmem : ∀ x, x ∈ (s.res.thr (some c) ch).sources → x ∈ s.res.sources ∨ x = some c := by
        simp [hsrc]
      refine ⟨hsrc ▸ hnodup, fun d hd hin => ?_, fun hb hin => ?_, fun _ => .inl hne, hwhole⟩
      · have hdc : d ≠ c := by
          rintro rfl
          simp at hd
        refine (hmem _ hin).elim (h.spin d ?_) fun he => hdc (Option.some.inj he)
        simpa [hdc] using hd
      · exact (hmem _ hin).elim (h.ready hb) (fun he => (by cases he))
  | shift =>
    rw [uartAct]
    cases hf : s.res.fifo with
    | nil => exact h
    | cons x rest =>
      have hsrc : s.res.sources = x.1 :: rest.map Prod.fst := by rw [Uart.sources, hf]; rfl
      have hnodup := h.nodup
      rw [hsrc] at hnodup
      refine ⟨(List.nodup_cons.mp hnodup).2, fun c hc hin => h.spin c hc ?_,
        fun hb hin => h.ready hb ?_, fun _ => ?_, ?_⟩
      · exact hsrc ▸ List.mem_cons_of_mem _ hin
      · exact hsrc ▸ List.mem_cons_of_mem _ hin
      · cases rest <;> simp
      · simp [h.whole, hf]
  | ack =>
    rw [uartAct]
    split_ifs
    · exact h
    · exact ⟨h.nodup, h.spin, h.ready, fun _ => .inr (.inr rfl), h.whole⟩
  | intr me =>
    rw [uartAct]
    split_ifs with hg hf
    · refine ⟨h.nodup, h.spin, fun _ => ?_, fun hb => (by cases hb), h.whole⟩
      simp [Uart.sources, hf]
    · exact ⟨h.nodup, h.spin, h.ready, fun _ => .inl hf, h.whole⟩
    · exact h
  | other p x =>
    rw [uartAct]
    split_ifs
    · exact h
    · exact h

theorem Awake.uartAct (h : Awake (uartwrite txChan) s) (a : UartEvent) :
    Awake (uartwrite txChan) (uartAct txChan s a) := by
  have hkeep : ∀ r : Uart, r.txBusy = s.res.txBusy →
      Awake (uartwrite txChan) { s with res := r } := fun r hr q hq => hr.trans (h q hq)
  cases a with
  | idle c ch =>
    rw [Waits.uartAct]
    split_ifs
    · exact hkeep _ rfl
    · exact h
  | putc c =>
    rw [Waits.uartAct]
    cases s.res.spin c with
    | none => exact h
    | some ch => exact hkeep _ rfl
  | shift =>
    rw [Waits.uartAct]
    cases s.res.fifo with
    | nil => exact h
    | cons x rest => exact hkeep _ rfl
  | ack =>
    rw [Waits.uartAct]
    split_ifs
    · exact h
    · exact hkeep _ rfl
  | intr me =>
    rw [Waits.uartAct]
    split_ifs with hg hf
    · intro q hq
      cases me with
      | some p => exact absurd hq (wakeup_none (by simp [hg.2 p rfl]))
      | none =>
        simp only [Option.elim, wakeupAll, uartwrite] at hq
        split_ifs at hq with hs
        · cases hq.1
        · exact absurd hq hs
    · exact hkeep _ rfl
    · exact h
  | other p x =>
    rw [Waits.uartAct]
    split_ifs with hg
    · exact h.mono rfl fun q hq => sleepsOn_of_setProc hg.2 hq
    · exact h

/-- No byte is lost, and whoever waits for the transmitter waits for a byte on its way out or for an
interrupt that is still to be handled. -/
structure UartLaw (txChan : Nat) (s : WaitState Uart (List UInt8)) : Prop where
  whole : s.res.written = s.res.line ++ s.res.fifo.map Prod.snd
  room : s.res.fifo.length ≤ NCPU + 1
  awaited : ∀ i, (s.kernel.proc i).SleepsOn txChan →
    s.res.fifo ≠ [] ∨ s.res.irq = true ∨ s.res.acked = true

/-- In every order of the calls of `uartwrite` and `uartputc_sync`, the interrupts and the steps of
the device, what is stored in `THR` goes out in this order, and nobody is stranded. -/
theorem uart_loses_nothing {k : Kernel} (hawake : ∀ i, ¬ (k.proc i).SleepsOn txChan)
    (es : List (WaitEvent (List UInt8) UartEvent)) :
    Always (waitStep (uartwrite txChan) (uartAct txChan)) (UartLaw txChan)
      { kernel := k, res := {} } es := by
  refine always_of_inv (I := fun s => UartOk s.res ∧ Awake (uartwrite txChan) s) ?_ ?_
    ⟨UartOk.init, fun i hi => absurd hi (hawake i)⟩ es
  · rintro s e ⟨hok, hs⟩
    exact ⟨waitStep_keeps (J := fun r _ => UartOk r) (fun _ _ _ bs _ h => h.loop bs)
      (fun _ a h => h.act a) hok e, hs.step (fun _ a h => h.uartAct a) e⟩
  · rintro s ⟨hok, hs⟩
    exact ⟨hok.whole, hok.length_le, fun i hi => hok.due (hs i hi)⟩

/-- A process sends two bytes while a CPU echoes a character. -/
theorem uart_loses_nothing_echo : Always (waitStep (uartwrite 9) (uartAct 9)) (UartLaw 9)
    { kernel := { proc := fun _ => { state := .running } }, res := {} }
    [.own (.idle 0 120), .call 1 [97, 98], .own (.putc 0), .own .shift, .own .shift, .own .ack,
      .own (.intr none), .dispatch 1] :=
  uart_loses_nothing (fun _ hi => by cases hi.1) _

end OsProject.Waits
