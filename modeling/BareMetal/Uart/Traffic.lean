import BareMetal.CS.Transition
import BareMetal.Uart.Model

/-!
# Characters through the rings

`Traffic` is the mini UART with what has gone through it so far. Every call of a handler, of
`irq_router`, of `async_uart_send` or of `async_uart_getc` is a step, in any order.

The receiving side asks whether its ring is full, so it is a queue. The sending side does
not: a character that is sent while 255 are waiting makes the indices equal, and the ring
counts as empty.

## Main results

* `Run.receives_in_order` — the receive ring is a bounded queue
* `Run.transmits_iff` — the transmit ring is one as long as it has room
-/

namespace BareMetal.Uart

open CS

/-- The mini UART, the bytes taken from `AUX_MU_IO`, those that `async_uart_getc` has removed
from the ring, the characters sent and those written to `AUX_MU_IO`. -/
structure Traffic where
  uart : MiniUart
  taken : List UInt8
  removed : List UInt8
  sent : List UInt8
  written : List UInt8

/-- The state that `uart_init` leaves. -/
def boot : Traffic where
  uart := ⟨⟨fun _ => 0, 0, 0⟩, ⟨fun _ => 0, 0, 0⟩, 0⟩
  taken := []
  removed := []
  sent := []
  written := []

/-- The calls, with what the registers hold at them. -/
inductive UartEvent
  | receive (io : BitVec 32)
  | getc
  | send (c : UInt8)
  | transmit
  | irq (iir io : BitVec 32)

/-- A call that returns. -/
inductive UartStep : Traffic → UartEvent → Traffic → Prop
  | receive {s : Traffic} {io : BitVec 32} {taken : Option UInt8} {u : MiniUart}
      (returns : uartInterruptRHandler io s.uart = .ok (taken, u)) :
      UartStep s (.receive io) { s with uart := u, taken := s.taken ++ taken.toList }
  | getc {s : Traffic} {c : UInt8} {u : MiniUart} (returns : asyncUartGetc s.uart = .ok (c, u)) :
      UartStep s .getc { s with
        uart := u
        removed := s.removed ++ if s.uart.rx.ridx = s.uart.rx.widx then [] else [c] }
  | send {s : Traffic} {c : UInt8} {u : MiniUart} (returns : asyncUartSend c s.uart = .ok u) :
      UartStep s (.send c) { s with uart := u, sent := s.sent ++ [c] }
  | transmit {s : Traffic} {written : Option UInt8} {u : MiniUart}
      (returns : uartInterruptWHandler s.uart = .ok (written, u)) :
      UartStep s .transmit { s with uart := u, written := s.written ++ written.toList }
  | irq {s : Traffic} {iir io : BitVec 32} {taken written : Option UInt8} {u : MiniUart}
      (returns : irqRouter iir io s.uart = .ok (taken, written, u)) :
      UartStep s (.irq iir io) { s with
        uart := u
        taken := s.taken ++ taken.toList
        written := s.written ++ written.toList }

/-- The characters in the transmit ring. -/
def Traffic.waiting (s : Traffic) : List UInt8 := s.uart.tx.contents maxBufSize

/-- The characters in the receive ring. -/
def Traffic.buffered (s : Traffic) : List UInt8 := s.uart.rx.contents maxBufSize

/-! ## What a step does to the rings -/

variable {s t : Traffic} {e : UartEvent} {w : List UartEvent}

/-- What a step does to the receive ring: it puts a byte in, takes one out, or leaves it. -/
inductive RxEffect (s t : Traffic) : Prop
  | take {r : UInt8} (room : s.uart.rx.count maxBufSize + 1 ≠ maxBufSize)
      (rx : t.uart.rx = s.uart.rx.push maxBufSize (newline r)) (taken : t.taken = s.taken ++ [r])
      (removed : t.removed = s.removed)
  | remove (filled : s.uart.rx.ridx ≠ s.uart.rx.widx) (rx : t.uart.rx = s.uart.rx.pop maxBufSize)
      (taken : t.taken = s.taken)
      (removed : t.removed = s.removed ++ [s.uart.rx.cells s.uart.rx.ridx])
  | keep (rx : t.uart.rx = s.uart.rx) (taken : t.taken = s.taken) (removed : t.removed = s.removed)

/-- What a step does to the transmit ring. The interrupt is enabled behind every step that
moves a character, and disabled only when the ring is empty. -/
inductive TxEffect (s t : Traffic) : UartEvent → Prop
  | send {c : UInt8} (tx : t.uart.tx = s.uart.tx.push maxBufSize c) (sent : t.sent = s.sent ++ [c])
      (written : t.written = s.written) (enabled : WriteEnabled t.uart) : TxEffect s t (.send c)
  | write {e : UartEvent} (other : ∀ c, e ≠ .send c) (filled : s.uart.tx.ridx ≠ s.uart.tx.widx)
      (tx : t.uart.tx = s.uart.tx.pop maxBufSize) (sent : t.sent = s.sent)
      (written : t.written = s.written ++ [s.uart.tx.cells s.uart.tx.ridx])
      (enabled : WriteEnabled t.uart) : TxEffect s t e
  | keep {e : UartEvent} (other : ∀ c, e ≠ .send c) (tx : t.uart.tx = s.uart.tx)
      (sent : t.sent = s.sent) (written : t.written = s.written)
      (enabled : s.uart.tx.ridx ≠ s.uart.tx.widx → WriteEnabled s.uart → WriteEnabled t.uart) :
      TxEffect s t e

/-- What `uart_interrupt_r_handler` does. -/
theorem receive_effect {io : BitVec 32} {taken : Option UInt8} {u u' : MiniUart}
    (ok : u.rx.Ok maxBufSize) (returns : uartInterruptRHandler io u = .ok (taken, u')) :
    u'.tx = u.tx ∧ (WriteEnabled u' ↔ WriteEnabled u) ∧
      (taken = none ∧ u'.rx = u.rx ∨ ∃ r, taken = some r ∧
        u.rx.count maxBufSize + 1 ≠ maxBufSize ∧ u'.rx = u.rx.push maxBufSize (newline r)) := by
  by_cases full : u.rx.count maxBufSize + 1 = maxBufSize
  · rw [uartInterruptRHandler_full ok full] at returns
    obtain ⟨rfl, rfl⟩ := Prod.mk.inj (Except.ok.inj returns)
    exact ⟨rfl, writeEnabled_enableUartR, .inl ⟨rfl, rfl⟩⟩
  · rw [uartInterruptRHandler_room ok full] at returns
    obtain ⟨rfl, rfl⟩ := Prod.mk.inj (Except.ok.inj returns)
    exact ⟨rfl, writeEnabled_enableUartR, .inr ⟨_, rfl, full, rfl⟩⟩

/-- What `uart_interrupt_w_handler` does. -/
theorem transmit_effect {written : Option UInt8} {u u' : MiniUart} (ok : u.tx.Ok maxBufSize)
    (returns : uartInterruptWHandler u = .ok (written, u')) :
    u'.rx = u.rx ∧
      (written = none ∧ u'.tx = u.tx ∧ u.tx.ridx = u.tx.widx ∨
        u.tx.ridx ≠ u.tx.widx ∧ written = some (u.tx.cells u.tx.ridx) ∧
          u'.tx = u.tx.pop maxBufSize ∧ WriteEnabled u') := by
  by_cases empty : u.tx.ridx = u.tx.widx
  · rw [uartInterruptWHandler_empty empty] at returns
    obtain ⟨rfl, rfl⟩ := Prod.mk.inj (Except.ok.inj returns)
    exact ⟨rfl, .inl ⟨rfl, rfl, empty⟩⟩
  · rw [uartInterruptWHandler_filled ok empty] at returns
    obtain ⟨rfl, rfl⟩ := Prod.mk.inj (Except.ok.inj returns)
    exact ⟨rfl, .inr ⟨empty, rfl, rfl, writeEnabled_enableUartW⟩⟩

/-- The two effects of a step. -/
theorem UartStep.effects (ok : s.uart.Ok) (step : UartStep s e t) :
    RxEffect s t ∧ TxEffect s t e := by
  cases step with
  | receive returns =>
    obtain ⟨tx, enabled, ⟨rfl, rx⟩ | ⟨r, rfl, room, rx⟩⟩ := receive_effect ok.rx returns
    · exact ⟨.keep rx (by simp) rfl, .keep (by simp) tx rfl rfl fun _ => enabled.mpr⟩
    · exact ⟨.take room rx rfl rfl, .keep (by simp) tx rfl rfl fun _ => enabled.mpr⟩
  | getc returns =>
    by_cases empty : s.uart.rx.ridx = s.uart.rx.widx
    · rw [asyncUartGetc_empty empty] at returns
      obtain ⟨rfl, rfl⟩ := Prod.mk.inj (Except.ok.inj returns)
      exact ⟨.keep rfl rfl (by simp [empty]), .keep (by simp) rfl rfl rfl fun _ => id⟩
    · rw [asyncUartGetc_filled ok.rx empty] at returns
      obtain ⟨rfl, rfl⟩ := Prod.mk.inj (Except.ok.inj returns)
      exact ⟨.remove empty rfl rfl (by simp [empty]), .keep (by simp) rfl rfl rfl fun _ => id⟩
  | send returns =>
    rw [asyncUartSend_eq ok.tx] at returns
    obtain rfl := Except.ok.inj returns
    exact ⟨.keep rfl rfl rfl, .send rfl rfl rfl writeEnabled_enableUartW⟩
  | transmit returns =>
    obtain ⟨rx, ⟨rfl, tx, empty⟩ | ⟨filled, rfl, tx, enabled⟩⟩ := transmit_effect ok.tx returns
    · exact ⟨.keep rx rfl rfl, .keep (by simp) tx rfl (by simp) fun filled => absurd empty filled⟩
    · exact ⟨.keep rx rfl rfl, .write (by simp) filled tx rfl rfl enabled⟩
  | irq returns =>
    unfold irqRouter at returns
    split_ifs at returns with can_write can_read
    · -- the bit is cleared in front of the handler, which sets it again
      obtain ⟨⟨wrote, u₁⟩, handled, last⟩ := outcome_bind_eq_ok.mp returns
      simp only [outcome_pure, Except.ok.injEq, Prod.mk.injEq] at last
      obtain ⟨rfl, rfl, rfl⟩ := last
      obtain ⟨rx, ⟨rfl, tx, empty⟩ | ⟨filled, rfl, tx, enabled⟩⟩ :=
        transmit_effect ok.disableUartWInterrupt.tx handled
      · exact ⟨.keep rx (by simp) rfl,
          .keep (by simp) tx rfl (by simp) fun filled => absurd empty filled⟩
      · exact ⟨.keep rx (by simp) rfl, .write (by simp) filled tx rfl rfl enabled⟩
    · obtain ⟨⟨took, u₁⟩, handled, last⟩ := outcome_bind_eq_ok.mp returns
      simp only [outcome_pure, Except.ok.injEq, Prod.mk.injEq] at last
      obtain ⟨rfl, rfl, rfl⟩ := last
      obtain ⟨tx, enabled, effect⟩ := receive_effect ok.disableUartRInterrupt.rx handled
      rw [writeEnabled_disableUartR] at enabled
      obtain ⟨rfl, rx⟩ | ⟨r, rfl, room, rx⟩ := effect
      · exact ⟨.keep rx (by simp) rfl, .keep (by simp) tx rfl (by simp) fun _ => enabled.mpr⟩
      · exact ⟨.take room rx rfl rfl, .keep (by simp) tx rfl (by simp) fun _ => enabled.mpr⟩
    · simp only [Except.ok.injEq, Prod.mk.injEq] at returns
      obtain ⟨rfl, rfl, rfl⟩ := returns
      exact ⟨.keep rfl (by simp) rfl, .keep (by simp) rfl rfl (by simp) fun _ => id⟩

/-! ## Indices -/

/-- A step keeps the indices inside. -/
theorem UartStep.ok (step : UartStep s e t) (ok : s.uart.Ok) : t.uart.Ok := by
  obtain ⟨rx_effect, tx_effect⟩ := step.effects ok
  constructor
  · cases tx_effect with
    | send tx => exact tx ▸ ok.tx.push _
    | write _ _ tx => exact tx ▸ ok.tx.pop
    | keep _ tx => exact tx ▸ ok.tx
  · cases rx_effect with
    | take _ rx => exact rx ▸ ok.rx.push _
    | remove _ rx => exact rx ▸ ok.rx.pop
    | keep rx => exact rx ▸ ok.rx

theorem boot_ok : boot.uart.Ok := ⟨⟨by decide, by decide⟩, by decide, by decide⟩

theorem Run.ok (run : Run UartStep boot w s) : s.uart.Ok :=
  run.preserves (fun s => s.uart.Ok) (fun _ _ _ ok step => step.ok ok) boot_ok

/-! ## Receiving -/

/-- What was removed and what is in the ring is what was taken, in the same order. -/
def Receives (s : Traffic) : Prop := s.removed ++ s.buffered = s.taken.map newline

theorem UartStep.receives (step : UartStep s e t) (ok : s.uart.Ok) (receives : Receives s) :
    Receives t := by
  have bound := ok.rx.count_lt
  cases (step.effects ok).1 with
  | @take r room rx taken removed =>
    have grown := ok.rx.contents_push (newline r) (by omega)
    rw [Receives, Traffic.buffered, rx, grown, taken, removed, List.map_append,
      ← List.append_assoc]
    exact congrArg (· ++ _) receives
  | remove filled rx taken removed =>
    rw [Receives, Traffic.buffered, rx, taken, removed, List.append_assoc, List.singleton_append,
      ← ok.rx.contents_pop filled]
    exact receives
  | keep rx taken removed =>
    rw [Receives, Traffic.buffered, rx, taken, removed]
    exact receives

/-- **The receive ring is a bounded queue.** Whatever is called in which order, its indices
are below `MAX_BUF_SIZE`, and what was removed followed by what is in the ring is what was
taken from the device, with newlines for carriage returns. The handler takes a byte exactly
when fewer than 255 are in the ring, and both calls return. -/
theorem Run.receives_in_order (run : Run UartStep boot w s) :
    (s.uart.rx.widx < 256 ∧ s.uart.rx.ridx < 256) ∧
    s.removed ++ s.buffered = s.taken.map newline ∧
    (∀ io, ∃ taken u, uartInterruptRHandler io s.uart = .ok (taken, u) ∧
      taken = if s.buffered.length < 255 then some (toChar io) else none) ∧
    ∃ c u, asyncUartGetc s.uart = .ok (c, u) ∧
      c = s.buffered.head?.getD 0 ∧ u.rx.contents maxBufSize = s.buffered.tail := by
  have ok := Run.ok run
  have receives : Receives s := by
    induction run with
    | refl => rfl
    | snoc run last ih => exact last.receives (Run.ok run) (ih (Run.ok run))
  refine ⟨⟨ok.rx.widx_lt, ok.rx.ridx_lt⟩, receives, fun io => ?_, ?_⟩
  · rw [Traffic.buffered, RingBuffer.length_contents]
    have bound := ok.rx.count_lt
    by_cases full : s.uart.rx.count maxBufSize + 1 = maxBufSize
    · refine ⟨_, _, uartInterruptRHandler_full ok.rx full, (if_neg ?_).symm⟩
      unfold maxBufSize at full ⊢
      omega
    · refine ⟨_, _, uartInterruptRHandler_room ok.rx full, (if_pos ?_).symm⟩
      unfold maxBufSize at full bound ⊢
      omega
  · by_cases empty : s.uart.rx.ridx = s.uart.rx.widx
    · refine ⟨_, _, asyncUartGetc_empty empty, ?_⟩
      rw [Traffic.buffered, ok.rx.contents_eq_nil.mpr empty]
      exact ⟨rfl, rfl⟩
    · refine ⟨_, _, asyncUartGetc_filled ok.rx empty, ?_⟩
      rw [Traffic.buffered, ok.rx.contents_pop empty]
      exact ⟨rfl, rfl⟩

/-- Two bytes are received, and the first is read. -/
theorem twoBytes_received : ∃ s, Run UartStep boot [.receive 13, .receive 97, .getc] s ∧
    s.removed = [10] ∧ s.buffered = [97] ∧ s.removed ++ s.buffered = s.taken.map newline := by
  have first : UartStep boot (.receive 13) _ := .receive (uartInterruptRHandler_room
    boot_ok.rx (by decide))
  have ok := first.ok boot_ok
  have second : UartStep _ (.receive 97) _ := .receive (uartInterruptRHandler_room
    ok.rx (by decide))
  have third : UartStep _ .getc _ := .getc (asyncUartGetc_filled (second.ok ok).rx (by decide))
  have run := ((Run.single first).snoc second).snoc third
  exact ⟨_, run, by decide, by decide, (Run.receives_in_order run).2.1⟩

/-! ## Transmitting -/

/-- The transmit ring is a queue that the interrupt will empty: what was written to the device
and what is in the ring is what was sent, in the same order, and the interrupt is enabled while
there is something in the ring. -/
structure Transmits (s : Traffic) : Prop where
  ok : s.uart.Ok
  in_order : s.written ++ s.waiting = s.sent
  enabled : s.waiting ≠ [] → WriteEnabled s.uart

theorem boot_transmits : Transmits boot := ⟨boot_ok, rfl, fun filled => absurd rfl filled⟩

/-- A character is sent only when fewer than 255 are waiting. -/
def HasRoom (s : Traffic) : UartEvent → Prop
  | .send _ => s.waiting.length < 255
  | _ => True

theorem hasRoom_of_other (other : ∀ c, e ≠ .send c) : HasRoom s e := by
  cases e with
  | send c => exact absurd rfl (other c)
  | receive | getc | transmit | irq => trivial

/-- A character that is sent when there is no room takes all that are waiting with it. -/
theorem TxEffect.waiting_full {c : UInt8} (ok : s.uart.Ok) (effect : TxEffect s t (.send c))
    (full : ¬ HasRoom s (.send c)) : t.waiting = [] := by
  have bound := ok.tx.count_lt
  rw [HasRoom, Traffic.waiting, RingBuffer.length_contents] at full
  cases effect with
  | send tx =>
    have none_left := ok.tx.count_push_full c (by unfold maxBufSize at *; omega)
    rw [Traffic.waiting, tx, ← List.length_eq_zero_iff, RingBuffer.length_contents, none_left]
  | write other => exact absurd rfl (other c)
  | keep other => exact absurd rfl (other c)

/-- With room it becomes the last one. -/
theorem TxEffect.waiting_room {c : UInt8} (ok : s.uart.Ok) (effect : TxEffect s t (.send c))
    (room : HasRoom s (.send c)) : t.waiting = s.waiting ++ [c] := by
  rw [HasRoom, Traffic.waiting, RingBuffer.length_contents] at room
  cases effect with
  | send tx =>
    rw [Traffic.waiting, tx, ok.tx.contents_push c (by unfold maxBufSize at *; omega)]
    rfl
  | write other => exact absurd rfl (other c)
  | keep other => exact absurd rfl (other c)

/-- One step keeps the queue exactly when there is room. -/
theorem UartStep.sent_iff (transmits : Transmits s) (step : UartStep s e t) :
    Transmits t ↔ HasRoom s e := by
  have ok := transmits.ok
  have effect := (step.effects ok).2
  cases effect with
  | @send c tx sent written enabled =>
    have effect : TxEffect s t (.send c) := .send tx sent written enabled
    constructor
    · intro kept
      by_contra full
      -- the new character would have to be among the written ones, with all that were waiting
      have lost := kept.in_order
      rw [effect.waiting_full ok full, List.append_nil, written, sent,
        ← transmits.in_order] at lost
      simpa using congrArg List.length lost
    · intro room
      refine ⟨step.ok ok, ?_, fun _ => enabled⟩
      rw [effect.waiting_room ok room, written, sent, ← transmits.in_order, List.append_assoc]
  | write other filled tx sent written enabled =>
    refine iff_of_true ⟨step.ok ok, ?_, fun _ => enabled⟩ (hasRoom_of_other other)
    rw [Traffic.waiting, tx, sent, written, List.append_assoc, List.singleton_append,
      ← ok.tx.contents_pop filled]
    exact transmits.in_order
  | keep other tx sent written enabled =>
    refine iff_of_true ⟨step.ok ok, ?_, fun filled => ?_⟩ (hasRoom_of_other other)
    · rw [Traffic.waiting, tx, sent, written]
      exact transmits.in_order
    · rw [Traffic.waiting, tx] at filled
      exact enabled (filled ∘ ok.tx.contents_eq_nil.mpr) (transmits.enabled filled)

/-- **The transmit ring is a queue exactly as long as it has room**: the runs in which a
character is sent only when fewer than 255 are waiting are those along which what was written
and what is waiting is what was sent, and the transmit interrupt is enabled behind every call
that leaves characters in the ring. -/
theorem Run.transmits_iff : Run (Guarded UartStep HasRoom) boot w s ↔
    Run (fun s e t => UartStep s e t ∧ Transmits t) boot w s :=
  Run.guarded_iff boot_transmits fun _ _ _ => UartStep.sent_iff

/-- Up to 255 characters wait in the ring. -/
theorem sends (c : UInt8) : ∀ n ≤ 255, ∃ s, Run UartStep boot (List.replicate n (.send c)) s ∧
    s.written = [] ∧ s.sent = List.replicate n c ∧ s.waiting = List.replicate n c
  | 0, _ => ⟨boot, .refl _, rfl, rfl, rfl⟩
  | n + 1, bound => by
    obtain ⟨s, run, written, sent, waiting⟩ := sends c n (by omega)
    have ok := Run.ok run
    have step : UartStep s (.send c) _ := .send (asyncUartSend_eq ok.tx c)
    have room : HasRoom s (.send c) := by
      rw [HasRoom, waiting, List.length_replicate]
      omega
    have longer := run.snoc step
    rw [← List.replicate_succ'] at longer
    refine ⟨_, longer, written, ?_, ?_⟩
    · rw [List.replicate_succ', ← sent]
    · rw [(step.effects ok).2.waiting_room ok room, waiting, List.replicate_succ']

/-- With one more, sent before the device takes any, none is left. -/
theorem sends_lost : ∃ s, Run UartStep boot (List.replicate 256 (.send 97)) s ∧
    s.sent = List.replicate 256 97 ∧ s.written ++ s.waiting = [] := by
  obtain ⟨s, run, written, sent, waiting⟩ := sends 97 255 le_rfl
  have ok := Run.ok run
  have step : UartStep s (.send 97) _ := .send (asyncUartSend_eq ok.tx 97)
  have full : ¬ HasRoom s (.send 97) := by
    rw [HasRoom, waiting, List.length_replicate]
    exact lt_irrefl 255
  have longer := run.snoc step
  rw [← List.replicate_succ'] at longer
  refine ⟨_, longer, ?_, ?_⟩
  · change s.sent ++ [97] = List.replicate (255 + 1) 97
    rw [List.replicate_succ', ← sent]
  · rw [(step.effects ok).2.waiting_full ok full, List.append_nil]
    exact written

end BareMetal.Uart
