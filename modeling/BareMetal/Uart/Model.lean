import BareMetal.CS.Outcome
import BareMetal.CS.RingBuffer
import Mathlib.Tactic.Common

/-!
# The buffers of `lib/uart.c`

Characters go through two ring buffers of `MAX_BUF_SIZE` bytes. The handlers of the interrupts
of the mini UART move them between the rings and `AUX_MU_IO`, and `async_uart_send` and
`async_uart_getc` are at the other ends. What a read of `AUX_MU_IO` gives and what
`AUX_MU_IIR` holds are arguments; of a handler the model returns the byte that it took from
`AUX_MU_IO` or the one that it wrote there. `AUX_MU_IER` is a word that is read back as it was
written.

A call runs to its end before another one starts. An index outside of a buffer is the fault
`outOfBounds`.
-/

namespace BareMetal.Uart

open CS

/-- `MAX_BUF_SIZE`. -/
def maxBufSize : ℕ := 0x100

/-- The buffers `uart_tx_buffer` and `uart_rx_buffer`, each with its `widx` and `ridx`, and the
register `AUX_MU_IER`. -/
structure MiniUart where
  tx : RingBuffer UInt8
  rx : RingBuffer UInt8
  ier : BitVec 32

/-- The byte at an index. -/
def loadByte (ring : RingBuffer UInt8) (i : ℕ) : Outcome UInt8 :=
  if i < maxBufSize then .ok (ring.cells i) else .error .outOfBounds

/-- The buffer after a store at `widx`. -/
def storeByte (ring : RingBuffer UInt8) (byte : UInt8) : Outcome (RingBuffer UInt8) :=
  if ring.widx < maxBufSize then
    .ok { ring with cells := Function.update ring.cells ring.widx byte }
  else .error .outOfBounds

/-! ## The bits of `AUX_MU_IER` -/

/-- `enable_uart_r_interrupt`. -/
def enableUartRInterrupt (u : MiniUart) : MiniUart := { u with ier := u.ier ||| 1 }

/-- `enable_uart_w_interrupt`. -/
def enableUartWInterrupt (u : MiniUart) : MiniUart := { u with ier := u.ier ||| 2 }

/-- `disable_uart_r_interrupt`. -/
def disableUartRInterrupt (u : MiniUart) : MiniUart := { u with ier := u.ier &&& ~~~1 }

/-- `disable_uart_w_interrupt`. -/
def disableUartWInterrupt (u : MiniUart) : MiniUart := { u with ier := u.ier &&& ~~~2 }

/-- The transmit interrupt is enabled. -/
def WriteEnabled (u : MiniUart) : Prop := u.ier.getLsbD 1 = true

/-! ## Receiving -/

/-- `(char)(*AUX_MU_IO)`. -/
def toChar (io : BitVec 32) : UInt8 := .ofBitVec (io.setWidth 8)

/-- `r=='\r'?'\n':r`. -/
def newline (r : UInt8) : UInt8 := if r = 13 then 10 else r

/-- `uart_interrupt_r_handler`, with the byte that it takes from `AUX_MU_IO`. -/
def uartInterruptRHandler (io : BitVec 32) (u : MiniUart) : Outcome (Option UInt8 × MiniUart) :=
  if (u.rx.widx + 1) % maxBufSize = u.rx.ridx then .ok (none, enableUartRInterrupt u)
  else do
    let r := toChar io
    let ring ← storeByte u.rx (newline r)
    let widx := ring.widx + 1
    let widx := if widx ≥ maxBufSize then 0 else widx
    return (some r, enableUartRInterrupt { u with rx := { ring with widx := widx } })

/-- `async_uart_getc`. -/
def asyncUartGetc (u : MiniUart) : Outcome (UInt8 × MiniUart) :=
  if u.rx.ridx = u.rx.widx then .ok (0, u)
  else do
    let r ← loadByte u.rx u.rx.ridx
    let ridx := u.rx.ridx + 1
    let ridx := if ridx ≥ maxBufSize then 0 else ridx
    return (r, { u with rx := { u.rx with ridx := ridx } })

/-! ## Transmitting -/

/-- `uart_interrupt_w_handler`, with the character that it writes to `AUX_MU_IO`. -/
def uartInterruptWHandler (u : MiniUart) : Outcome (Option UInt8 × MiniUart) :=
  if u.tx.ridx = u.tx.widx then .ok (none, disableUartWInterrupt u)
  else do
    let c ← loadByte u.tx u.tx.ridx
    let ridx := u.tx.ridx + 1
    let ridx := if ridx ≥ maxBufSize then 0 else ridx
    return (some c, enableUartWInterrupt { u with tx := { u.tx with ridx := ridx } })

/-- `async_uart_send`. -/
def asyncUartSend (c : UInt8) (u : MiniUart) : Outcome MiniUart := do
  let ring ← storeByte u.tx c
  let widx := ring.widx + 1
  let widx := if widx ≥ maxBufSize then 0 else widx
  return enableUartWInterrupt { u with tx := { ring with widx := widx } }

/-! ## `irq_router` -/

/-- The branch of `irq_router` for the mini UART, with the byte taken from `AUX_MU_IO` and the
character written there. -/
def irqRouter (iir io : BitVec 32) (u : MiniUart) :
    Outcome (Option UInt8 × Option UInt8 × MiniUart) :=
  if iir &&& (0b01 <<< 1) ≠ 0 then do
    let (written, u) ← uartInterruptWHandler (disableUartWInterrupt u)
    return (none, written, u)
  else if iir &&& (0b10 <<< 1) ≠ 0 then do
    let (taken, u) ← uartInterruptRHandler io (disableUartRInterrupt u)
    return (taken, none, u)
  else .ok (none, none, u)

/-! ## What the calls do to the rings -/

variable {u : MiniUart} {io iir : BitVec 32}

/-- Both rings have their indices inside. -/
structure MiniUart.Ok (u : MiniUart) : Prop where
  tx : u.tx.Ok maxBufSize
  rx : u.rx.Ok maxBufSize

@[simp] theorem enableUartRInterrupt_tx : (enableUartRInterrupt u).tx = u.tx := rfl

@[simp] theorem enableUartRInterrupt_rx : (enableUartRInterrupt u).rx = u.rx := rfl

@[simp] theorem disableUartRInterrupt_tx : (disableUartRInterrupt u).tx = u.tx := rfl

@[simp] theorem disableUartRInterrupt_rx : (disableUartRInterrupt u).rx = u.rx := rfl

@[simp] theorem disableUartWInterrupt_tx : (disableUartWInterrupt u).tx = u.tx := rfl

@[simp] theorem disableUartWInterrupt_rx : (disableUartWInterrupt u).rx = u.rx := rfl

theorem writeEnabled_enableUartW : WriteEnabled (enableUartWInterrupt u) := by
  simp [WriteEnabled, enableUartWInterrupt]

/-- The bit of the other interrupt is left alone. -/
theorem writeEnabled_enableUartR : WriteEnabled (enableUartRInterrupt u) ↔ WriteEnabled u := by
  simp [WriteEnabled, enableUartRInterrupt]

theorem writeEnabled_disableUartR : WriteEnabled (disableUartRInterrupt u) ↔ WriteEnabled u := by
  simp [WriteEnabled, disableUartRInterrupt]

theorem MiniUart.Ok.disableUartRInterrupt (ok : u.Ok) : (disableUartRInterrupt u).Ok :=
  ⟨ok.tx, ok.rx⟩

theorem MiniUart.Ok.disableUartWInterrupt (ok : u.Ok) : (disableUartWInterrupt u).Ok :=
  ⟨ok.tx, ok.rx⟩

/-- The handler of the receive interrupt on a full ring. -/
theorem uartInterruptRHandler_full (ok : u.rx.Ok maxBufSize)
    (full : u.rx.count maxBufSize + 1 = maxBufSize) :
    uartInterruptRHandler io u = .ok (none, enableUartRInterrupt u) :=
  if_pos (ok.full_iff.mpr full)

/-- It puts the byte it takes into the ring, when there is room. -/
theorem uartInterruptRHandler_room (ok : u.rx.Ok maxBufSize)
    (room : u.rx.count maxBufSize + 1 ≠ maxBufSize) :
    uartInterruptRHandler io u = .ok (some (toChar io),
      enableUartRInterrupt { u with rx := u.rx.push maxBufSize (newline (toChar io)) }) := by
  rw [uartInterruptRHandler, if_neg (room ∘ ok.full_iff.mp)]
  dsimp only
  rw [storeByte, if_pos ok.widx_lt]
  rfl

theorem asyncUartGetc_empty (empty : u.rx.ridx = u.rx.widx) : asyncUartGetc u = .ok (0, u) :=
  if_pos empty

theorem asyncUartGetc_filled (ok : u.rx.Ok maxBufSize) (filled : u.rx.ridx ≠ u.rx.widx) :
    asyncUartGetc u = .ok (u.rx.cells u.rx.ridx, { u with rx := u.rx.pop maxBufSize }) := by
  rw [asyncUartGetc, if_neg filled, loadByte, if_pos ok.ridx_lt]
  rfl

theorem uartInterruptWHandler_empty (empty : u.tx.ridx = u.tx.widx) :
    uartInterruptWHandler u = .ok (none, disableUartWInterrupt u) :=
  if_pos empty

theorem uartInterruptWHandler_filled (ok : u.tx.Ok maxBufSize)
    (filled : u.tx.ridx ≠ u.tx.widx) : uartInterruptWHandler u = .ok
      (some (u.tx.cells u.tx.ridx), enableUartWInterrupt { u with tx := u.tx.pop maxBufSize }) := by
  rw [uartInterruptWHandler, if_neg filled, loadByte, if_pos ok.ridx_lt]
  rfl

/-- `async_uart_send` does not ask whether there is room. -/
theorem asyncUartSend_eq (ok : u.tx.Ok maxBufSize) (c : UInt8) : asyncUartSend c u =
    .ok (enableUartWInterrupt { u with tx := u.tx.push maxBufSize c }) := by
  rw [asyncUartSend, storeByte, if_pos ok.widx_lt]
  rfl

end BareMetal.Uart
