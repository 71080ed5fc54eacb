import Mathlib.Algebra.GroupWithZero.Nat
import Dmos.Lib.Ring
import Dmos.Lib.Run

namespace Dmos.Uart

open Dmos.Lib

def bufferSize : Nat := 1024

/-- Where a call of `uart_advance_putc` stands: the statement it is about to
execute, with its locals. `UART0_IMSC |= 0x20` is a read and a write. -/
inductive Putc where
  | idle
  | next (c : BitVec 8)
  | wait (c : BitVec 8) (nextWriteIdx : Nat)
  | store (c : BitVec 8) (nextWriteIdx : Nat)
  | publish (c : BitVec 8) (nextWriteIdx : Nat)
  | readImsc
  | writeImsc (imsc : BitVec 32)
  deriving DecidableEq, Repr

/-- Where a call of `uart_advance_getc` stands. -/
inductive Getc where
  | idle
  | wait
  | load
  | advance (c : BitVec 8)
  | ret (c : BitVec 8)
  deriving DecidableEq, Repr

/-- Where `uart_interrupt_handler` stands: the conditions that it evaluates and the
statements that it executes, in the order of the source. -/
inductive Handler where
  | idle
  | rxTest
  | rxLoop
  | rxRead
  | rxNext (c : BitVec 8)
  | rxFull (c : BitVec 8) (nextWriteIdx : Nat)
  | rxStore (c : BitVec 8) (nextWriteIdx : Nat)
  | rxPublish (c : BitVec 8) (nextWriteIdx : Nat)
  | rxClear
  | txTest
  | txLoop
  | txWrite
  | txAdvance
  | txDrained
  | txDisable
  | txClear
  deriving DecidableEq, Repr

/-- The globals of the driver, the interrupt mask of the device and the three
programs on the core. The lists record what has happened so far. -/
structure State where
  rxBuffer : Nat → BitVec 8
  rxReadIdx : Nat
  rxWriteIdx : Nat
  txBuffer : Nat → BitVec 8
  txReadIdx : Nat
  txWriteIdx : Nat
  imsc : BitVec 32
  putc : Putc
  getc : Getc
  handler : Handler
  /-- The characters whose `putc` has stored its index. -/
  stored : List (BitVec 8)
  /-- The characters written to `UART0_DR`. -/
  written : List (BitVec 8)
  /-- The bytes read from `UART0_DR`, each with the number of characters that were
  in the ring then. -/
  received : List (BitVec 8 × Nat)
  accepted : List (BitVec 8)
  discarded : List (BitVec 8)
  /-- The characters that `getc` has returned. -/
  returned : List (BitVec 8)

namespace State

/-- The ring from `tx_read_idx` to `tx_write_idx`. -/
def txRing (s : State) : List (BitVec 8) :=
  Ring.contents bufferSize s.txBuffer s.txReadIdx s.txWriteIdx

def rxRing (s : State) : List (BitVec 8) :=
  Ring.contents bufferSize s.rxBuffer s.rxReadIdx s.rxWriteIdx

/-- What `uart_advance_init` does to the state here: both interrupts are enabled. -/
def uartAdvanceInit (s : State) : State :=
  let s := { s with imsc := 0 }
  { s with imsc := 0b11 <<< 4 }

def uartAdvancePutc (s : State) : Option State :=
  match s.putc with
  | .idle => none
  | .next c => some { s with putc := .wait c ((s.txWriteIdx + 1) % bufferSize) }
  | .wait c next => if next = s.txReadIdx then some s else some { s with putc := .store c next }
  | .store c next =>
    some { s with txBuffer := Function.update s.txBuffer s.txWriteIdx c, putc := .publish c next }
  | .publish c next =>
    some { s with txWriteIdx := next, stored := s.stored ++ [c], putc := .readImsc }
  | .readImsc => some { s with putc := .writeImsc s.imsc }
  | .writeImsc imsc => some { s with imsc := imsc ||| 0x20, putc := .idle }

def uartAdvanceGetc (s : State) : Option State :=
  match s.getc with
  | .idle => none
  | .wait => if s.rxReadIdx = s.rxWriteIdx then some s else some { s with getc := .load }
  | .load => some { s with getc := .advance (s.rxBuffer s.rxReadIdx) }
  | .advance c => some { s with rxReadIdx := (s.rxReadIdx + 1) % bufferSize, getc := .ret c }
  | .ret c => some { s with returned := s.returned ++ [c], getc := .idle }

/-- `v` is what the handler reads from the device, where it reads a register. -/
def uartInterruptHandler (s : State) (v : BitVec 32) : Option State :=
  match s.handler with
  | .idle => none
  | .rxTest =>
    if v &&& 0x10 ≠ 0 then some { s with handler := .rxLoop } else some { s with handler := .txTest }
  | .rxLoop =>
    if v &&& 0x10 = 0 then some { s with handler := .rxRead } else some { s with handler := .rxClear }
  | .rxRead =>
    let c := v.setWidth 8
    some { s with received := s.received ++ [(c, s.rxRing.length)], handler := .rxNext c }
  | .rxNext c => some { s with handler := .rxFull c ((s.rxWriteIdx + 1) % bufferSize) }
  | .rxFull c next =>
    if next ≠ s.rxReadIdx then some { s with handler := .rxStore c next }
    else some { s with discarded := s.discarded ++ [c], handler := .rxLoop }
  | .rxStore c next =>
    some { s with rxBuffer := Function.update s.rxBuffer s.rxWriteIdx c, handler := .rxPublish c next }
  | .rxPublish c next =>
    some { s with rxWriteIdx := next, accepted := s.accepted ++ [c], handler := .rxLoop }
  | .rxClear => some { s with handler := .txTest }
  | .txTest =>
    if v &&& 0x20 ≠ 0 then some { s with handler := .txLoop } else some { s with handler := .idle }
  | .txLoop =>
    if v &&& 0x20 = 0 ∧ s.txReadIdx ≠ s.txWriteIdx then some { s with handler := .txWrite }
    else some { s with handler := .txDrained }
  | .txWrite =>
    some { s with written := s.written ++ [s.txBuffer s.txReadIdx], handler := .txAdvance }
  | .txAdvance =>
    some { s with txReadIdx := (s.txReadIdx + 1) % bufferSize, handler := .txLoop }
  | .txDrained =>
    if s.txReadIdx = s.txWriteIdx then some { s with handler := .txDisable }
    else some { s with handler := .txClear }
  | .txDisable => some { s with imsc := s.imsc &&& ~~~ 0x20, handler := .txClear }
  | .txClear => some { s with handler := .idle }

end State

inductive Event where
  | callPutc (c : BitVec 8)
  | putc
  | callGetc
  | getc
  | interrupt
  | handler (v : BitVec 32)
  deriving DecidableEq, Repr

/-- One statement of one of the programs. There is one core: while the handler runs
the others stand still. There is one caller of each function, and it calls again
only after the last call has returned. -/
def step (s : State) : Event → Option State
  | .callPutc c =>
    if s.handler = .idle ∧ s.putc = .idle then some { s with putc := .next c } else none
  | .putc => if s.handler = .idle then s.uartAdvancePutc else none
  | .callGetc =>
    if s.handler = .idle ∧ s.getc = .idle then some { s with getc := .wait } else none
  | .getc => if s.handler = .idle then s.uartAdvanceGetc else none
  | .interrupt => if s.handler = .idle then some { s with handler := .rxTest } else none
  | .handler v => s.uartInterruptHandler v

/-- The state in which the console is initialised: the globals are zero, and nothing
has happened yet. -/
def initial : State where
  rxBuffer := fun _ => 0
  rxReadIdx := 0
  rxWriteIdx := 0
  txBuffer := fun _ => 0
  txReadIdx := 0
  txWriteIdx := 0
  imsc := 0
  putc := .idle
  getc := .idle
  handler := .idle
  stored := []
  written := []
  received := []
  accepted := []
  discarded := []
  returned := []

end Dmos.Uart
