import Dmos.Lib.Run
import Dmos.Printf

namespace Dmos.Console

open Printf

/-- What a core asks of the console. `vprintf`, `warning` and `error` have the body of
`printf`. -/
inductive Command where
  | putc (c : Byte)
  | puts (str : CString)
  | printf (fmt : CString) (va : Nat → Word)

def bufsz : BitVec 32 := 1024

/-- `"\033[32m%s\033[0m"`, with the digit of the colour. -/
def colorFormat (color : Byte) (h : color ≠ 0) : CString :=
  ⟨[0x1b, ch '[', ch '3', color, ch 'm', ch '%', ch 's', 0x1b, ch '[', ch '0', ch 'm'], by
    simp only [List.mem_cons, List.not_mem_nil, or_false, not_or]
    exact ⟨by decide, by decide, by decide, h.symm, by decide⟩⟩

def printInfo (info : Word) : Command := .printf (colorFormat (ch '2') (by decide)) fun _ => info

def printWarn (info : Word) : Command := .printf (colorFormat (ch '3') (by decide)) fun _ => info

/-- Where a core stands: between two commands, at the test of the loop of `uart_putstr`, or
in `uart_early_putc`, with the string and the offset that the loop goes on with. -/
inductive Pc where
  | ready
  | putstr (str : Reader) (i : Nat)
  | poll (c : Byte) (ret : Option (Reader × Nat))
  | lock (c : Byte) (ret : Option (Reader × Nat))
  | write (c : Byte) (ret : Option (Reader × Nat))
  | unlock (ret : Option (Reader × Nat))

structure Core where
  pc : Pc
  program : List Command

def Core.goto (c : Core) (pc : Pc) : Core := { c with pc := pc }

/-- The return from `uart_early_putc`. -/
def back : Option (Reader × Nat) → Pc
  | none => .ready
  | some (str, i) => .putstr str i

/-- The cores, the lock of the driver, and the transmitter of the device. `wire` and `lost`
record the stores to `UART0_DR` with the core that made them, and those that found no room;
`sent` is what has left the transmitter. -/
structure State where
  cores : Nat → Core
  /-- Whether `uart_op` points to `early_ops`; it is a null pointer before. -/
  uartOp : Bool
  holder : Option Nat
  fifo : List Byte
  wire : List (Nat × Byte)
  lost : List (Nat × Byte)
  sent : List Byte

inductive Event where
  | core (i : Nat)
  | drain

variable (env : Env) (depth : Nat)

def State.set (s : State) (i : Nat) (c : Core) : State :=
  { s with cores := Function.update s.cores i c }

/-- The next command of a core. A call through the null pointer faults. -/
def start (s : State) (i : Nat) : Option State :=
  match (s.cores i).program with
  | [] => some s
  | .putc c :: rest => if s.uartOp then some (s.set i ⟨.poll c none, rest⟩) else none
  | .puts str :: rest => some ({ s with uartOp := true }.set i ⟨.putstr str.read 0, rest⟩)
  | .printf fmt va :: rest => (vsnprintf env bufsz fmt va).map fun r =>
    { s with uartOp := true }.set i ⟨.putstr r.held 0, rest⟩

/-- A store to `UART0_DR`. The transmitter takes it when there is room. -/
def State.store (s : State) (i : Nat) (c : Byte) : State :=
  if s.fifo.length < depth then { s with fifo := s.fifo ++ [c], wire := s.wire ++ [(i, c)] }
  else { s with wire := s.wire ++ [(i, c)], lost := s.lost ++ [(i, c)] }

/-- One statement of a core. The loops on `UART0_FR` and on the lock stay where they are
until they can go on. -/
def advance (s : State) (i : Nat) : Option State :=
  match (s.cores i).pc with
  | .ready => start env s i
  | .putstr str k => (str k).map fun c =>
    s.set i ((s.cores i).goto (if c = 0 then .ready else .poll c (some (str, k + 1))))
  | .poll c ret =>
    if s.fifo.length < depth then some (s.set i ((s.cores i).goto (.lock c ret))) else some s
  | .lock c ret =>
    if s.holder = none then some ({ s with holder := some i }.set i ((s.cores i).goto (.write c ret)))
    else some s
  | .write c ret => some ((s.store depth i c).set i ((s.cores i).goto (.unlock ret)))
  | .unlock ret => some ({ s with holder := none }.set i ((s.cores i).goto (back ret)))

def step (s : State) : Event → Option State
  | .core i => advance env depth s i
  | .drain =>
    match s.fifo with
    | [] => some s
    | c :: rest => some { s with fifo := rest, sent := s.sent ++ [c] }

/-- After `io_early_init`, with a program for each core. -/
def initial (programs : Nat → List Command) : State where
  cores := fun i => ⟨.ready, programs i⟩
  uartOp := true
  holder := none
  fifo := []
  wire := []
  lost := []
  sent := []

end Dmos.Console
