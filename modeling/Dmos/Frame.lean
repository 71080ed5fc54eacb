import Mathlib.Algebra.GroupWithZero.Nat
import Mathlib.Logic.Function.Basic
import Mathlib.Data.Fin.Basic

namespace Dmos

abbrev Word := BitVec 64

-- Registers and frame slots are written as literals.
instance neZero_registers : NeZero 31 := ⟨by decide⟩
instance neZero_slots : NeZero 34 := ⟨by decide⟩

/-- `trap_frame_t` as the 34 doublewords it occupies: `r[0..30]`, `usp`, `elr`
and `spsr`. The assembly stores by offset and C reads by field name, so the
layout is kept rather than hidden behind a record. -/
abbrev TrapFrame := Fin 34 → Word

namespace TrapFrame

def r (f : TrapFrame) (i : Fin 31) : Word := f ⟨i, by omega⟩
def usp (f : TrapFrame) : Word := f 31
def elr (f : TrapFrame) : Word := f 32
def spsr (f : TrapFrame) : Word := f 33

def setR (f : TrapFrame) (i : Fin 31) (w : Word) : TrapFrame :=
  Function.update f ⟨i, by omega⟩ w
def setUsp (f : TrapFrame) (w : Word) : TrapFrame := Function.update f 31 w
def setElr (f : TrapFrame) (w : Word) : TrapFrame := Function.update f 32 w
def setSpsr (f : TrapFrame) (w : Word) : TrapFrame := Function.update f 33 w

/-- A frame in `.bss`. -/
def zero : TrapFrame := fun _ => 0

end TrapFrame

end Dmos
