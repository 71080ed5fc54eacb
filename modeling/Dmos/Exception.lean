import Dmos.Frame
import Dmos.Gic

namespace Dmos.Exception

open Gic

variable {F : Type}

/-- The length of `g_handler_vec`. -/
def handlerNum : Nat := 512
def nrSyscall : Nat := 256

/-- What an exception handler does, in order. -/
inductive Action (F : Type) where
  | saveCpuCtx (ctx : TrapFrame)
  | writeEoir (iar : BitVec 32)
  | writeDir (iar : BitVec 32)
  /-- Entry `index` of the table is read. -/
  | load (index : Nat)
  /-- A function pointer is called; `none` is the null pointer. -/
  | call (f : Option F)

/-- Function pointers from the address of a table on. What follows the table is
memory like any other, and is read as pointers when the index says so. -/
abbrev Table (F : Type) := Nat → Option F

/-- `g_handler_vec` before the first `irq_install`, in front of `rest`. -/
def gHandlerVec (rest : Table F) : Table F := fun i => if i < handlerNum then none else rest i

def irqInstall (vec : Table F) (vector : Nat) (h : F) : Table F := Function.update vec vector (some h)

/-- The `irq_install` calls of a boot, in order. -/
def irqInstalls (rest : Table F) (installs : List (Fin handlerNum × F)) : Table F :=
  installs.foldl (fun vec p => irqInstall vec p.1 p.2) (gHandlerVec rest)

def handleIrqException (vec : Table F) (ctx : TrapFrame) (iar : BitVec 32) : List (Action F) :=
  let vector := (gicIarIrqnr iar).toNat
  [.saveCpuCtx ctx, .writeEoir iar, .load vector, .call (vec vector)]

def handleIrqExceptionEl2 (vec : Table F) (ctx : TrapFrame) (iar : BitVec 32) : List (Action F) :=
  let vector := (gicIarIrqnr iar).toNat
  [.writeEoir iar, .writeDir iar, .saveCpuCtx ctx, .load vector, .call (vec vector)]

inductive Syscall where
  | sysPutc
  | sysGetc
  | sysDebug
  deriving DecidableEq, Repr

/-- `syscall_table`, in front of `rest`. The entries without a designator are null. -/
def syscallTable (rest : Table Syscall) : Table Syscall := fun i =>
  if i = 0 then some .sysPutc
  else if i = 1 then some .sysGetc
  else if i = 255 then some .sysDebug
  else if i < nrSyscall then none
  else rest i

/-- How `handle_sync_exception` ends. -/
inductive Outcome where
  /-- It returns to the code that trapped, with this frame. -/
  | returns (ctx : TrapFrame)
  /-- `while (1)` -/
  | hangs
  /-- A null pointer is called. -/
  | faults

/-- `handle_sync_exception`; `ret` is what a system call returns. -/
def handleSyncException (table : Table F) (ret : F → TrapFrame → Word) (esr : BitVec 32)
    (ctx : TrapFrame) : List (Action F) × Outcome :=
  let ec := (esr >>> 26) &&& 0b111111
  if ec = 0x15 then
    let index := (ctx.r 8).toNat
    ([.saveCpuCtx ctx, .load index, .call (table index)],
      match table index with
      | some func => .returns (ctx.setR 0 (ret func ctx))
      | none => .faults)
  else if ec = 0x17 then ([.saveCpuCtx ctx], .returns ctx)
  else ([.saveCpuCtx ctx], .hangs)

end Dmos.Exception
