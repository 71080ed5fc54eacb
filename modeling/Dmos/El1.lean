import Dmos.Smp
import Dmos.Exception
import Dmos.Console
import Dmos.Lib.Asm

namespace Dmos.El1
open Lib Exception Printf Console

/-- The system registers that an exception to EL1 and `exception.S` use. -/
inductive SysReg where
  | spEl0 | elrEl1 | spsrEl1
  deriving DecidableEq, Repr

open SysReg Instr

def saveRegs : List (Instr SysReg) :=
  [subSp (34 * 8),
   stp 0 1 .sp (2 * 0),
   stp 2 3 .sp (2 * 8),
   stp 4 5 .sp (4 * 8),
   stp 6 7 .sp (6 * 8),
   stp 8 9 .sp (8 * 8),
   stp 10 11 .sp (10 * 8),
   stp 12 13 .sp (12 * 8),
   stp 14 15 .sp (14 * 8),
   stp 16 17 .sp (16 * 8),
   stp 18 19 .sp (18 * 8),
   stp 20 21 .sp (20 * 8),
   stp 22 23 .sp (22 * 8),
   stp 24 25 .sp (24 * 8),
   stp 26 27 .sp (26 * 8),
   stp 28 29 .sp (28 * 8),
   mrs 9 spEl0,
   mrs 10 elrEl1,
   mrs 11 spsrEl1,
   stp 30 9 .sp (30 * 8),
   stp 10 11 .sp (32 * 8)]

def restoreRegs : List (Instr SysReg) :=
  [ldp 10 11 .sp (32 * 8),
   ldp 30 9 .sp (30 * 8),
   msr spEl0 9,
   msr elrEl1 10,
   msr spsrEl1 11,
   ldp 28 29 .sp (28 * 8),
   ldp 26 27 .sp (26 * 8),
   ldp 24 25 .sp (24 * 8),
   ldp 22 23 .sp (22 * 8),
   ldp 20 21 .sp (20 * 8),
   ldp 18 19 .sp (18 * 8),
   ldp 16 17 .sp (16 * 8),
   ldp 14 15 .sp (14 * 8),
   ldp 12 13 .sp (12 * 8),
   ldp 10 11 .sp (10 * 8),
   ldp 8 9 .sp (8 * 8),
   ldp 6 7 .sp (6 * 8),
   ldp 4 5 .sp (4 * 8),
   ldp 2 3 .sp (2 * 8),
   ldp 0 1 .sp (0 * 8),
   addSp (34 * 8)]

/-- Where `SP_EL1` of each core stands when it leaves the kernel, and that the
trap frames below do not overlap. -/
structure Layout (smp : Nat) where
  sp : Nat → Word
  fits : ∀ c < smp, 34 * 8 ≤ (sp c).toNat
  apart : ∀ c < smp, ∀ d < smp, c ≠ d →
    (sp c).toNat + 34 * 8 ≤ (sp d).toNat ∨ (sp d).toNat + 34 * 8 ≤ (sp c).toNat

/-- The registers a core has of its own. -/
structure Regs where
  x : Fin 31 → Word
  sp : Word
  sys : SysReg → Word

/-- What the code that an exception interrupts has in its registers; `sp` is the
stack pointer of EL0. -/
structure User where
  x : Fin 31 → Word
  sp : Word
  pc : Word
  pstate : Word

inductive Cause where
  | sync (esr : BitVec 32)
  | irq (iar : BitVec 32)
  /-- One of the vectors of `INVALID_EXCP`. -/
  | invalid

/-- An exception, with the character that `getc` waits for if it is asked. -/
structure Trap where
  user : User
  cause : Cause
  input : BitVec 8

/-- Where a core is around the steps of `Smp`. -/
inductive Phase where
  /-- Outside the exception code. -/
  | out
  /-- In `handle_timer_interrupt`. -/
  | tick
  /-- In `handle_sync_exception`, before the call of `func`. -/
  | svc (func : Syscall) (input : BitVec 8)
  /-- At `.Lexception_return`. -/
  | leaving
  /-- In the `while (1)` of `handle_sync_exception`. -/
  | hung
  deriving DecidableEq, Repr

inductive Handler where
  | handleTimerInterrupt
  deriving DecidableEq, Repr

/-- The function pointers that lie behind the two dispatch tables. -/
structure Image where
  afterHandlers : Table Handler
  afterSyscalls : Table Syscall

theorem timer_lt_handlerNum : 30 < handlerNum := by decide

/-- `g_handler_vec` after `timer_init`, the only `irq_install` of the EL1 kernel. -/
def Image.gHandlerVec (i : Image) : Table Handler :=
  irqInstalls i.afterHandlers [(⟨30, timer_lt_handlerNum⟩, .handleTimerInterrupt)]

/-- The cores with their registers and the memory they share. `console` has the calls of
`putc` and `printf` that the system calls made, in order. What the driver makes of such a call
is in `Console`. -/
structure Machine where
  os : Smp.State
  phase : Nat → Phase
  regs : Nat → Regs
  mem : WordMemory
  console : List Command

inductive Event where
  | trap (c : Nat) (t : Trap)
  /-- The core goes on; `unknowns` is what compiled code leaves in `x0..x30`. -/
  | advance (c : Nat) (unknowns : Fin 31 → Word)

/-- Exception entry. -/
def takeException (p : Pe SysReg) (u : User) : Pe SysReg :=
  { p with
    x := u.x
    sys := fun
      | spEl0 => u.sp
      | elrEl1 => u.pc
      | spsrEl1 => u.pstate }

def readFrame (p : Pe SysReg) : TrapFrame := fun i => p.mem (slot p.sp i)

def writeFrame (p : Pe SysReg) (f : TrapFrame) : Pe SysReg :=
  { p with mem := memcpy p.mem p.sp 34 (fun i => f (Fin.ofNat 34 i)) }

/-- What the functions of `syscall_table` return. -/
def sysRet (input : BitVec 8) : Syscall → Word
  | .sysPutc => 0
  | .sysGetc => input.setWidth 64
  | .sysDebug => 0

/-- `"[syscall] sys_debug: %c, %c\n"` -/
def debugFormat : CString := ⟨"[syscall] sys_debug: %c, %c\n".toList.map ch, by decide⟩

/-- What they print: `sys_putc` reads a `char` where `r[0]` lies, and `sys_debug` the words
`r[0]` and `r[1]`. -/
def sysOut (f : TrapFrame) : Syscall → Option Command
  | .sysPutc => some (.putc ((f.r 0).setWidth 8))
  | .sysGetc => none
  | .sysDebug => some (.printf debugFormat fun i => if i = 0 then f.r 0 else f.r 1)

namespace Machine

def pe (m : Machine) (c : Nat) : Pe SysReg :=
  ⟨(m.regs c).x, (m.regs c).sp, (m.regs c).sys, m.mem⟩

def setPe (m : Machine) (c : Nat) (p : Pe SysReg) : Machine :=
  { m with regs := Function.update m.regs c ⟨p.x, p.sp, p.sys⟩, mem := p.mem }

def setPhase (m : Machine) (c : Nat) (ph : Phase) : Machine :=
  { m with phase := Function.update m.phase c ph }

def withOs (m : Machine) (s : Smp.State) : Machine := { m with os := s }

/-- `handle_sync_exception` up to the call through `syscall_table`. -/
def handleSync (img : Image) (m : Machine) (c : Nat) (esr : BitVec 32) (input : BitVec 8)
    (ctx : TrapFrame) : Option Machine := do
  let ec := (esr >>> 26) &&& 0b111111
  let curr ← (m.os.core c).current
  let k ← m.os.kernel.saveCpuCtx curr ctx
  let m := m.withOs ((m.os.withKernel k).setCore c { m.os.core c with frame := ctx })
  if ec = 0x15 then
    let func ← syscallTable img.afterSyscalls (ctx.r 8).toNat
    some (m.setPhase c (.svc func input))
  else if ec = 0x17 then some (m.setPhase c .leaving)
  else some (m.setPhase c .hung)

/-- `handle_irq_exception` up to the call through `g_handler_vec`. -/
def handleIrq (img : Image) (m : Machine) (c : Nat) (iar : BitVec 32) (ctx : TrapFrame) :
    Option Machine := do
  let s ← m.os.irq c ctx
  match ← img.gHandlerVec (Gic.gicIarIrqnr iar).toNat with
  | .handleTimerInterrupt => some ((m.withOs s).setPhase c .tick)

/-- `invalid_exception` looks at the frame and returns. -/
def handle (img : Image) (m : Machine) (c : Nat) (t : Trap) (ctx : TrapFrame) : Option Machine :=
  match t.cause with
  | .sync esr => m.handleSync img c esr t.input ctx
  | .irq iar => m.handleIrq img c iar ctx
  | .invalid => some (m.setPhase c .leaving)

/-- The core when the handler is called. -/
def entered (m : Machine) (c : Nat) (t : Trap) : Pe SysReg :=
  (takeException (m.pe c) t.user).execAll saveRegs

def canTrap (m : Machine) (c : Nat) (t : Trap) : Bool :=
  m.phase c = .out && m.os.canTrap c (readFrame (m.entered c t))

/-- An exception up to the handler's call through its table. -/
def trap (img : Image) (m : Machine) (c : Nat) (t : Trap) : Option Machine :=
  if m.canTrap c t then
    let p := m.entered c t
    (m.setPe c p).handle img c t (readFrame p)
  else some m

/-- A step of `timer_tick_schedule`. `switch_context_el` writes to the frame. -/
def tick (smp : Nat) (m : Machine) (c : Nat) : Option Machine :=
  (Smp.State.step smp m.os (.advance c)).map (fun s =>
    let m' := match Smp.State.installed smp m.os (.advance c) with
      | some (_, _, f) => m.setPe c (writeFrame (m.pe c) f)
      | none => m
    let m' := m'.withOs s
    if (s.core c).pc = .user then m'.setPhase c .leaving else m')

/-- The call of the system call and the store of its result to `r[0]`. -/
def svc (m : Machine) (c : Nat) (func : Syscall) (input : BitVec 8) : Machine :=
  let ctx := readFrame (m.pe c)
  let m := { m with console := m.console ++ (sysOut ctx func).toList }
  (m.setPe c (writeFrame (m.pe c) (ctx.setR 0 (sysRet input func)))).setPhase c .leaving

/-- `RESTORE_REGS` and `eret`. -/
def leave (m : Machine) (c : Nat) (unknowns : Fin 31 → Word) : Machine :=
  (m.setPe c ({ m.pe c with x := unknowns }.execAll restoreRegs)).setPhase c .out

def advance (smp : Nat) (m : Machine) (c : Nat) (unknowns : Fin 31 → Word) : Option Machine :=
  match m.phase c with
  | .out => (Smp.State.step smp m.os (.advance c)).map m.withOs
  | .tick => m.tick smp c
  | .svc func input => some (m.svc c func input)
  | .leaving => some (m.leave c unknowns)
  | .hung => some m

/-- One step of the machine with `smp` cores; `none` is a fault. -/
def step (img : Image) (smp : Nat) (m : Machine) : Event → Option Machine
  | .trap c t => if c < smp then m.trap img c t else some m
  | .advance c unknowns => if c < smp then m.advance smp c unknowns else some m

end Machine

section Fields

variable (m : Machine) (c d : Nat) (p : Pe SysReg) (ph : Phase) (s : Smp.State)

@[simp] theorem setPe_os : (m.setPe c p).os = m.os := rfl
@[simp] theorem setPe_phase : (m.setPe c p).phase = m.phase := rfl
@[simp] theorem setPe_mem : (m.setPe c p).mem = p.mem := rfl
@[simp] theorem setPhase_os : (m.setPhase c ph).os = m.os := rfl
@[simp] theorem setPhase_regs : (m.setPhase c ph).regs = m.regs := rfl
@[simp] theorem setPhase_mem : (m.setPhase c ph).mem = m.mem := rfl
@[simp] theorem withOs_os : (m.withOs s).os = s := rfl
@[simp] theorem withOs_phase : (m.withOs s).phase = m.phase := rfl
@[simp] theorem withOs_regs : (m.withOs s).regs = m.regs := rfl
@[simp] theorem withOs_mem : (m.withOs s).mem = m.mem := rfl

@[simp] theorem setPhase_phase :
    (m.setPhase c ph).phase d = if d = c then ph else m.phase d := by
  by_cases h : d = c <;> simp [Machine.setPhase, h]

@[simp] theorem setPe_sp :
    ((m.setPe c p).regs d).sp = if d = c then p.sp else (m.regs d).sp := by
  by_cases h : d = c <;> simp [Machine.setPe, h]

end Fields

end Dmos.El1
