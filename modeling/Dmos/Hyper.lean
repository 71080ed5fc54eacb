import Dmos.Task
import Dmos.Vgic
import Dmos.Mmio
import Dmos.Lib.Asm

namespace Dmos.Hyper
open Lib

/-- The system registers that a context switch at EL2 touches. -/
inductive SysReg where
  | sctlrEl1 | ttbr0El1 | ttbr1El1 | tcrEl1 | esrEl1 | farEl1 | afsr0El1 | afsr1El1 | mairEl1
  | amairEl1 | contextidrEl1 | cpacrEl1 | elrEl1 | fpcr | fpsr | midrEl1 | mpidrEl1 | parEl1
  | spEl0 | spEl1 | spsrEl1 | tpidrEl0 | tpidrEl1 | tpidrroEl0 | vbarEl1
  | vpidrEl2 | vmpidrEl2 | elrEl2 | spsrEl2
  deriving DecidableEq, Repr

open SysReg Instr

/-- `SAVE_REGS_EL2` up to `bl vm_out`. -/
def saveRegsEl2 : List (Instr SysReg) :=
  [subSp (34 * 8),
   stp 0 1 .sp (2 * 0),
   stp 2 3 .sp (2 * 8),
   stp 4 5 .sp (4 * 8),
   stp 6 7 .sp (6 * 8),
   stp 8 9 .sp (8 * 8),
   stp 10 11 .sp (10 * 8),
   stp 12 13 .sp (12 * 8),
   stp 14 15 .sp (14 * 8),
   stp 16 17 .sp (16 * 8),
   stp 18 19 .sp (18 * 8),
   stp 20 21 .sp (20 * 8),
   stp 22 23 .sp (22 * 8),
   stp 24 25 .sp (24 * 8),
   stp 26 27 .sp (26 * 8),
   stp 28 29 .sp (28 * 8),
   movSp 1,
   add 1 1 0x110,
   stp 30 1 .sp (30 * 8),
   mrs 10 elrEl2,
   mrs 11 spsrEl2,
   stp 10 11 .sp (32 * 8)]

/-- `RESTORE_REGS_EL2` after `bl vm_in`. -/
def restoreRegsEl2 : List (Instr SysReg) :=
  [ldp 10 11 .sp (32 * 8),
   msr elrEl2 10,
   msr spsrEl2 11,
   ldr 30 .sp (30 * 8),
   ldp 28 29 .sp (28 * 8),
   ldp 26 27 .sp (26 * 8),
   ldp 24 25 .sp (24 * 8),
   ldp 22 23 .sp (22 * 8),
   ldp 20 21 .sp (20 * 8),
   ldp 18 19 .sp (18 * 8),
   ldp 16 17 .sp (16 * 8),
   ldp 14 15 .sp (14 * 8),
   ldp 12 13 .sp (12 * 8),
   ldp 10 11 .sp (10 * 8),
   ldp 8 9 .sp (8 * 8),
   ldp 6 7 .sp (6 * 8),
   ldp 4 5 .sp (4 * 8),
   ldp 2 3 .sp (2 * 8),
   ldp 0 1 .sp (2 * 0),
   addSp (34 * 8)]

/-- `restore_sysregs`; `x0` points to the structure. -/
def restoreSysregs : List (Instr SysReg) :=
  [ldpPost 1 2 0 16, msr sctlrEl1 1, msr ttbr0El1 2,
   ldpPost 1 2 0 16, msr ttbr1El1 1, msr tcrEl1 2,
   ldpPost 1 2 0 16, msr esrEl1 1, msr farEl1 2,
   ldpPost 1 2 0 16, msr afsr0El1 1, msr afsr1El1 2,
   ldpPost 1 2 0 16, msr mairEl1 1, msr amairEl1 2,
   ldpPost 1 2 0 16, msr contextidrEl1 1, msr cpacrEl1 2,
   ldpPost 1 2 0 16, msr elrEl1 1, msr fpcr 2,
   ldpPost 1 2 0 16, msr fpsr 1, msr vpidrEl2 2,
   ldpPost 1 2 0 16, msr vmpidrEl2 1, msr parEl1 2,
   ldpPost 1 2 0 16, msr spEl0 1, msr spEl1 2,
   ldpPost 1 2 0 16, msr spsrEl1 1, msr tpidrEl0 2,
   ldpPost 1 2 0 16, msr tpidrEl1 1, msr tpidrroEl0 2,
   ldr 1 (.x 0) 0, msr vbarEl1 1, barrier, barrier]

def saveSysregs : List (Instr SysReg) :=
  [barrier, barrier,
   mrs 1 sctlrEl1, mrs 2 ttbr0El1, stpPost 1 2 0 16,
   mrs 1 ttbr1El1, mrs 2 tcrEl1, stpPost 1 2 0 16,
   mrs 1 esrEl1, mrs 2 farEl1, stpPost 1 2 0 16,
   mrs 1 afsr0El1, mrs 2 afsr1El1, stpPost 1 2 0 16,
   mrs 1 mairEl1, mrs 2 amairEl1, stpPost 1 2 0 16,
   mrs 1 contextidrEl1, mrs 2 cpacrEl1, stpPost 1 2 0 16,
   mrs 1 elrEl1, mrs 2 fpcr, stpPost 1 2 0 16,
   mrs 1 fpsr, mrs 2 midrEl1, stpPost 1 2 0 16,
   mrs 1 mpidrEl1, mrs 2 parEl1, stpPost 1 2 0 16,
   mrs 1 spEl0, mrs 2 spEl1, stpPost 1 2 0 16,
   mrs 1 spsrEl1, mrs 2 tpidrEl0, stpPost 1 2 0 16,
   mrs 1 tpidrEl1, mrs 2 tpidrroEl0, stpPost 1 2 0 16,
   mrs 1 vbarEl1, str 1 (.x 0) 0]

/-- `sizeof(cpu_sysregs_t)` in doublewords; `save_sysregs` fills the first 25. -/
def cpuSysregsSize : Nat := 64

/-- Where the linker put the EL2 stack and `cpu_sysregs`. The trap frame and the
array are different objects. -/
structure Layout where
  stackTop : Word
  cpuSysregs : Word
  stack_fits : 34 * 8 ≤ stackTop.toNat
  sysregs_fits : cpuSysregs.toNat + 8 * (cpuSysregsSize * maxTasks) ≤ 2 ^ 64
  apart : cpuSysregs.toNat + 8 * (cpuSysregsSize * maxTasks) ≤ stackTop.toNat - 34 * 8 ∨
    stackTop.toNat ≤ cpuSysregs.toNat

/-- `&cpu_sysregs[i]` -/
def Layout.sysregsAt (l : Layout) (i : Nat) : Word := slot l.cpuSysregs (cpuSysregsSize * i)

/-- What the C handlers work on besides the trap frame: the globals of `task.c`,
`current_thread` of the core, the interrupt controller and the device registers. -/
structure Host where
  kernel : Kernel
  current : Option Nat
  gic : Gic
  dev : Device

structure Machine where
  pe : Pe SysReg
  host : Host

namespace Host

/-- `_schedule` with a trap frame. -/
def schedule (smp : Nat) (h : Host) (curr : Nat) (sp : TrapFrame) : Option (Host × TrapFrame) :=
  if h.kernel.taskCount = smp then some (h, sp)
  else do
    let (k, stored, next) ← h.kernel.criticalSection curr
    let h := { h with kernel := k, current := stored.or h.current }
    if next = 2 ^ 32 - 1 then some (h, sp)
    else
      let ctx ← k.switchContextEl next
      some (h, ctx)

def timerTickSchedule (smp : Nat) (h : Host) (sp : TrapFrame) : Option (Host × TrapFrame) := do
  let curr ← h.current
  let h := { h with kernel := h.kernel.decCounter curr }
  if (h.kernel.taskList curr).counter > 0 then some (h, sp)
  else
    let h := { h with kernel := h.kernel.setCounter curr sysTaskTick }
    h.schedule smp curr sp

/-- `save_cpu_ctx` on the core's current task. -/
def saveCpuCtx (h : Host) (sp : TrapFrame) : Option Host := do
  let curr ← h.current
  let k ← h.kernel.saveCpuCtx curr sp
  some { h with kernel := k }

/-- `handle_irq_exception_el2` -/
def handleIrqExceptionEl2 (smp : Nat) (iar : BitVec 32) (h : Host) (context : TrapFrame) :
    Option (Host × TrapFrame) := do
  let h ← h.saveCpuCtx context
  match Vgic.gHandlerVec (Gic.gicIarIrqnr iar) with
  | none => none
  | some .vTimerHandler => some ({ h with gic := Vgic.vTimerHandler h.gic }, context)
  | some .fakeConsole => some ({ h with gic := Vgic.fakeConsole h.gic }, context)
  | some .handleTimerInterrupt =>
    let (h, context) ← h.timerTickSchedule smp context
    some ({ h with gic := Vgic.raisePriorities h.gic }, context)

/-- `handle_sync_exception_el2`. A class that has no handler ends in `while (1)`. -/
def handleSyncExceptionEl2 (esr : BitVec 32) (hpfar far : Word) (h : Host) (ctx : TrapFrame) :
    Option (Host × TrapFrame) := do
  let ec := (esr >>> 26) &&& 0x3f#32
  let h ← h.saveCpuCtx ctx
  if ec = 0x1 then some (h, advancePc esr ctx)
  else if ec = 0x16 then some (h, ctx)
  else if ec = 0x17 then some (h, advancePc esr ctx)
  else if ec = 0x24 then
    let gpa := (far &&& 0xfff) ||| (hpfar <<< 8)
    let (ctx, gic, dev) := dataAbortHandler esr gpa ctx h.gic h.dev
    some ({ h with gic := gic, dev := dev }, advancePc esr ctx)
  else none

/-- `curr->cpu_info->sys_reg` as an address. -/
def sysReg (l : Layout) (h : Host) : Option Word := do
  let curr ← h.current
  let cpu ← (h.kernel.taskList curr).cpuInfo
  let i ← (h.kernel.cpuDec cpu).sysReg
  some (l.sysregsAt i)

end Host

/-- What the guest's registers hold when it traps. -/
structure Guest where
  x : Fin 31 → Word
  pc : Word
  pstate : Word
  el1 : SysReg → Word

inductive Cause where
  | irq (iar : BitVec 32)
  | sync (esr : BitVec 32) (hpfar far : Word)

/-- A trap to EL2: the guest's state, the cause, the devices as they then are,
and what compiled code leaves in `x0..x30` when the assembly calls it. -/
structure Trap where
  guest : Guest
  cause : Cause
  gic : Gic
  dev : Device
  unknowns : Nat → Fin 31 → Word

/-- The registers a guest can write. -/
def guestReg : SysReg → Bool
  | midrEl1 | mpidrEl1 | vpidrEl2 | vmpidrEl2 | elrEl2 | spsrEl2 => false
  | _ => true

/-- Exception entry from the guest. -/
def takeException (p : Pe SysReg) (g : Guest) : Pe SysReg :=
  { p with
    x := g.x
    sys := fun r => if r = elrEl2 then g.pc else if r = spsrEl2 then g.pstate
      else if guestReg r then g.el1 r else p.sys r }

/-- A call of C code that passes `a` in `x0` to an assembly routine. -/
def callWith (p : Pe SysReg) (unknowns : Fin 31 → Word) (a : Word) (code : List (Instr SysReg)) :
    Pe SysReg :=
  (({ p with x := unknowns }).setX 0 a).execAll code

def readFrame (p : Pe SysReg) : TrapFrame := fun i => p.mem (slot p.sp i)

def writeFrame (p : Pe SysReg) (f : TrapFrame) : Pe SysReg :=
  { p with mem := memcpy p.mem p.sp 34 (fun i => f (Fin.ofNat 34 i)) }

def handle (smp : Nat) (c : Cause) (h : Host) (f : TrapFrame) : Option (Host × TrapFrame) :=
  match c with
  | .irq iar => h.handleIrqExceptionEl2 smp iar f
  | .sync esr hpfar far => h.handleSyncExceptionEl2 esr hpfar far f

/-- One trap, from the exception entry to the `eret`: `SAVE_REGS_EL2`, the
handler and `RESTORE_REGS_EL2`. `vm_out` and `vm_in` each look up
`current_thread` again. -/
def Machine.trap (l : Layout) (smp : Nat) (m : Machine) (t : Trap) : Option Machine := do
  let h := { m.host with gic := t.gic, dev := t.dev }
  let p := (takeException m.pe t.guest).execAll saveRegsEl2
  let p := callWith p (t.unknowns 0) (← h.sysReg l) saveSysregs
  let (h, f) ← handle smp t.cause h (readFrame p)
  let p := writeFrame p f
  let p := callWith p (t.unknowns 1) (← h.sysReg l) restoreSysregs
  some ⟨p.execAll restoreRegsEl2, h⟩

/-- `craete_vm_task`, with the store through the new `sys_reg` pointer to
`spsr_el1`, the doubleword 20 of the structure. -/
def craeteVmTask (l : Layout) (s : Kernel × WordMemory) (taskFunc : Word) : Kernel × WordMemory :=
  let (k, mem) := s
  if k.taskCount ≥ maxTasks then (k, mem)
  else
    let t := k.taskCount
    let k := k.modTask t (fun tcb => { tcb with id := t, state := .waiting, cpuInfo := some t })
    let k := k.modCpu t (fun cpu => { cpu with
      ctx := ((cpu.ctx.setElr taskFunc).setSpsr spsrEl2ValueIrq).setR 0 0x70000000
      sysReg := some t })
    let mem := Function.update mem (slot (l.sysregsAt t) 20) 0x30C50830
    let k := k.setCounter t sysTaskTick
    ({ k with taskCount := k.taskCount + 1 }, mem)

/-- `schedule_init_local` on core 0. -/
def scheduleInitLocal (h : Host) : Host :=
  { h with current := some 0, kernel := h.kernel.setState 0 .running }

/-- `SPSR_VALUE`: all interrupts masked, EL1h. -/
def spsrValue : Word := 0x1c5

/-- `guest_start`, which enters the first guest without a trap frame. -/
def guestStart (p : Pe SysReg) (testGuest : Word) : Pe SysReg :=
  let p := (p.setX 1 testGuest).setSys elrEl2 testGuest
  let p := (p.setX 0 spsrValue).setSys spsrEl2 spsrValue
  let p := (p.setX 0 0x30C50830).setSys sctlrEl1 0x30C50830
  p.setX 0 0

/-- The end of `hyper_main` for the given guests: all of `task.c` and
`cpu_sysregs` come from `.bss`. -/
def boot (l : Layout) (guests : List Word) (sys : SysReg → Word) (g : Gic) (dev : Device) : Machine :=
  let (k, mem) := guests.foldl (craeteVmTask l) (Kernel.bss.scheduleInit, fun _ => 0)
  { pe := guestStart ⟨fun _ => 0, l.stackTop, sys, mem⟩ (guests.headD 0)
    host := scheduleInitLocal ⟨k, none, g, dev⟩ }

end Dmos.Hyper
