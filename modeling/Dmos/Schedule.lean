import Dmos.Task
import Dmos.Lib.Run

namespace Dmos.Schedule

/-- What `switch_context` stores, in this order: `x19` to `x30`, `tpidr_el0`, `sp`. -/
abbrev Saved := Fin 14 → Word

/-- `task_list` and each core's `current_thread`, between two calls. -/
structure Sys where
  kernel : Kernel
  current : Nat → Option Nat

/-- The argument of `_schedule`: the trap frame of the timer interrupt, or the null
pointer of `schedule` with the registers at that point. -/
inductive Sp where
  | frame
  | null (regs : Saved)

/-- What `_schedule` calls at its end: nothing, `switch_context_el` with the context
that it copies over the trap frame, or `switch_context`. -/
inductive Switch where
  | none
  | el (ctx : TrapFrame)
  | context (prev next : Nat)

/-- A `tcb_t` whose doublewords at offsets 0, 16 and 24 were overwritten. The
structure is packed: `state` and `counter` share the second, `id` ends the third.
`cpuAt` is the entry of `g_cpu_dec` that an address names, if any. -/
def overlay (cpuAt : Word → Option Nat) (w0 w16 w24 : Word) : Tcb where
  cpuInfo := cpuAt w0
  state := if w16.setWidth 32 = 0#32 then .running else .waiting
  counter := (w16 >>> 32).toNat
  id := (w24 >>> 32).toNat

/-- The stores of `switch_context`: fourteen doublewords from `&task_list[prev]` on,
which is that entry of 48 bytes, the next one and the first field of the third. -/
def switchContext (cpuAt : Word → Option Nat) (k : Kernel) (prev : Nat) (r : Saved) : Kernel :=
  let k := k.modTask prev (fun _ => overlay cpuAt (r 0) (r 2) (r 3))
  let k := k.modTask (prev + 1) (fun _ => overlay cpuAt (r 6) (r 8) (r 9))
  k.modTask (prev + 2) (fun t => { t with cpuInfo := cpuAt (r 12) })

namespace Sys

section Calls

variable (cpuAt : Word → Option Nat) (smp : Nat)

/-- `_schedule` on core `c`. A null `current_thread` or `cpu_info` and an index
outside the table are faults. -/
def _schedule (s : Sys) (c : Nat) (sp : Sp) : Option Sys :=
  if s.kernel.taskCount = smp then some s
  else do
    let curr ← s.current c
    let (k, stored, next) ← s.kernel.criticalSection curr
    let s := { kernel := k, current := Function.update s.current c (stored.or (s.current c)) }
    if next = 2 ^ 32 - 1 then some s
    else match sp with
      | .frame => (s.kernel.switchContextEl next).map (fun _ => s)
      | .null regs => some { s with kernel := switchContext cpuAt s.kernel curr regs }

/-- `_schedule`, together with the switch that it makes. -/
def _scheduleSwitch (s : Sys) (c : Nat) (sp : Sp) : Option (Sys × Switch) :=
  if s.kernel.taskCount = smp then some (s, .none)
  else do
    let curr ← s.current c
    let (k, stored, next) ← s.kernel.criticalSection curr
    let s := { kernel := k, current := Function.update s.current c (stored.or (s.current c)) }
    if next = 2 ^ 32 - 1 then some (s, .none)
    else match sp with
      | .frame => (s.kernel.switchContextEl next).map (fun ctx => (s, .el ctx))
      | .null regs =>
        some ({ s with kernel := switchContext cpuAt s.kernel curr regs }, .context curr next)

/-- `schedule`, the voluntary call. -/
def schedule (s : Sys) (c : Nat) (regs : Saved) : Option Sys := do
  let curr ← s.current c
  let s := { s with kernel := s.kernel.setCounter curr 0 }
  s._schedule cpuAt smp c (.null regs)

def timerTickSchedule (s : Sys) (c : Nat) : Option Sys := do
  let curr ← s.current c
  let s := { s with kernel := s.kernel.decCounter curr }
  if (s.kernel.taskList curr).counter > 0 then some s
  else
    let s := { s with kernel := s.kernel.setCounter curr sysTaskTick }
    s._schedule cpuAt smp c .frame

end Calls

/-- `schedule_init_local` -/
def scheduleInitLocal (s : Sys) (c : Nat) : Sys where
  kernel := s.kernel.setState c .running
  current := Function.update s.current c (some c)

end Sys

inductive Call where
  | createTask (taskFunc stackTop : Word)
  | timerTickSchedule (c : Nat)
  | schedule (c : Nat) (regs : Saved)

def step (cpuAt : Word → Option Nat) (smp : Nat) (s : Sys) : Call → Option Sys
  | .createTask f st => some { s with kernel := s.kernel.createTask f st }
  | .timerTickSchedule c => if c < smp then s.timerTickSchedule cpuAt smp c else some s
  | .schedule c regs => if c < smp then s.schedule cpuAt smp c regs else some s

def Call.voluntary : Call → Bool
  | .schedule _ _ => true
  | _ => false

def Call.ticks (c : Nat) : Call → Bool
  | .timerTickSchedule d => d == c
  | _ => false

/-- The call enters `_schedule` on core `c`. -/
def entersSchedule (c : Nat) (s : Sys) : Call → Bool
  | .createTask _ _ => false
  | .timerTickSchedule d => d == c && match s.current c with
    | some t => ((s.kernel.decCounter t).taskList t).counter == 0
    | none => false
  | .schedule d _ => d == c

/-- The tasks created and `schedule_init_local` run by each of the `smp` cores. -/
def booted (smp : Nat) (tasks : List (Word × Word)) : Sys :=
  Nat.fold smp (fun c _ s => s.scheduleInitLocal c)
    ⟨(Kernel.bss.scheduleInit).createTasks tasks, fun _ => none⟩

end Dmos.Schedule
