import Dmos.Task
import Dmos.Lib.Run

namespace Dmos.Smp

/-- Where a core is, from the `inited_cpu_num` barrier of `main_entry` on.
`ticked`, `entered` and `picked` carry the C locals that outlive the step. -/
inductive Pc where
  /-- Past the barrier, before `schedule_init_local`. -/
  | boot
  /-- In `schedule_init_local` with `print_lock` held: `current_thread` is stored,
  the state of the task is not yet `RUNNING`. -/
  | adopted
  /-- Interrupts enabled: the wait loop of `main_entry` or a task. -/
  | user
  /-- In `handle_irq_exception` after `save_cpu_ctx`. -/
  | trapped
  /-- In `timer_tick_schedule` after `--curr->counter`. -/
  | ticked (curr : Nat)
  /-- In `_schedule` before `spin_lock(&lock)`. -/
  | entered (curr : Nat)
  /-- In `_schedule` after `spin_unlock(&lock)` with `next_task_id` set. -/
  | picked (prev next : Nat)
  deriving DecidableEq, Repr

/-- A core: `current` is `thread_info.current_thread` as an index in
`task_list`, `frame` the trap frame on its stack, and `looping` tells whether
the code below the frame is still the `while (1)` of `main_entry`. -/
structure Core where
  pc : Pc
  current : Option Nat
  frame : TrapFrame
  looping : Bool

structure State where
  kernel : Kernel
  core : Nat → Core
  /-- The holder of `print_lock`. -/
  printLock : Option Nat

inductive Event where
  /-- The core executes its next step. -/
  | advance (c : Nat)
  /-- The timer interrupts the core; `frame` is what `SAVE_REGS` stored. -/
  | irq (c : Nat) (frame : TrapFrame)

/-- The core that the event is about. -/
def Event.core : Event → Nat
  | .advance c | .irq c _ => c

namespace State

def setCore (s : State) (c : Nat) (x : Core) : State :=
  { s with core := Function.update s.core c x }

def withKernel (s : State) (k : Kernel) : State := { s with kernel := k }

/-- `schedule_init_local` up to the store of `current_thread`; a core that finds
`print_lock` taken spins. -/
def initLocalBegin (s : State) (c : Nat) : State :=
  match s.printLock with
  | some _ => s
  | none => { s.setCore c { s.core c with pc := .adopted, current := some c } with
      printLock := some c }

/-- The rest of `schedule_init_local`, and `enable_interrupts`. -/
def initLocalEnd (s : State) (c : Nat) : Option State :=
  if c < maxTasks then
    some { (s.setCore c { s.core c with pc := .user }).withKernel
      (s.kernel.setState c .running) with printLock := none }
  else none

/-- `timer_tick_schedule` after the decrement, and the entry of `_schedule`. -/
def tickTest (smp : Nat) (s : State) (c curr : Nat) : State :=
  if (s.kernel.taskList curr).counter > 0 then s.setCore c { s.core c with pc := .user }
  else
    let s := s.withKernel (s.kernel.setCounter curr sysTaskTick)
    if s.kernel.taskCount = smp then s.setCore c { s.core c with pc := .user }
    else s.setCore c { s.core c with pc := .entered curr }

/-- The critical section of `_schedule` and the test of `next_task_id`. -/
def pick (s : State) (c curr : Nat) : Option State :=
  (s.kernel.criticalSection curr).map (fun (k, stored, next) =>
    let x := s.core c
    let x := { x with current := stored.or x.current }
    let x := { x with pc := if next = 2 ^ 32 - 1 then .user else .picked curr next }
    (s.withKernel k).setCore c x)

/-- The end of `_schedule` and the exception return. -/
def install (s : State) (c next : Nat) : Option State :=
  (s.kernel.switchContextEl next).map (fun f =>
    s.setCore c { s.core c with pc := .user, frame := f, looping := false })

/-- One step of core `c`. -/
def advance (smp : Nat) (s : State) (c : Nat) : Option State :=
  match (s.core c).pc with
  | .boot => some (s.initLocalBegin c)
  | .adopted => s.initLocalEnd c
  | .user => some s
  | .trapped => (s.core c).current.map (fun curr =>
      (s.withKernel (s.kernel.decCounter curr)).setCore c { s.core c with pc := .ticked curr })
  | .ticked curr => some (tickTest smp s c curr)
  | .entered curr => s.pick c curr
  | .picked _ next => s.install c next

/-- An interrupt is taken only with interrupts enabled, and `SPSR_EL1` of a frame
pushed on top of `main_entry` records EL1h. -/
def canTrap (s : State) (c : Nat) (frame : TrapFrame) : Bool :=
  (s.core c).pc = .user && (!(s.core c).looping || frame.spsr &&& 0xf == spsrEl1El1h)

/-- `SAVE_REGS` and `save_cpu_ctx`. -/
def irq (s : State) (c : Nat) (frame : TrapFrame) : Option State :=
  if s.canTrap c frame then do
    let curr ← (s.core c).current
    let k ← s.kernel.saveCpuCtx curr frame
    some ((s.withKernel k).setCore c { s.core c with pc := .trapped, frame := frame })
  else some s

/-- One step of the machine with `smp` cores. `none` is a fault: a null pointer
or an index outside the task table. -/
def step (smp : Nat) (s : State) : Event → Option State
  | .advance c => if c < smp then advance smp s c else some s
  | .irq c frame => if c < smp then s.irq c frame else some s

/-- What `switch_context_el` writes, when the event is its execution: the core,
the task and the frame. -/
def installed (smp : Nat) (s : State) : Event → Option (Nat × Nat × TrapFrame)
  | .advance c =>
    match (s.core c).pc with
    | .picked _ next =>
      if c < smp then (s.kernel.switchContextEl next).map (fun f => (c, next, f)) else none
    | _ => none
  | .irq _ _ => none

end State

/-- All cores past the barrier, the boot core having run `schedule_init` and
created the tasks. -/
def handoff (tasks : List (Word × Word)) : State where
  kernel := (Kernel.bss.scheduleInit).createTasks tasks
  core := fun _ => ⟨.boot, none, TrapFrame.zero, true⟩
  printLock := none

/-- The events by which each of the first `n` cores runs `schedule_init_local`. -/
def initEvents : Nat → List Event
  | 0 => []
  | n + 1 => initEvents n ++ [.advance n, .advance n]

section Fields

variable (s : State) (c d : Nat) (x : Core) (k : Kernel)

@[simp] theorem setCore_kernel : (s.setCore c x).kernel = s.kernel := rfl
@[simp] theorem setCore_printLock : (s.setCore c x).printLock = s.printLock := rfl
@[simp] theorem withKernel_kernel : (s.withKernel k).kernel = k := rfl
@[simp] theorem withKernel_core : (s.withKernel k).core = s.core := rfl
@[simp] theorem withKernel_printLock : (s.withKernel k).printLock = s.printLock := rfl

@[simp] theorem setCore_core :
    (s.setCore c x).core d = if d = c then x else s.core d := by
  by_cases h : d = c <;> simp [State.setCore, h]

end Fields

end Dmos.Smp
