import Dmos.Frame

namespace Dmos

def maxTasks : Nat := 64
def sysTaskTick : Nat := 20

/-- `SPSR_EL1_USER`, that is `SPSR_EL1_EL0t`. -/
def spsrEl1User : Word := 0
/-- Mode field `SPSR_EL1_EL1h` of an exception taken from the kernel itself. -/
def spsrEl1El1h : Word := 5
/-- `SPSR_EL2_VALUE_IRQ`: FIQ and abort masked, EL1h. -/
def spsrEl2ValueIrq : Word := 0x145

/-- The anonymous enumeration of `tcb_t.state`; 0 and 1 in this order. -/
inductive TaskState where
  | running
  | waiting
  deriving DecidableEq, Repr

/-- `tcb_t`. `cpuInfo` is the index in `g_cpu_dec` that the pointer names, or
`none` for the null pointer of a table entry no task was created in. -/
structure Tcb where
  cpuInfo : Option Nat
  state : TaskState
  counter : Nat
  id : Nat

/-- `cpu_t`: the saved context and the index in `cpu_sysregs` of `sys_reg`. -/
structure Cpu where
  ctx : TrapFrame
  sysReg : Option Nat

/-- The globals of `task.c`. -/
structure Kernel where
  taskList : Nat → Tcb
  cpuDec : Nat → Cpu
  taskCount : Nat

namespace Kernel

/-- All of it lies in `.bss`; 0 is the state `RUNNING`. -/
def bss : Kernel where
  taskList := fun _ => ⟨none, .running, 0, 0⟩
  cpuDec := fun _ => ⟨TrapFrame.zero, none⟩
  taskCount := 0

def modTask (k : Kernel) (i : Nat) (f : Tcb → Tcb) : Kernel :=
  { k with taskList := Function.update k.taskList i (f (k.taskList i)) }

def modCpu (k : Kernel) (i : Nat) (f : Cpu → Cpu) : Kernel :=
  { k with cpuDec := Function.update k.cpuDec i (f (k.cpuDec i)) }

def setState (k : Kernel) (i : Nat) (st : TaskState) : Kernel :=
  k.modTask i (fun t => { t with state := st })

def setCounter (k : Kernel) (i : Nat) (n : Nat) : Kernel :=
  k.modTask i (fun t => { t with counter := n })

def setCtx (k : Kernel) (i : Nat) (f : TrapFrame) : Kernel :=
  k.modCpu i (fun c => { c with ctx := f })

/-- `schedule_init`: every id becomes `-1` as a `uint32_t`. -/
def scheduleInit (k : Kernel) : Kernel :=
  { k with taskList := fun i => { k.taskList i with id := 2 ^ 32 - 1 } }

/-- `create_task`; a full table returns the null pointer and changes nothing. -/
def createTask (k : Kernel) (taskFunc stackTop : Word) : Kernel :=
  if k.taskCount ≥ maxTasks then k
  else
    let t := k.taskCount
    let k := k.modTask t (fun tcb => { tcb with id := t, state := .waiting, cpuInfo := some t })
    let k := k.modCpu t (fun cpu => { cpu with
      ctx := ((cpu.ctx.setElr taskFunc).setSpsr spsrEl1User).setUsp stackTop })
    let k := k.setCounter t sysTaskTick
    { k with taskCount := k.taskCount + 1 }

/-- The `create_task` calls of the boot core, in order. -/
def createTasks (k : Kernel) (tasks : List (Word × Word)) : Kernel :=
  tasks.foldl (fun k p => k.createTask p.1 p.2) k

/-- The search loop of `_schedule`. `n` iterations are left, the loop variable
is `i`, and `next` is `next_task_id` so far. The flag tells whether the loop
left through `break`; without it `next` is just the last candidate tried. -/
def scanFrom (k : Kernel) (id : Nat) : Nat → Nat → Nat → Nat × Bool
  | 0, _, next => (next, false)
  | n + 1, i, _ =>
    let next := (id + i) % 2 ^ 32 % k.taskCount
    if (k.taskList next).state = .running then k.scanFrom id n (i + 1) next
    else (next, true)

/-- `for (i = 1; i < task_count; i++)` with `next_task_id = -1` before it. -/
def scan (k : Kernel) (id : Nat) : Nat × Bool :=
  k.scanFrom id (k.taskCount - 1) 1 (2 ^ 32 - 1)

/-- The part of `_schedule` between `spin_lock` and `spin_unlock`. Returns the
table, what is stored to `current_thread` (if anything) and `next_task_id`. -/
def criticalSection (k : Kernel) (curr : Nat) : Option (Kernel × Option Nat × Nat) :=
  let id := (k.taskList curr).id
  match k.scan id with
  | (next, false) => some (k, none, next)
  | (next, true) =>
    -- `task_list[curr->id]` is an array access of its own, not `*curr`
    if id < maxTasks then
      some ((k.setState id .waiting).setState next .running, some next, next)
    else none

/-- `save_cpu_ctx`; a null `cpu_info` is a fault. -/
def saveCpuCtx (k : Kernel) (curr : Nat) (sp : TrapFrame) : Option Kernel :=
  (k.taskList curr).cpuInfo.map (fun cpu => k.setCtx cpu sp)

/-- `switch_context_el` overwrites the whole trap frame with the saved context
of `new`; the old task's context was saved on entry. -/
def switchContextEl (k : Kernel) (new : Nat) : Option TrapFrame :=
  (k.taskList new).cpuInfo.map (fun cpu => (k.cpuDec cpu).ctx)

/-- `--curr->counter` on a `uint32_t`. -/
def decCounter (k : Kernel) (curr : Nat) : Kernel :=
  k.setCounter curr (((k.taskList curr).counter + (2 ^ 32 - 1)) % 2 ^ 32)

section Fields

variable (k : Kernel) (i j n : Nat) (st : TaskState) (f : TrapFrame)

@[simp] theorem setState_taskCount : (k.setState i st).taskCount = k.taskCount := rfl
@[simp] theorem setCounter_taskCount : (k.setCounter i n).taskCount = k.taskCount := rfl
@[simp] theorem setCtx_taskCount : (k.setCtx i f).taskCount = k.taskCount := rfl
@[simp] theorem decCounter_taskCount : (k.decCounter i).taskCount = k.taskCount := rfl
@[simp] theorem setCtx_taskList : (k.setCtx i f).taskList = k.taskList := rfl
@[simp] theorem setState_cpuDec : (k.setState i st).cpuDec = k.cpuDec := rfl
@[simp] theorem setCounter_cpuDec : (k.setCounter i n).cpuDec = k.cpuDec := rfl
@[simp] theorem decCounter_cpuDec : (k.decCounter i).cpuDec = k.cpuDec := rfl

@[simp] theorem setState_state :
    ((k.setState i st).taskList j).state = if j = i then st else (k.taskList j).state := by
  by_cases h : j = i <;> simp [setState, modTask, h]

@[simp] theorem setState_id : ((k.setState i st).taskList j).id = (k.taskList j).id := by
  by_cases h : j = i <;> simp [setState, modTask, h]

@[simp] theorem setState_cpuInfo :
    ((k.setState i st).taskList j).cpuInfo = (k.taskList j).cpuInfo := by
  by_cases h : j = i <;> simp [setState, modTask, h]

@[simp] theorem setState_counter :
    ((k.setState i st).taskList j).counter = (k.taskList j).counter := by
  by_cases h : j = i <;> simp [setState, modTask, h]

@[simp] theorem setCounter_state :
    ((k.setCounter i n).taskList j).state = (k.taskList j).state := by
  by_cases h : j = i <;> simp [setCounter, modTask, h]

@[simp] theorem setCounter_id : ((k.setCounter i n).taskList j).id = (k.taskList j).id := by
  by_cases h : j = i <;> simp [setCounter, modTask, h]

@[simp] theorem setCounter_cpuInfo :
    ((k.setCounter i n).taskList j).cpuInfo = (k.taskList j).cpuInfo := by
  by_cases h : j = i <;> simp [setCounter, modTask, h]

@[simp] theorem setCounter_counter :
    ((k.setCounter i n).taskList j).counter = if j = i then n else (k.taskList j).counter := by
  by_cases h : j = i <;> simp [setCounter, modTask, h]

@[simp] theorem setCtx_ctx :
    ((k.setCtx i f).cpuDec j).ctx = if j = i then f else (k.cpuDec j).ctx := by
  by_cases h : j = i <;> simp [setCtx, modCpu, h]

@[simp] theorem setCtx_sysReg : ((k.setCtx i f).cpuDec j).sysReg = (k.cpuDec j).sysReg := by
  by_cases h : j = i <;> simp [setCtx, modCpu, h]

end Fields

end Kernel

end Dmos
