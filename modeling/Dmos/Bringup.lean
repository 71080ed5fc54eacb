import Dmos.Task
import Dmos.Lib.Run

namespace Dmos.Bringup

/-- `struct thread_info`, which lies at the low end of a core's stack. -/
structure ThreadInfo where
  cpu : Nat
  flags : Nat
  currentThread : Option Nat

/-- The three statements of `thread_info_init`. -/
inductive InitAt where
  | memset
  | cpu
  | flags
  deriving DecidableEq

/-- The next statement of a core, from the entry of `kernel_main` or
`second_kernel_main` to the end of `schedule_init_local`. Interrupts are masked
up to there. -/
inductive Pc where
  /-- Not started yet. -/
  | off
  /-- `kernel_main` before `start_secondary_cpus`. -/
  | kernelMain
  /-- In `thread_info_init` for core `i`. -/
  | threadInfoInit (i : Nat) (l : InitAt)
  /-- In `start_secondary_cpus`, before the `hvc_call` for core `i`. -/
  | cpuOn (i : Nat)
  | delay (i : Nat)
  /-- `second_kernel_main`, whose work is on the core's own devices. -/
  | secondKernelMain
  | mainEntry
  | scheduleInit
  /-- The `create_task` calls that are left. -/
  | createTask (rest : List (Word × Word))
  /-- `spin_lock(&lock)`, the load and the store of `inited_cpu_num ++` and `spin_unlock(&lock)`. -/
  | lockInited
  | loadInited
  | storeInited (n : Nat)
  | unlockInited
  /-- `while(inited_cpu_num != SMP_NUM)` -/
  | waitInited
  /-- `schedule_init_local`: `spin_lock(&print_lock)`, the load of `info->cpu`, the store of
  `info->current_thread` and the store of the task's state with the unlock. -/
  | lockPrint
  | loadCpu
  | storeCurrent (cpu : Nat)
  | setRunning
  | ready
  deriving DecidableEq

structure State where
  pc : Nat → Pc
  info : Nat → ThreadInfo
  initedCpuNum : Nat
  /-- The holders of `lock` of `main.c` and of `print_lock`. -/
  lock : Option Nat
  printLock : Option Nat
  kernel : Kernel

inductive Event where
  /-- The core executes its next statement. -/
  | advance (c : Nat)
  /-- The `hvc_call` of core 0 returns an error: it is printed, and the loop goes on. -/
  | cpuOnFails

namespace State

def goto (s : State) (c : Nat) (p : Pc) : State := { s with pc := Function.update s.pc c p }

def setInfo (s : State) (i : Nat) (x : ThreadInfo) : State :=
  { s with info := Function.update s.info i x }

/-- `PSCI_0_2_FN64_CPU_ON`: the core starts at `second_entry`. -/
def powerOn (s : State) (i : Nat) : State :=
  if s.pc i = .off then s.goto i .secondKernelMain else s

section Step

variable (smp : Nat) (tasks : List (Word × Word))

/-- The loop control of `start_secondary_cpus` after core `i`. -/
def nextCpu (i : Nat) : Pc := if i + 1 < smp then .cpuOn (i + 1) else .mainEntry

def advance (s : State) (c : Nat) : Option State :=
  match s.pc c with
  | .off => some s
  | .kernelMain => some ({ s with lock := none }.goto c (.threadInfoInit 0 .memset))
  | .threadInfoInit i .memset => some ((s.setInfo i ⟨0, 0, none⟩).goto c (.threadInfoInit i .cpu))
  | .threadInfoInit i .cpu =>
    some ((s.setInfo i { s.info i with cpu := i }).goto c (.threadInfoInit i .flags))
  | .threadInfoInit i .flags => some ((s.setInfo i { s.info i with flags := 0 }).goto c (nextCpu smp i))
  | .cpuOn i => some ((s.powerOn i).goto c (.delay i))
  | .delay i => some (s.goto c (.threadInfoInit i .memset))
  | .secondKernelMain => some (s.goto c .mainEntry)
  | .mainEntry => some (s.goto c (if c = 0 then .scheduleInit else .lockInited))
  | .scheduleInit =>
    some ({ s with kernel := s.kernel.scheduleInit, printLock := none }.goto c (.createTask tasks))
  | .createTask [] => some (s.goto c .lockInited)
  | .createTask (p :: rest) =>
    some ({ s with kernel := s.kernel.createTask p.1 p.2 }.goto c (.createTask rest))
  | .lockInited =>
    if s.lock = none then some ({ s with lock := some c }.goto c .loadInited) else some s
  | .loadInited => some (s.goto c (.storeInited s.initedCpuNum))
  | .storeInited n => some ({ s with initedCpuNum := n + 1 }.goto c .unlockInited)
  | .unlockInited => some ({ s with lock := none }.goto c .waitInited)
  | .waitInited => if s.initedCpuNum = smp then some (s.goto c .lockPrint) else some s
  | .lockPrint =>
    if s.printLock = none then some ({ s with printLock := some c }.goto c .loadCpu) else some s
  | .loadCpu => some (s.goto c (.storeCurrent (s.info c).cpu))
  | .storeCurrent cpu =>
    some ((s.setInfo c { s.info c with currentThread := some cpu }).goto c .setRunning)
  | .setRunning =>
    let cpu := (s.info c).cpu
    if cpu < maxTasks then
      some ({ s with kernel := s.kernel.setState cpu .running, printLock := none }.goto c .ready)
    else none
  | .ready => some s

def step (s : State) : Event → Option State
  | .advance c => if c < smp then advance smp tasks s c else some s
  | .cpuOnFails => match s.pc 0 with
    | .cpuOn i => some (s.goto 0 (.delay i))
    | _ => some s

end Step

/-- Reset: only core 0 runs, and the memory of the stacks holds anything. -/
def init (info : Nat → ThreadInfo) : State where
  pc := fun c => if c = 0 then .kernelMain else .off
  info := info
  initedCpuNum := 0
  lock := none
  printLock := none
  kernel := Kernel.bss

end State

namespace Pc

/-- Past the store to `inited_cpu_num`. -/
def counted : Pc → Bool
  | .unlockInited | .waitInited | .lockPrint | .loadCpu | .storeCurrent _ | .setRunning | .ready => true
  | _ => false

/-- Between `spin_lock(&lock)` and `spin_unlock(&lock)`. -/
def holding : Pc → Bool
  | .loadInited | .storeInited _ | .unlockInited => true
  | _ => false

/-- Past the wait loop. -/
def passed : Pc → Bool
  | .lockPrint | .loadCpu | .storeCurrent _ | .setRunning | .ready => true
  | _ => false

/-- Past the store to `current_thread`. -/
def stored : Pc → Bool
  | .setRunning | .ready => true
  | _ => false

/-- In the part of `main_entry` that all cores share. -/
def shared : Pc → Bool
  | .lockInited | .loadInited | .storeInited _ => true
  | p => p.counted

/-- The statement reads or writes the `thread_info` of the core that executes it. -/
def usesInfo : Pc → Bool
  | .loadCpu | .storeCurrent _ | .setRunning => true
  | _ => false

end Pc

end Dmos.Bringup
