import Dmos.Smp
import Dmos.Spinlock

namespace Dmos.ScheduleSteps
open Smp

/-- Where a core is in `_schedule` from the call of `spin_lock(&lock)` to the
return of `spin_unlock(&lock)`, with the locals `i` and `next_task_id`. -/
inductive Spot where
  /-- In `spin_lock`. -/
  | locking
  /-- At the condition of the `for` loop. -/
  | loop (i next : Nat)
  /-- Before `task_list[curr->id].state = WAITING`. -/
  | found (next : Nat)
  /-- Before `task_list[next_task_id].state = RUNNING`. -/
  | parked (next : Nat)
  /-- Before `info->current_thread = &task_list[next_task_id]`. -/
  | marked (next : Nat)
  /-- Before `spin_unlock`. -/
  | done (next : Nat)
  /-- In `spin_unlock`. -/
  | unlocking (next : Nat)
  deriving DecidableEq, Repr

/-- The machine with `_schedule` statement by statement and its lock instruction
by instruction. A core with a spot is at `.entered` in `os`. -/
structure State where
  os : Smp.State
  spin : Spinlock.State Nat
  spot : Nat → Option Spot

/-- A step, with what the hardware decides about an exclusive store and what a
call finds in `w1` and `w2`. -/
structure Event where
  ev : Smp.Event
  ok : Bool
  w1 : BitVec 32
  w2 : BitVec 32

namespace State

def setSpot (f : State) (c : Nat) (p : Option Spot) : State :=
  { f with spot := Function.update f.spot c p }

def withOs (f : State) (s : Smp.State) : State := { f with os := s }

def withSpin (f : State) (s : Spinlock.State Nat) : State := { f with spin := s }

def call (lock : Word) (f : State) (c : Nat) (r : Spinlock.Routine) (e : Event) (p : Spot) :
    Option State :=
  (Spinlock.step lock f.spin (.call c r e.w1 e.w2)).map (fun s => (f.withSpin s).setSpot c (some p))

/-- The next instruction of the routine that core `c` is in. -/
def instr (lock : Word) (f : State) (c : Nat) (e : Event) : Option State :=
  (Spinlock.step lock f.spin (.step c e.ok)).map f.withSpin

/-- The condition of the loop and, when it holds, the body up to the test. -/
def loop (f : State) (c curr i next : Nat) : State :=
  let k := f.os.kernel
  if i < k.taskCount then
    let next := ((k.taskList curr).id + i) % 2 ^ 32 % k.taskCount
    if (k.taskList next).state = .running then f.setSpot c (some (.loop (i + 1) next))
    else f.setSpot c (some (.found next))
  else f.setSpot c (some (.done next))

/-- After `spin_unlock`: the test of `next_task_id`. -/
def leave (f : State) (c curr next : Nat) : State :=
  (f.withOs (f.os.setCore c { f.os.core c with
    pc := if next = 2 ^ 32 - 1 then .user else .picked curr next })).setSpot c none

/-- One step of a core that is in `_schedule` with `curr`. -/
def schedule (lock : Word) (f : State) (c curr : Nat) (e : Event) : Option State :=
  match f.spot c with
  | none => f.call lock c .spinLock e .locking
  | some .locking =>
    if (f.spin.core c).pc = none then some (f.setSpot c (some (.loop 1 (2 ^ 32 - 1))))
    else f.instr lock c e
  | some (.loop i next) => some (f.loop c curr i next)
  | some (.found next) =>
    let id := (f.os.kernel.taskList curr).id
    if id < maxTasks then
      some ((f.withOs (f.os.withKernel (f.os.kernel.setState id .waiting))).setSpot c
        (some (.parked next)))
    else none
  | some (.parked next) =>
    some ((f.withOs (f.os.withKernel (f.os.kernel.setState next .running))).setSpot c
      (some (.marked next)))
  | some (.marked next) =>
    some ((f.withOs (f.os.setCore c { f.os.core c with current := some next })).setSpot c
      (some (.done next)))
  | some (.done next) => f.call lock c .spinUnlock e (.unlocking next)
  | some (.unlocking next) =>
    if (f.spin.core c).pc = none then some (f.leave c curr next) else f.instr lock c e

/-- One step of the machine; everything but `_schedule` is as in `Smp`. -/
def step (lock : Word) (smp : Nat) (f : State) (e : Event) : Option State :=
  match e.ev with
  | .advance c =>
    if c < smp then
      match (f.os.core c).pc with
      | .entered curr => f.schedule lock c curr e
      | _ => (f.os.advance smp c).map f.withOs
    else some f
  | .irq c frame => if c < smp then (f.os.irq c frame).map f.withOs else some f

end State

/-- No core is in `_schedule`, and the lock is as `schedule_init` left it. -/
def start (s : Smp.State) (spin : Spinlock.State Nat) : State := ⟨s, spin, fun _ => none⟩

section Fields

variable (f : State) (c d : Nat) (p : Option Spot) (s : Smp.State) (l : Spinlock.State Nat)

@[simp] theorem setSpot_os : (f.setSpot c p).os = f.os := rfl
@[simp] theorem setSpot_spin : (f.setSpot c p).spin = f.spin := rfl
@[simp] theorem withOs_os : (f.withOs s).os = s := rfl
@[simp] theorem withOs_spot : (f.withOs s).spot = f.spot := rfl
@[simp] theorem withSpin_os : (f.withSpin l).os = f.os := rfl
@[simp] theorem withSpin_spin : (f.withSpin l).spin = l := rfl
@[simp] theorem withSpin_spot : (f.withSpin l).spot = f.spot := rfl

@[simp] theorem setSpot_spot : (f.setSpot c p).spot d = if d = c then p else f.spot d := by
  by_cases h : d = c <;> simp [State.setSpot, h]

end Fields

end Dmos.ScheduleSteps
