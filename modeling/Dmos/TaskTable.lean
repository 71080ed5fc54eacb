import Dmos.Schedule
import Dmos.Hyper
import Dmos.Lib.Halves

namespace Dmos.TaskTable
open Lib Schedule Hyper

/-- `task_list` as the doublewords from its address on, in `#pragma pack(1)` layout:
six for each `tcb_t`, and what the linker put behind the last one. -/
abbrev Words := Nat → Word

/-- `tcb_t` -/
@[ext] structure PackedTcb where
  cpuInfo : Word
  sp : Word
  state : BitVec 32
  counter : BitVec 32
  priority : BitVec 32
  id : BitVec 32
  pre : Word
  next : Word
  deriving DecidableEq, Repr

/-- `RUNNING` and `WAITING`. -/
def running : BitVec 32 := 0
def waiting : BitVec 32 := 1

namespace Words

def tcb (m : Words) (i : Nat) : PackedTcb where
  cpuInfo := m (6 * i)
  sp := m (6 * i + 1)
  state := lo (m (6 * i + 2))
  counter := hi (m (6 * i + 2))
  priority := lo (m (6 * i + 3))
  id := hi (m (6 * i + 3))
  pre := m (6 * i + 4)
  next := m (6 * i + 5)

def setCpuInfo (m : Words) (i : Nat) (p : Word) : Words := Function.update m (6 * i) p

def setState (m : Words) (i : Nat) (st : BitVec 32) : Words :=
  Function.update m (6 * i + 2) (ofHalves (m.tcb i).counter st)

def setCounter (m : Words) (i : Nat) (n : BitVec 32) : Words :=
  Function.update m (6 * i + 2) (ofHalves n (m.tcb i).state)

def setId (m : Words) (i : Nat) (id : BitVec 32) : Words :=
  Function.update m (6 * i + 3) (ofHalves id (m.tcb i).priority)

/-- The search loop of `_schedule`, with the arguments and results of `Kernel.scanFrom`. -/
def scanFrom (m : Words) (taskCount id : Nat) : Nat → Nat → Nat → Nat × Bool
  | 0, _, next => (next, false)
  | n + 1, i, _ =>
    let next := (id + i) % 2 ^ 32 % taskCount
    if (m.tcb next).state = running then m.scanFrom taskCount id n (i + 1) next
    else (next, true)

def scan (m : Words) (taskCount id : Nat) : Nat × Bool :=
  m.scanFrom taskCount id (taskCount - 1) 1 (2 ^ 32 - 1)

/-- The stores of `switch_context`. -/
def storeContext (m : Words) (prev : Nat) (r : Saved) : Words := fun w =>
  if h : 6 * prev ≤ w ∧ w < 6 * prev + 14 then r ⟨w - 6 * prev, by omega⟩ else m w

/-- Its loads. -/
def loadContext (m : Words) (next : Nat) : Saved := fun k => m (6 * next + k)

section Fields

variable {m m' : Words} {i j : Nat}

/-- An entry is its six doublewords. -/
theorem tcb_eq_iff : m'.tcb i = m.tcb i ↔ ∀ k < 6, m' (6 * i + k) = m (6 * i + k) := by
  constructor
  · intro h k hk
    simp only [tcb, PackedTcb.mk.injEq] at h
    obtain ⟨h0, h1, hs, hc, hp, hi, h4, h5⟩ := h
    match k, hk with
    | 0, _ => exact h0
    | 1, _ => exact h1
    | 2, _ => exact halves_ext.mpr ⟨hc, hs⟩
    | 3, _ => exact halves_ext.mpr ⟨hi, hp⟩
    | 4, _ => exact h4
    | 5, _ => exact h5
  · intro h
    have h0 := h 0 (by omega)
    rw [Nat.add_zero] at h0
    simp only [tcb, h0, h 1 (by omega), h 2 (by omega), h 3 (by omega), h 4 (by omega),
      h 5 (by omega)]

/-- A store to another entry. -/
theorem tcb_update_of_ne {w : Nat} (v : Word) (h : w / 6 ≠ j) :
    tcb (Function.update m w v) j = m.tcb j := by
  rw [tcb_eq_iff]
  intro k hk
  apply Function.update_of_ne
  omega

/-- The search reads the states alone. -/
theorem scan_congr (h : ∀ i, (m'.tcb i).state = (m.tcb i).state) (taskCount id : Nat) :
    m'.scan taskCount id = m.scan taskCount id := by
  have hfrom : ∀ n l next, m'.scanFrom taskCount id n l next = m.scanFrom taskCount id n l next := by
    intro n
    induction n with
    | zero => exact fun _ _ => rfl
    | succ n ih =>
      intro l next
      simp only [scanFrom, h, ih]
  exact hfrom _ _ _

variable (m i j)

theorem tcb_setCpuInfo (p : Word) :
    (m.setCpuInfo i p).tcb j = if j = i then { m.tcb i with cpuInfo := p } else m.tcb j := by
  by_cases h : j = i
  · subst h
    simp [setCpuInfo, tcb]
  · rw [if_neg h]
    exact tcb_update_of_ne p (by omega)

theorem tcb_setState (st : BitVec 32) :
    (m.setState i st).tcb j = if j = i then { m.tcb i with state := st } else m.tcb j := by
  by_cases h : j = i
  · subst h
    simp [setState, tcb]
  · rw [if_neg h]
    exact tcb_update_of_ne _ (by omega)

theorem tcb_setCounter (n : BitVec 32) :
    (m.setCounter i n).tcb j = if j = i then { m.tcb i with counter := n } else m.tcb j := by
  by_cases h : j = i
  · subst h
    simp [setCounter, tcb]
  · rw [if_neg h]
    exact tcb_update_of_ne _ (by omega)

theorem tcb_setId (id : BitVec 32) :
    (m.setId i id).tcb j = if j = i then { m.tcb i with id := id } else m.tcb j := by
  by_cases h : j = i
  · subst h
    simp [setId, tcb]
  · rw [if_neg h]
    exact tcb_update_of_ne _ (by omega)

theorem setState_self (st : BitVec 32) :
    m.setState i st (6 * i + 2) = ofHalves (hi (m (6 * i + 2))) st := Function.update_self ..

theorem setState_of_ne {w : Nat} (h : w ≠ 6 * i + 2) (st : BitVec 32) : m.setState i st w = m w :=
  Function.update_of_ne h ..

/-- The state is a lower half. -/
theorem hi_setState (st : BitVec 32) (w : Nat) : hi (m.setState i st w) = hi (m w) := by
  by_cases h : w = 6 * i + 2
  · rw [h, setState_self, hi_ofHalves]
  · rw [setState_of_ne m i h]

theorem setCounter_of_ne {w : Nat} (h : w ≠ 6 * i + 2) (n : BitVec 32) :
    m.setCounter i n w = m w := Function.update_of_ne h ..

theorem storeContext_stored (r : Saved) (k : Fin 14) : m.storeContext i r (6 * i + k) = r k := by
  have hk := k.isLt
  rw [storeContext, dif_pos ⟨by omega, by omega⟩]
  congr 1
  exact Fin.ext (Nat.add_sub_cancel_left ..)

theorem storeContext_of_not {w : Nat} (r : Saved) (h : ∀ k : Fin 14, w ≠ 6 * i + k) :
    m.storeContext i r w = m w := by
  rw [storeContext, dif_neg]
  rintro ⟨hlo, hhi⟩
  exact h ⟨w - 6 * i, by omega⟩ (by simp; omega)

end Fields

end Words

open SysReg in
/-- `switch_context` up to the unmasking of interrupts; `x0` and `x1` point to the
entries of the two tasks. -/
def switchContextCode : List (Instr SysReg) :=
  [.stp 19 20 (.x 0) (16 * 0),
   .stp 21 22 (.x 0) (16 * 1),
   .stp 23 24 (.x 0) (16 * 2),
   .stp 25 26 (.x 0) (16 * 3),
   .stp 27 28 (.x 0) (16 * 4),
   .stp 29 30 (.x 0) (16 * 5),
   .mrs 19 tpidrEl0,
   .movSp 20,
   .stp 19 20 (.x 0) (16 * 6),
   .ldp 23 24 (.x 1) (16 * 6),
   .msr tpidrEl0 23,
   .setSp 24,
   .ldp 19 20 (.x 1) (16 * 0),
   .ldp 21 22 (.x 1) (16 * 1),
   .ldp 23 24 (.x 1) (16 * 2),
   .ldp 25 26 (.x 1) (16 * 3),
   .ldp 27 28 (.x 1) (16 * 4),
   .ldp 29 30 (.x 1) (16 * 5)]

/-- The globals of `task.c` and each core's `current_thread`. -/
structure Packed where
  words : Words
  cpuDec : Nat → Cpu
  taskCount : BitVec 32
  current : Nat → Option Nat

namespace Packed

section Calls

variable (cpuAt : Word → Option Nat) (smp : Nat)

/-- The part of `_schedule` between `spin_lock` and `spin_unlock`. -/
def criticalSection (p : Packed) (c curr : Nat) : Option (Packed × Nat) :=
  let id := (p.words.tcb curr).id.toNat
  match p.words.scan p.taskCount.toNat id with
  | (next, false) => some (p, next)
  | (next, true) =>
    if id < maxTasks then
      some ({ p with
        words := (p.words.setState id waiting).setState next running
        current := Function.update p.current c (some next) }, next)
    else none

/-- `_schedule`, and when it ends in `switch_context` the task switched to with the
registers that it is resumed with. -/
def _schedule (p : Packed) (c : Nat) (sp : Sp) : Option (Packed × Option (Nat × Saved)) :=
  if p.taskCount.toNat = smp then some (p, none)
  else do
    let curr ← p.current c
    let (p, next) ← p.criticalSection c curr
    if next = 2 ^ 32 - 1 then some (p, none)
    else match sp with
      | .frame => (cpuAt (p.words.tcb next).cpuInfo).map (fun _ => (p, none))
      | .null regs =>
        let words := p.words.storeContext curr regs
        some ({ p with words }, some (next, words.loadContext next))

def schedule (p : Packed) (c : Nat) (regs : Saved) : Option (Packed × Option (Nat × Saved)) := do
  let curr ← p.current c
  let p := { p with words := p.words.setCounter curr 0 }
  p._schedule cpuAt smp c (.null regs)

def timerTickSchedule (p : Packed) (c : Nat) : Option Packed := do
  let curr ← p.current c
  let p := { p with words := p.words.setCounter curr ((p.words.tcb curr).counter - 1) }
  if (p.words.tcb curr).counter > 0 then some p
  else
    let p := { p with words := p.words.setCounter curr (BitVec.ofNat 32 sysTaskTick) }
    (p._schedule cpuAt smp c .frame).map Prod.fst

/-- `create_task`; `cpuAddr` is the address of an entry of `g_cpu_dec`. -/
def createTask (cpuAddr : Nat → Word) (p : Packed) (taskFunc stackTop : Word) : Packed :=
  if p.taskCount.toNat ≥ maxTasks then p
  else
    let t := p.taskCount.toNat
    let words := ((p.words.setId t p.taskCount).setState t waiting).setCpuInfo t (cpuAddr t)
    let ctx := (((p.cpuDec t).ctx.setElr taskFunc).setSpsr spsrEl1User).setUsp stackTop
    { p with
      words := words.setCounter t (BitVec.ofNat 32 sysTaskTick)
      cpuDec := Function.update p.cpuDec t { p.cpuDec t with ctx }
      taskCount := p.taskCount + 1 }

end Calls

def step (cpuAt : Word → Option Nat) (cpuAddr : Nat → Word) (smp : Nat) (p : Packed) :
    Call → Option Packed
  | .createTask f st => some (p.createTask cpuAddr f st)
  | .timerTickSchedule c => if c < smp then p.timerTickSchedule cpuAt smp c else some p
  | .schedule c regs => if c < smp then (p.schedule cpuAt smp c regs).map Prod.fst else some p

/-- The table as records. -/
def toSys (cpuAt : Word → Option Nat) (p : Packed) : Sys where
  kernel :=
    { taskList := fun i => overlay cpuAt (p.words (6 * i)) (p.words (6 * i + 2)) (p.words (6 * i + 3))
      cpuDec := p.cpuDec
      taskCount := p.taskCount.toNat }
  current := p.current

end Packed

end Dmos.TaskTable
