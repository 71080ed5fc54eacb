import Mathlib.Logic.Function.Basic
import Dmos.Frame

namespace Dmos.Spinlock

inductive Reg where
  | w0 | w1 | w2
  deriving DecidableEq

/-- The instructions of `spinlock.S`. Memory is addressed through `x0`; a branch goes to an
instruction of the same routine. -/
inductive Instr where
  | mov (rd : Reg) (imm : BitVec 32)
  | ldaxr (rt : Reg)
  | cbnz (rt : Reg) (target : Nat)
  | stlxr (rs rt : Reg)
  | stlr (rt : Reg)
  | dmb
  | ret
  deriving DecidableEq

inductive Routine where
  | spinLock | spinTrylock | spinUnlock
  deriving DecidableEq

def Routine.code : Routine → List Instr
  | .spinLock =>
    [.mov .w1 1, .ldaxr .w2, .cbnz .w2 1, .stlxr .w2 .w1, .cbnz .w2 1, .dmb, .ret]
  | .spinTrylock =>
    [.mov .w1 1, .ldaxr .w2, .cbnz .w2 8, .stlxr .w2 .w1, .cbnz .w2 8, .dmb, .mov .w0 0, .ret,
      .mov .w0 1, .ret]
  | .spinUnlock => [.dmb, .mov .w1 0, .stlr .w1, .ret]

/-- A core: where it is in a routine, its registers, whether nothing but the core itself has
stored to the lock since its last `ldaxr`, and whether the routine it is in has taken the
lock. -/
structure Core where
  pc : Option (Routine × Nat)
  x0 : Word
  w1 : BitVec 32
  w2 : BitVec 32
  monitor : Bool
  acquired : Bool

namespace Core

def get (k : Core) : Reg → BitVec 32
  | .w0 => k.x0.setWidth 32
  | .w1 => k.w1
  | .w2 => k.w2

def set (k : Core) (rd : Reg) (v : BitVec 32) : Core :=
  match rd with
  | .w0 => { k with x0 := v.setWidth 64 }
  | .w1 => { k with w1 := v }
  | .w2 => { k with w2 := v }

/-- The instruction a core is at. -/
def instr (k : Core) : Option Instr := k.pc.bind fun (r, i) => r.code[i]?

def next (k : Core) : Core := { k with pc := k.pc.map fun (r, i) => (r, i + 1) }

def jump (k : Core) (target : Nat) : Core := { k with pc := k.pc.map fun (r, _) => (r, target) }

end Core

/-- What an instruction does to the lock: nothing, an exclusive store, or a plain one. -/
inductive Effect where
  | quiet
  | exclusive (v : BitVec 32)
  | plain (v : BitVec 32)

def Effect.word (e : Effect) (word : BitVec 32) : BitVec 32 :=
  match e with
  | .quiet => word
  | .exclusive v | .plain v => v

/-- One instruction of a core, on the lock at `lock` with the value `word`. `ok` is what the
hardware decides about an exclusive store, which may also fail when nothing stands against
it. `none`: an access somewhere else. -/
def exec (lock : Word) (word : BitVec 32) (ok : Bool) (k : Core) : Option (Core × Effect) :=
  k.instr.bind fun i =>
    match i with
    | .mov rd imm => some ((k.set rd imm).next, .quiet)
    | .ldaxr rt =>
      if k.x0 = lock then some (({ k with monitor := true }.set rt word).next, .quiet) else none
    | .cbnz rt target => some (if k.get rt ≠ 0 then k.jump target else k.next, .quiet)
    | .stlxr rs rt =>
      if k.x0 ≠ lock then none
      else if k.monitor && ok then
        some (({ k with acquired := true }.set rs 0).next, .exclusive (k.get rt))
      else some ((k.set rs 1).next, .quiet)
    | .stlr rt => if k.x0 = lock then some (k.next, .plain (k.get rt)) else none
    | .dmb => some (k.next, .quiet)
    | .ret => some ({ k with pc := none }, .quiet)

/-- The lock, the cores, and which of them hold it: from a successful `stlxr` to the `stlr`. -/
structure State (ι : Type) where
  word : BitVec 32
  core : ι → Core
  holds : ι → Bool

inductive Event (ι : Type) where
  /-- A core calls a routine, with anything in the other registers. -/
  | call (c : ι) (r : Routine) (w1 w2 : BitVec 32)
  /-- A core executes an instruction. -/
  | step (c : ι) (ok : Bool)

def Effect.holds (e : Effect) (held : Bool) : Bool :=
  match e with
  | .quiet => held
  | .exclusive _ => true
  | .plain _ => false

/-- A store clears the monitors of the other cores. -/
def Effect.monitor (e : Effect) (monitor : Bool) : Bool :=
  match e with
  | .quiet => monitor
  | .exclusive _ | .plain _ => false

def spinlockInit : BitVec 32 := 0

variable {ι : Type} [DecidableEq ι]

/-- An event, when it can happen: a core calls only from outside the routines, and
`spin_unlock` only when it holds the lock. -/
def step (lock : Word) (s : State ι) : Event ι → Option (State ι)
  | .call c r w1 w2 =>
    if (s.core c).pc = none ∧ (r = .spinUnlock → s.holds c = true) then
      let k : Core := ⟨some (r, 0), lock, w1, w2, (s.core c).monitor, false⟩
      some { s with core := Function.update s.core c k }
    else none
  | .step c ok =>
    (exec lock s.word ok (s.core c)).map fun (k, e) =>
      { word := e.word s.word
        core := fun d => if d = c then k else { s.core d with monitor := e.monitor (s.core d).monitor }
        holds := Function.update s.holds c (e.holds (s.holds c)) }

/-- The lock after `spinlock_init`, with no core in a routine. -/
def Initial (s : State ι) : Prop :=
  s.word = spinlockInit ∧ ∀ c, (s.core c).pc = none ∧ s.holds c = false

end Dmos.Spinlock
