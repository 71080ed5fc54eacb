import Mathlib.Data.Fin.Basic
import Dmos.Lib.Table

namespace Dmos.Lib

/-- A processing element: `x0..x30`, the stack pointer, the system registers
named by `S`, and memory. -/
structure Pe (S : Type) where
  x : Fin 31 → BitVec 64
  sp : BitVec 64
  sys : S → BitVec 64
  mem : WordMemory

/-- The base register of an address. -/
inductive Base where
  | sp
  | x (r : Fin 31)
  deriving DecidableEq, Repr

/-- The load, store and move instructions that context switches are made of.
Offsets are in bytes. -/
inductive Instr (S : Type) where
  | stp (r₁ r₂ : Fin 31) (base : Base) (off : BitVec 64)
  | ldp (r₁ r₂ : Fin 31) (base : Base) (off : BitVec 64)
  | str (r : Fin 31) (base : Base) (off : BitVec 64)
  | ldr (r : Fin 31) (base : Base) (off : BitVec 64)
  /-- `stp r₁, r₂, [b], #inc` -/
  | stpPost (r₁ r₂ b : Fin 31) (inc : BitVec 64)
  /-- `ldp r₁, r₂, [b], #inc` -/
  | ldpPost (r₁ r₂ b : Fin 31) (inc : BitVec 64)
  | mrs (r : Fin 31) (s : S)
  | msr (s : S) (r : Fin 31)
  /-- `mov r, sp` -/
  | movSp (r : Fin 31)
  /-- `mov sp, r` -/
  | setSp (r : Fin 31)
  | add (d r : Fin 31) (imm : BitVec 64)
  /-- `add sp, sp, imm` -/
  | addSp (imm : BitVec 64)
  /-- `sub sp, sp, imm` -/
  | subSp (imm : BitVec 64)
  /-- `dsb` and `isb` -/
  | barrier

namespace Pe

variable {S : Type} [DecidableEq S]

def base (p : Pe S) : Base → BitVec 64
  | .sp => p.sp
  | .x r => p.x r

def setX (p : Pe S) (r : Fin 31) (v : BitVec 64) : Pe S := { p with x := Function.update p.x r v }

def setSys (p : Pe S) (s : S) (v : BitVec 64) : Pe S := { p with sys := Function.update p.sys s v }

def store (p : Pe S) (a v : BitVec 64) : Pe S := { p with mem := Function.update p.mem a v }

def exec (p : Pe S) : Instr S → Pe S
  | .stp r₁ r₂ b off =>
    let a := p.base b + off
    (p.store a (p.x r₁)).store (a + 8) (p.x r₂)
  | .ldp r₁ r₂ b off =>
    let a := p.base b + off
    (p.setX r₁ (p.mem a)).setX r₂ (p.mem (a + 8))
  | .str r b off => p.store (p.base b + off) (p.x r)
  | .ldr r b off => p.setX r (p.mem (p.base b + off))
  | .stpPost r₁ r₂ b inc =>
    let a := p.x b
    ((p.store a (p.x r₁)).store (a + 8) (p.x r₂)).setX b (a + inc)
  | .ldpPost r₁ r₂ b inc =>
    let a := p.x b
    ((p.setX r₁ (p.mem a)).setX r₂ (p.mem (a + 8))).setX b (a + inc)
  | .mrs r s => p.setX r (p.sys s)
  | .msr s r => p.setSys s (p.x r)
  | .movSp r => p.setX r p.sp
  | .setSp r => { p with sp := p.x r }
  | .add d r imm => p.setX d (p.x r + imm)
  | .addSp imm => { p with sp := p.sp + imm }
  | .subSp imm => { p with sp := p.sp - imm }
  | .barrier => p

def execAll (p : Pe S) (is : List (Instr S)) : Pe S := is.foldl exec p

end Pe

namespace Instr

variable {S : Type}

def writesSys : Instr S → Option S
  | .msr s _ => some s
  | _ => none

def isStore : Instr S → Bool
  | .stp .. | .str .. | .stpPost .. => true
  | _ => false

def movesSp : Instr S → Bool
  | .setSp _ | .addSp _ | .subSp _ => true
  | _ => false

end Instr

namespace Pe

variable {S : Type} [DecidableEq S] {is : List (Instr S)}

theorem execAll_cons (p : Pe S) (i : Instr S) (is : List (Instr S)) :
    p.execAll (i :: is) = (p.exec i).execAll is := rfl

/-- The frame rule for system registers. -/
theorem execAll_sys (p : Pe S) {s : S} (h : ∀ i ∈ is, i.writesSys ≠ some s) :
    (p.execAll is).sys s = p.sys s := by
  induction is generalizing p with
  | nil => rfl
  | cons i is ih =>
    rw [execAll_cons, ih _ (fun j hj => h j (by simp [hj]))]
    have hi := h i (by simp)
    cases i with
    | msr s' r =>
      have hne : s ≠ s' := fun he => hi (by rw [he]; rfl)
      simp [exec, setSys, hne]
    | _ => rfl

/-- Code without stores leaves memory alone. -/
theorem execAll_mem (p : Pe S) (h : ∀ i ∈ is, i.isStore = false) : (p.execAll is).mem = p.mem := by
  induction is generalizing p with
  | nil => rfl
  | cons i is ih =>
    rw [execAll_cons, ih _ (fun j hj => h j (by simp [hj]))]
    have hi := h i (by simp)
    cases i with
    | stp => cases hi
    | str => cases hi
    | stpPost => cases hi
    | _ => rfl

theorem execAll_sp (p : Pe S) (h : ∀ i ∈ is, i.movesSp = false) : (p.execAll is).sp = p.sp := by
  induction is generalizing p with
  | nil => rfl
  | cons i is ih =>
    rw [execAll_cons, ih _ (fun j hj => h j (by simp [hj]))]
    have hi := h i (by simp)
    cases i with
    | setSp => cases hi
    | addSp => cases hi
    | subSp => cases hi
    | _ => rfl

end Pe

end Dmos.Lib
