import Mathlib.Tactic.FinCases
import Mathlib.Data.Fintype.Basic
import Dmos.El1

namespace Dmos.Proofs.TaskFrames
open Lib El1 SysReg

/-- The 34 words from address `a` on as a trap frame. -/
def frameAt (mem : WordMemory) (a : Word) : TrapFrame := fun i => mem (slot a i)

/-- The trap frame of the code that an exception interrupted. -/
def frameOf (u : User) : TrapFrame := fun i =>
  if h : i.val < 31 then u.x ⟨i, h⟩
  else if i.val = 31 then u.sp
  else if i.val = 32 then u.pc
  else u.pstate

/-- The registers after an exception return are those of the frame. -/
structure Resumes (r : Regs) (f : TrapFrame) : Prop where
  x : ∀ i, r.x i = f.r i
  usp : r.sys spEl0 = f.usp
  elr : r.sys elrEl1 = f.elr
  spsr : r.sys spsrEl1 = f.spsr

section Code

variable (p : Pe SysReg)

/-- The stores of `SAVE_REGS` lay out the fields of `trap_frame_t` in order. -/
theorem saveRegs_mem (u : User) : ((takeException p u).execAll saveRegs).mem =
    memcpy p.mem (p.sp - 272) 34 (fun i => frameOf u (Fin.ofNat 34 i)) := by
  simp [memcpy, Nat.fold_succ, saveRegs, takeException, Pe.execAll, Pe.exec, Pe.store, Pe.setX,
    Pe.base, slot, frameOf, BitVec.add_assoc]

theorem saveRegs_sp (u : User) : ((takeException p u).execAll saveRegs).sp = p.sp - 272 := by
  rw [saveRegs, Pe.execAll_cons, Pe.execAll_sp _ (by decide)]
  rfl

theorem restoreRegs_mem : (p.execAll restoreRegs).mem = p.mem := p.execAll_mem (by decide)

theorem restoreRegs_sp : (p.execAll restoreRegs).sp = p.sp + 272 := by
  simp [restoreRegs, Pe.execAll, Pe.exec, Pe.setX, Pe.setSys]

theorem restoreRegs_x (i : Fin 31) : (p.execAll restoreRegs).x i = p.mem (slot p.sp i) := by
  simp only [restoreRegs, Pe.execAll, List.foldl_cons, List.foldl_nil, Pe.exec, Pe.setX,
    Pe.setSys, Pe.base, BitVec.add_assoc]
  fin_cases i <;> rfl

/-- `x9`, `x10` and `x11` carry the system registers before they get their own values. -/
theorem restoreRegs_sys : (p.execAll restoreRegs).sys spEl0 = p.mem (slot p.sp 31) ∧
    (p.execAll restoreRegs).sys elrEl1 = p.mem (slot p.sp 32) ∧
    (p.execAll restoreRegs).sys spsrEl1 = p.mem (slot p.sp 33) := by
  refine ⟨?_, ?_, ?_⟩ <;>
    simp [restoreRegs, Pe.execAll, Pe.exec, Pe.setX, Pe.setSys, Pe.base, slot, BitVec.add_assoc]

/-- `RESTORE_REGS` loads the frame at the stack pointer. -/
theorem restoreRegs_resumes : Resumes ⟨(p.execAll restoreRegs).x, (p.execAll restoreRegs).sp,
    (p.execAll restoreRegs).sys⟩ (frameAt p.mem p.sp) where
  x := restoreRegs_x p
  usp := (restoreRegs_sys p).1
  elr := (restoreRegs_sys p).2.1
  spsr := (restoreRegs_sys p).2.2

end Code

section Memory

variable {smp : Nat} (l : Layout smp)

/-- The trap frame of core `c`. -/
def base (c : Nat) : Word := l.sp c - 272

theorem toNat_base {c : Nat} (hc : c < smp) : (base l c).toNat = (l.sp c).toNat - 272 := by
  rw [base, BitVec.toNat_sub_of_le]
  · rfl
  · rw [BitVec.le_def]
    exact l.fits c hc

theorem base_fits {c : Nat} (hc : c < smp) : (base l c).toNat + 8 * 34 ≤ 2 ^ 64 := by
  have h := l.fits c hc
  have hlt := (l.sp c).isLt
  rw [toNat_base l hc]
  omega

theorem slot_apart {c d i j : Nat} (hc : c < smp) (hd : d < smp) (hcd : c ≠ d) (hi : i < 34)
    (hj : j < 34) : slot (base l c) i ≠ slot (base l d) j := by
  have h1 := l.fits c hc
  have h2 := l.fits d hd
  have h3 := base_fits l hc
  have h4 := base_fits l hd
  refine slot_ne (by omega) (by omega) ?_
  rw [toNat_base l hc, toNat_base l hd]
  rcases l.apart c hc d hd hcd with h | h <;> omega

theorem frameAt_memcpy {c : Nat} (hc : c < smp) (mem : WordMemory) (f : TrapFrame) :
    frameAt (memcpy mem (base l c) 34 (fun i => f (Fin.ofNat 34 i))) (base l c) = f := by
  funext i
  rw [frameAt, filled_memcpy _ _ (base_fits l hc) i i.isLt]
  congr 1
  exact Fin.ext (Nat.mod_eq_of_lt i.isLt)

/-- The frames of the other cores are left alone. -/
theorem frameAt_memcpy_other {c d : Nat} (hc : c < smp) (hd : d < smp) (hdc : d ≠ c)
    (mem : WordMemory) (f : Nat → Word) :
    frameAt (memcpy mem (base l c) 34 f) (base l d) = frameAt mem (base l d) := by
  funext i
  exact memcpy_frame _ _ (fun j hj => slot_apart l hd hc hdc i.isLt hj)

end Memory

end Dmos.Proofs.TaskFrames
