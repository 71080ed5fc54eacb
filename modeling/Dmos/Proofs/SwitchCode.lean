import Mathlib.Data.BitVec
import Mathlib.Tactic.FinCases
import Mathlib.Data.Fintype.Basic
import Dmos.Hyper

namespace Dmos.Proofs.SwitchCode
open Lib Hyper SysReg

/-- The fields of `cpu_sysregs_t` that `save_sysregs` stores, in order. -/
def savedRegs : List SysReg :=
  [sctlrEl1, ttbr0El1, ttbr1El1, tcrEl1, esrEl1, farEl1, afsr0El1, afsr1El1, mairEl1, amairEl1,
    contextidrEl1, cpacrEl1, elrEl1, fpcr, fpsr, midrEl1, mpidrEl1, parEl1, spEl0, spEl1, spsrEl1,
    tpidrEl0, tpidrEl1, tpidrroEl0, vbarEl1]

/-- The trap frame that `trap_frame_t` describes, for the registers at the
exception; `usp` gets the stack pointer. -/
def frameOf (p : Pe SysReg) : TrapFrame := fun i =>
  if h : i.val < 31 then p.x ⟨i, h⟩
  else if i.val = 31 then p.sp
  else if i.val = 32 then p.sys elrEl2
  else p.sys spsrEl2

/-- The stores of `SAVE_REGS_EL2` lay out the fields of the frame in order. -/
theorem saveRegs_mem (p : Pe SysReg) : (p.execAll saveRegsEl2).mem =
    memcpy p.mem (p.sp - 272) 34 (fun i => frameOf p (Fin.ofNat 34 i)) := by
  simp [memcpy, Nat.fold_succ, saveRegsEl2, Pe.execAll, Pe.exec, Pe.store, Pe.setX, Pe.base, slot,
    frameOf, BitVec.add_assoc]

theorem saveRegs_sp (p : Pe SysReg) : (p.execAll saveRegsEl2).sp = p.sp - 272 := by
  rw [saveRegsEl2, Pe.execAll_cons, Pe.execAll_sp _ (by decide)]
  rfl

theorem saveRegs_sys (p : Pe SysReg) (r : SysReg) : (p.execAll saveRegsEl2).sys r = p.sys r :=
  p.execAll_sys (fun i hi => by
    revert i
    simp [saveRegsEl2, Instr.writesSys])

/-- The stores of `save_sysregs` follow the fields of the structure. -/
theorem saveSysregs_mem (p : Pe SysReg) : (p.execAll saveSysregs).mem =
    memcpy p.mem (p.x 0) 25 (fun i => p.sys (savedRegs.getD i vbarEl1)) := by
  simp [memcpy, Nat.fold_succ, saveSysregs, Pe.execAll, Pe.exec, Pe.store, Pe.setX, Pe.base, slot,
    savedRegs, BitVec.add_assoc]

/-- `restore_sysregs` puts each field back where `save_sysregs` took it from; only
the two identification registers go elsewhere, to their virtual counterparts. -/
theorem restoreSysregs_sys (p : Pe SysReg) {r : SysReg} (hg : guestReg r = true) :
    (p.execAll restoreSysregs).sys r = p.mem (slot (p.x 0) (savedRegs.idxOf r)) := by
  -- The code is executed once, with the register still open.
  simp only [Pe.execAll, restoreSysregs, Fin.isValue, BitVec.ofNat_eq_ofNat, List.foldl_cons,
    Pe.exec, Pe.setX, Pe.setSys, ne_eq, Fin.one_eq_zero_iff, Nat.reduceEqDiff, not_false_eq_true,
    Function.update_of_ne, Fin.reduceEq, Function.update_self, BitVec.add_assoc, BitVec.reduceAdd,
    Pe.base, BitVec.add_zero, List.foldl_nil]
  cases r with
  | sctlrEl1 => simp [slot, savedRegs]
  | _ => first | exact absurd hg (by decide) | rfl

theorem savedRegs_idxOf {r : SysReg} (hg : guestReg r = true) :
    savedRegs.idxOf r < 25 ∧ savedRegs.getD (savedRegs.idxOf r) vbarEl1 = r := by
  cases r <;> first
    | exact absurd hg (by decide)
    | decide

theorem restoreRegs_x (p : Pe SysReg) (i : Fin 31) :
    (p.execAll restoreRegsEl2).x i = p.mem (slot p.sp i) := by
  simp only [restoreRegsEl2, Pe.execAll, List.foldl_cons, List.foldl_nil, Pe.exec, Pe.setX,
    Pe.setSys, Pe.base, BitVec.add_assoc]
  fin_cases i <;> rfl

theorem restoreRegs_elr (p : Pe SysReg) :
    (p.execAll restoreRegsEl2).sys elrEl2 = p.mem (slot p.sp 32) := by
  simp [restoreRegsEl2, Pe.execAll, Pe.exec, Pe.setX, Pe.setSys, Pe.base, slot]

theorem restoreRegs_spsr (p : Pe SysReg) :
    (p.execAll restoreRegsEl2).sys spsrEl2 = p.mem (slot p.sp 33) := by
  simp [restoreRegsEl2, Pe.execAll, Pe.exec, Pe.setX, Pe.setSys, Pe.base, slot, BitVec.add_assoc]

theorem restoreRegs_sp (p : Pe SysReg) : (p.execAll restoreRegsEl2).sp = p.sp + 272 := by
  simp [restoreRegsEl2, Pe.execAll, Pe.exec, Pe.setX, Pe.setSys]

end Dmos.Proofs.SwitchCode
