import Dmos.Proofs.Handlers

namespace Dmos.Proofs.Contexts
open Lib Hyper SysReg SwitchCode Handlers

/-- What a guest can see of its processor: `x0..x30`, the program counter and
status it is resumed with, and the EL1 system registers. -/
structure Context where
  x : Fin 31 → Word
  elr : Word
  spsr : Word
  el1 : SysReg → Word

/-- How far the emulation moves the program counter. An HVC has moved it already. -/
def pcAdvance : Cause → Word
  | .irq _ => 0
  | .sync esr _ _ =>
    if exceptionClass esr = 0x16 then 0 else if Hsr.len.get esr = 1 then 4 else 2

/-- The register an emulated load fills: the guest read from its CPU interface,
above the last address that goes to the distributor. -/
def emulatedLoad (t : Trap) : Option (Fin 31 × Word) :=
  match t.cause with
  | .irq _ => none
  | .sync esr hpfar far =>
    let gpa := (far &&& 0xfff) ||| (hpfar <<< 8)
    if h : (Hsr.reg.get esr).toNat < 30 then
      if exceptionClass esr = 0x24 ∧ Hsr.write.get esr ≠ 1 ∧
          gicdBaseAddr + 0x10000 < gpa ∧ gpa ≤ giccBaseAddr + 0x10000 then
        some (⟨(Hsr.reg.get esr).toNat, by omega⟩, t.dev.read64 (gpa + 0x30000))
      else none
    else none

/-- What the guest should find when it runs again after a trap: what it had,
changed only by the emulation of that trap. -/
def afterTrap (t : Trap) : Context where
  x := match emulatedLoad t with
    | some (r, v) => Function.update t.guest.x r v
    | none => t.guest.x
  elr := t.guest.pc + pcAdvance t.cause
  spsr := t.guest.pstate
  el1 := t.guest.el1

/-- What `craete_vm_task` gives a guest. -/
def initialContext (entry : Word) : Context where
  x := fun i => if i = 0 then 0x70000000 else 0
  elr := entry
  spsr := spsrEl2ValueIrq
  el1 := fun r => if r = spsrEl1 then 0x30C50830 else 0

/-- The last trap that task `t` took. -/
def lastTrap (log : List (Nat × Trap)) (t : Nat) : Option Trap :=
  log.foldl (fun last e => if e.1 = t then some e.2 else last) none

/-- The context a task should be resumed with, by its own traps alone. -/
def expected (guests : List Word) (log : List (Nat × Trap)) (t : Nat) : Context :=
  match lastTrap log t with
  | some tr => afterTrap tr
  | none => initialContext (guests.getD t 0)

/-- The traps of a run, each with the task that took it. -/
def traps (l : Layout) (smp : Nat) (m : Machine) (ts : List Trap) : List (Nat × Trap) :=
  outputs (Machine.trap l smp) (fun m t => m.host.current.map (fun c => (c, t))) m ts

/-- The processor as the exception return leaves it shows this context. -/
structure Resumes (p : Pe SysReg) (c : Context) : Prop where
  x : ∀ i, p.x i = c.x i
  elr : p.sys elrEl2 = c.elr
  spsr : p.sys spsrEl2 = c.spsr
  el1 : ∀ r, guestReg r = true → p.sys r = c.el1 r

/-- A saved frame holds the general part of a context. -/
structure Agrees (f : TrapFrame) (c : Context) : Prop where
  x : ∀ i, f.r i = c.x i
  elr : f.elr = c.elr
  spsr : f.spsr = c.spsr

theorem expected_self (guests : List Word) (log : List (Nat × Trap)) (c : Nat) (t : Trap) :
    expected guests (log ++ [(c, t)]) c = afterTrap t := by
  simp [expected, lastTrap, List.foldl_append]

theorem expected_other (guests : List Word) (log : List (Nat × Trap)) {c d : Nat} (t : Trap)
    (h : d ≠ c) : expected guests (log ++ [(c, t)]) d = expected guests log d := by
  simp [expected, lastTrap, List.foldl_append, h.symm]

section Emulation

variable {f : TrapFrame} {t : Trap}

theorem update_r (f : TrapFrame) (j : Fin 34) (v : Word) (i : Fin 31) :
    TrapFrame.r (Function.update f j v) i = if i.val = j.val then v else f.r i := by
  simp only [TrapFrame.r, Function.update_apply, Fin.ext_iff]

@[simp] theorem advancePc_r (hsr : BitVec 32) (f : TrapFrame) (i : Fin 31) :
    TrapFrame.r (advancePc hsr f) i = f.r i := by
  rw [advancePc, TrapFrame.setElr, update_r, if_neg (by simp; omega)]

@[simp] theorem advancePc_elr (hsr : BitVec 32) (f : TrapFrame) :
    TrapFrame.elr (advancePc hsr f) = f.elr + if Hsr.len.get hsr = 1 then 4 else 2 := by
  simp [advancePc, TrapFrame.setElr, TrapFrame.elr]

@[simp] theorem advancePc_spsr (hsr : BitVec 32) (f : TrapFrame) :
    TrapFrame.spsr (advancePc hsr f) = f.spsr := by
  simp [advancePc, TrapFrame.setElr, TrapFrame.spsr]

theorem handleMmio_frame (hsr : BitVec 32) (gpa : Word) (f : TrapFrame) (dev : Device) :
    (handleMmio hsr gpa f dev).1 =
      if Hsr.write.get hsr ≠ 1 ∧ frameSlot hsr ≠ 30 then
        Function.update f (frameSlot hsr) (dev.read64 gpa) else f := by
  unfold handleMmio
  by_cases hw : Hsr.write.get hsr = 1
  · have hn : ¬ (Hsr.write.get hsr ≠ 1 ∧ frameSlot hsr ≠ 30) := fun h => h.1 hw
    rw [if_pos hw, if_neg hn]
    split <;> rfl
  · rw [if_neg hw]
    by_cases hr : frameSlot hsr ≠ 30
    · rw [if_pos hr, if_pos ⟨hw, hr⟩]
    · rw [if_neg hr, if_neg (fun h => hr h.2)]

/-- A data abort changes the frame only when it is a load from the CPU interface. -/
theorem dataAbort_frame (hsr : BitVec 32) (gpa : Word) (f : TrapFrame) (g : Gic) (dev : Device) :
    (dataAbortHandler hsr gpa f g dev).1 =
      if gicdBaseAddr + 0x10000 < gpa ∧ gpa ≤ giccBaseAddr + 0x10000 ∧ Hsr.write.get hsr ≠ 1 ∧
          frameSlot hsr ≠ 30 then
        Function.update f (frameSlot hsr) (dev.read64 (gpa + 0x30000)) else f := by
  have h1 : gicdBaseAddr = 0x8000000#64 := rfl
  have h2 : giccBaseAddr = 0x8010000#64 := rfl
  have h3 : gicdBaseAddr + 0x10000 = 0x8010000#64 := rfl
  unfold dataAbortHandler
  rw [h3, h2]
  by_cases hd : gicdBaseAddr ≤ gpa ∧ gpa ≤ 0x8010000#64
  · rw [if_pos hd, if_neg]
    rintro ⟨hlt, _⟩
    exact absurd hd.2 (BitVec.not_le.mpr hlt)
  rw [if_neg hd]
  by_cases hc : 0x8010000#64 ≤ gpa ∧ gpa ≤ 0x8010000#64 + 0x10000
  · have hlt : 0x8010000#64 < gpa := by
      rw [← BitVec.not_le]
      intro hle
      exact hd ⟨by rw [h1]; bv_omega, hle⟩
    rw [if_pos hc]
    simp only [handleMmio_frame, hlt, hc.2, true_and]
  · rw [if_neg hc, if_neg]
    rintro ⟨hlt, hle, _⟩
    exact hc ⟨BitVec.le_of_lt hlt, hle⟩

theorem frameSlot_lt (hsr : BitVec 32) : (frameSlot hsr).val < 32 := (Hsr.reg.get hsr).isLt

theorem update_slot_elr (f : TrapFrame) (hsr : BitVec 32) (v : Word) :
    TrapFrame.elr (Function.update f (frameSlot hsr) v) = f.elr ∧
      TrapFrame.spsr (Function.update f (frameSlot hsr) v) = f.spsr := by
  have h := frameSlot_lt hsr
  constructor
  · exact Function.update_of_ne (by rw [Ne, Fin.ext_iff]; simp; omega) _ _
  · exact Function.update_of_ne (by rw [Ne, Fin.ext_iff]; simp; omega) _ _

theorem dataAbort_elr (hsr : BitVec 32) (gpa : Word) (f : TrapFrame) (g : Gic) (dev : Device) :
    TrapFrame.elr (dataAbortHandler hsr gpa f g dev).1 = f.elr ∧
      TrapFrame.spsr (dataAbortHandler hsr gpa f g dev).1 = f.spsr := by
  rw [dataAbort_frame]
  split
  · exact update_slot_elr f hsr _
  · exact ⟨rfl, rfl⟩

/-- The registers after a data abort. Slot 31 of the frame is `usp`, from which no
register of the guest is restored. -/
theorem dataAbort_x {esr : BitVec 32} {hpfar far : Word} (hc : t.cause = .sync esr hpfar far)
    (he : exceptionClass esr = 0x24) (hx : ∀ i, f.r i = t.guest.x i) (i : Fin 31) :
    TrapFrame.r (dataAbortHandler esr ((far &&& 0xfff) ||| (hpfar <<< 8)) f t.gic t.dev).1 i =
      (afterTrap t).x i := by
  have hslot : (frameSlot esr).val = (Hsr.reg.get esr).toNat := rfl
  have hlt := frameSlot_lt esr
  rw [dataAbort_frame]
  simp only [afterTrap, emulatedLoad, hc, he, true_and]
  by_cases hr : (Hsr.reg.get esr).toNat < 30
  · have h30 : frameSlot esr ≠ 30 := fun h => by rw [h] at hslot; simp at hslot; omega
    simp only [hr, ↓reduceDIte, h30, ne_eq, not_false_eq_true, and_true]
    split
    · rename_i hcond
      rw [if_pos ⟨hcond.2.2, hcond.1, hcond.2.1⟩, update_r]
      simp only [Function.update_apply, Fin.ext_iff, hslot, hx]
    · rename_i hcond
      rw [if_neg (fun h => hcond ⟨h.2.1, h.2.2, h.1⟩)]
      exact hx i
  · simp only [hr, ↓reduceDIte]
    split
    · rename_i hcond
      have h30 : (frameSlot esr).val ≠ 30 := fun h => hcond.2.2.2 (Fin.ext h)
      rw [update_r, if_neg (by omega)]
      exact hx i
    · exact hx i

/-- The handlers' changes to the frame are those of the emulation. -/
theorem emulateFrame_agrees (hh : Handled t.cause)
    (hf : Agrees f ⟨t.guest.x, t.guest.pc, t.guest.pstate, t.guest.el1⟩) :
    Agrees (emulateFrame t.cause t.gic t.dev f) (afterTrap t) := by
  obtain ⟨hx, helr, hspsr⟩ := hf
  cases hc : t.cause with
  | irq iar =>
    exact ⟨by simpa [emulateFrame, afterTrap, emulatedLoad, hc] using hx,
      by simpa [emulateFrame, afterTrap, pcAdvance, hc] using helr, hspsr⟩
  | sync esr hpfar far =>
    rw [hc] at hh
    simp only [emulateFrame]
    rcases hh with he | he | he | he
    · simp only [he, true_or, ↓reduceIte]
      exact ⟨by simpa [afterTrap, emulatedLoad, hc, he] using hx,
        by simp [afterTrap, pcAdvance, hc, he, helr], by simpa [afterTrap] using hspsr⟩
    · simp only [he]
      exact ⟨by simpa [afterTrap, emulatedLoad, hc, he] using hx,
        by simp [afterTrap, pcAdvance, hc, he, helr], by simpa [afterTrap] using hspsr⟩
    · simp only [he, or_true, ↓reduceIte]
      exact ⟨by simpa [afterTrap, emulatedLoad, hc, he] using hx,
        by simp [afterTrap, pcAdvance, hc, he, helr], by simpa [afterTrap] using hspsr⟩
    · rw [if_neg (by rw [he]; decide), if_pos he]
      obtain ⟨h1, h2⟩ := dataAbort_elr esr ((far &&& 0xfff) ||| (hpfar <<< 8)) f t.gic t.dev
      refine ⟨fun i => ?_, ?_, ?_⟩
      · rw [advancePc_r]
        exact dataAbort_x hc he hx i
      · rw [advancePc_elr, h1]
        simp [afterTrap, pcAdvance, hc, he, helr]
      · rw [advancePc_spsr, h2]
        exact hspsr

end Emulation

end Dmos.Proofs.Contexts
