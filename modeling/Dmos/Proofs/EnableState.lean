import Mathlib.Data.Fin.Basic
import Dmos.Gic
import Dmos.Lib.BitField
import Dmos.Lib.Cells

namespace Dmos.Proofs.EnableState

open Dmos.Lib Gic

variable {g : Gic} {v : Nat}

/-- The calls that change the enable state. -/
inductive Op where
  | enableInt (v : Fin 1020) (pri : BitVec 32)
  | disableInt (v : Fin 1020)
  | setIsenabler (n : Fin 32) (value : BitVec 32)
  | setIcenabler (n : Fin 32) (value : BitVec 32)
  deriving DecidableEq, Repr

namespace Op

def exec (g : Gic) : Op → Gic
  | .enableInt v pri => g.gicEnableInt v pri
  | .disableInt v => g.gicDisableInt v
  | .setIsenabler n value => g.gicSetIsenabler n value
  | .setIcenabler n value => g.gicSetIcenabler n value

/-- What a call does to bit `v % 32` of word `v / 32`: sets it, clears it, or does
not touch it. -/
def touch (v : Nat) : Op → Option Bool
  | .enableInt u _ => if u = v then some true else none
  | .disableInt u => if u = v then some false else none
  | .setIsenabler n value => if n = v / 32 ∧ value.getLsbD (v % 32) = true then some true else none
  | .setIcenabler n value => if n = v / 32 ∧ value.getLsbD (v % 32) = true then some false else none

end Op

/-- The last call that touched the bit of interrupt `v` was a set. -/
def Enabled (g₀ : Gic) (ops : List Op) (v : Nat) : Prop :=
  lastWrite (Op.touch v) (g₀.enabled v) ops = true

instance (g₀ : Gic) (ops : List Op) (v : Nat) : Decidable (Enabled g₀ ops v) :=
  inferInstanceAs (Decidable (_ = _))

theorem enabled_write {reg : Nat} (hr : reg < 32) (mask : BitVec 32) :
    (g.writeIsenabler reg mask).enabled v =
      (g.enabled v || decide (reg = v / 32) && mask.getLsbD (v % 32)) := by
  rw [enabled, enabled, writeIsenabler, if_pos hr]
  by_cases h : reg = v / 32
  · subst h
    simp
  · simp [Function.update_of_ne (Ne.symm h), h]

theorem enabled_clear {reg : Nat} (hr : reg < 32) (mask : BitVec 32) :
    (g.writeIcenabler reg mask).enabled v =
      (g.enabled v && !(decide (reg = v / 32) && mask.getLsbD (v % 32))) := by
  have hb : v % 32 < 32 := Nat.mod_lt _ (by decide)
  rw [enabled, enabled, writeIcenabler, if_pos hr]
  by_cases h : reg = v / 32
  · subst h
    simp [hb]
  · simp [Function.update_of_ne (Ne.symm h), h]

/-- The mask of interrupt `u` in its word is the bit of `u` alone. -/
theorem mask_bit (u v : Nat) :
    (decide (u >>> 5 = v / 32) && (1#32 <<< (u % 32)).getLsbD (v % 32)) = decide (u = v) := by
  have hu : u % 32 < 32 := Nat.mod_lt _ (by decide)
  have hv : v % 32 < 32 := Nat.mod_lt _ (by decide)
  rw [Nat.shiftRight_eq_div_pow, ← BitVec.twoPow_eq, BitVec.getLsbD_twoPow]
  simp only [hu, decide_true, Bool.true_and, ← Bool.decide_and, decide_eq_decide]
  omega

@[simp] theorem enabled_writeIpriority (u : Nat) (value : BitVec 8) :
    (g.writeIpriority u value).enabled v = g.enabled v := by
  unfold writeIpriority
  split <;> rfl

/-- `gic_enable_int` sets the bit of its interrupt and no other. -/
theorem enabled_enableInt {u : Nat} (hu : u < 1024) (pri : BitVec 32) :
    (g.gicEnableInt u pri).enabled v = (g.enabled v || decide (u = v)) := by
  have hr : u >>> 5 < 32 := by
    rw [Nat.shiftRight_eq_div_pow]
    omega
  rw [gicEnableInt, enabled_writeIpriority, enabled_write hr, mask_bit]

theorem enabled_disableInt {u : Nat} (hu : u < 1024) :
    (g.gicDisableInt u).enabled v = (g.enabled v && !decide (u = v)) := by
  have hr : u >>> 5 < 32 := by
    rw [Nat.shiftRight_eq_div_pow]
    omega
  rw [gicDisableInt, enabled_clear hr, mask_bit]

/-- A call does to a bit what `touch` says. -/
theorem exec_enabled (v : Nat) (g : Gic) (op : Op) :
    (op.exec g).enabled v = (op.touch v).getD (g.enabled v) := by
  cases op with
  | enableInt u pri =>
    rw [Op.exec, enabled_enableInt (by omega), Op.touch]
    by_cases h : u.val = v
    · simp [h]
    · simp [h]
  | disableInt u =>
    rw [Op.exec, enabled_disableInt (by omega), Op.touch]
    by_cases h : u.val = v
    · simp [h]
    · simp [h]
  | setIsenabler n value =>
    rw [Op.exec, gicSetIsenabler, enabled_write n.isLt, Op.touch]
    by_cases h : n.val = v / 32
    · cases hb : value.getLsbD (v % 32) <;> simp [h]
    · simp [h]
  | setIcenabler n value =>
    rw [Op.exec, gicSetIcenabler, enabled_clear n.isLt, Op.touch]
    by_cases h : n.val = v / 32
    · cases hb : value.getLsbD (v % 32) <;> simp [h]
    · simp [h]

theorem run_enabled (g₀ : Gic) (ops : List Op) (v : Nat) :
    (ops.foldl Op.exec g₀).enabled v = true ↔ Enabled g₀ ops v := by
  have h := foldl_lastWrite (fun g => g.enabled v) (exec_enabled v) ops g₀
  rw [h, Enabled]

/-- `gic_get_enable` looks at bit 0 of the word, whatever the interrupt. -/
theorem getEnable_ne_zero (g : Gic) (v : Nat) :
    g.gicGetEnable v ≠ 0 ↔ g.enabled (v / 32 * 32) = true := by
  have hm : (1#32 <<< (v % 32) : BitVec 32) ≠ 0 := by
    rw [← BitVec.twoPow_eq]
    exact twoPow_ne_zero (Nat.mod_lt _ (by decide))
  have hword : v >>> 5 = v / 32 := Nat.shiftRight_eq_div_pow v 5
  rw [gicGetEnable, if_pos hm, enabled, Nat.mul_div_cancel _ (by decide), Nat.mul_mod_left, hword]
  rw [show (1 : BitVec 32) = BitVec.twoPow 32 0 by decide]
  exact and_twoPow_ne_zero _ (by decide)

/-- The query answers for an interrupt exactly when that interrupt and the first one
of its word are both enabled or both disabled. -/
theorem get_enable_iff (g₀ : Gic) (ops : List Op) (v : Fin 1020) :
    ((ops.foldl Op.exec g₀).gicGetEnable v ≠ 0 ↔ Enabled g₀ ops v) ↔
      (Enabled g₀ ops (v / 32 * 32) ↔ Enabled g₀ ops v) := by
  rw [getEnable_ne_zero, run_enabled]

/-- The timer interrupt is enabled, with nothing else in its word. -/
theorem timer_reported_disabled :
    ¬ (([Op.enableInt 30 0].foldl Op.exec ⟨fun _ => 0, fun _ => 0, fun _ => 0⟩).gicGetEnable 30 ≠ 0 ↔
      Enabled ⟨fun _ => 0, fun _ => 0, fun _ => 0⟩ [.enableInt 30 0] 30) := by
  decide

end Dmos.Proofs.EnableState
