import Dmos.Mmio
import Dmos.Proofs.EnableState

namespace Dmos.Proofs.GuestEnable

open Dmos.Lib Gic EnableState

variable {hsr : BitVec 32} {ctx : TrapFrame}

/-- The loop of the macro counts the halvings down to one. -/
theorem highestBitLoop_eq (fuel : Nat) (val : Word) (i : Nat) (h : val.toNat < 2 ^ (fuel + 1)) :
    highestBitLoop fuel val i = i + val.toNat.log2 := by
  induction fuel generalizing val i with
  | zero =>
    rw [highestBitLoop, Nat.log2_def, if_neg (by omega), Nat.add_zero]
  | succ fuel ih =>
    have hhalf : (val >>> 1).toNat = val.toNat / 2 := by
      rw [BitVec.toNat_ushiftRight, Nat.shiftRight_eq_div_pow]
    rw [highestBitLoop, Nat.log2_def]
    by_cases h0 : val >>> 1 = 0
    · have hzero : val.toNat / 2 = 0 := by
        rw [← hhalf, h0]
        rfl
      rw [if_pos h0, if_neg (by omega), Nat.add_zero]
    · have hpos : val.toNat / 2 ≠ 0 := by
        rw [← hhalf]
        exact fun h => h0 (BitVec.eq_of_toNat_eq h)
      have hlt : (val >>> 1).toNat < 2 ^ (fuel + 1) := by
        rw [hhalf]
        omega
      rw [if_neg h0, if_pos (by omega), ih _ _ hlt, hhalf]
      omega

theorem highestBitPosition_eq (x : Word) : highestBitPosition x = x.toNat.log2 := by
  have h := highestBitLoop_eq 64 x 0 (by omega)
  rw [Nat.zero_add] at h
  exact h

/-- `intc_handler` changes the distributor by those calls and in no other way. -/
theorem intcHandler_eq (hsr : BitVec 32) (gpa : Word) (ctx : TrapFrame) (g : Gic) :
    intcHandler hsr gpa ctx g = (intcEnables hsr gpa ctx).foldl (fun g v => g.gicEnableInt v 0) g := by
  unfold intcHandler intcEnables
  split
  · dsimp only
    split
    · rw [List.foldl_cons, List.foldl_nil]
    · split
      · rw [List.foldl_cons, List.foldl_nil]
      · rw [List.foldl_nil]
  · rw [List.foldl_nil]

/-- Every set-enable register is in one of the two branches. -/
theorem intcEnables_isenabler (hw : Hsr.write.get hsr = 1) (n : Fin 32) :
    intcEnables hsr (gicdIsenabler (BitVec.ofNat 64 n)) ctx =
      [(((ctx (frameSlot hsr)).setWidth 32).signExtend 64).toNat.log2 + 32 * n] := by
  have hn : n.val < 32 := n.isLt
  have haddr : (gicdIsenabler (BitVec.ofNat 64 n)).toNat = 0x8000100 + 4 * n := by
    simp only [gicdIsenabler, gicdBaseAddr, BitVec.ofNat_eq_ofNat, BitVec.toNat_add,
      BitVec.toNat_mul, BitVec.toNat_ofNat]
    omega
  rw [intcEnables, if_pos hw]
  dsimp only
  rw [highestBitPosition_eq]
  by_cases h0 : n.val = 0
  · have hgpa : gicdIsenabler (BitVec.ofNat 64 n) = gicdIsenabler 0 := by rw [h0]; rfl
    rw [if_pos hgpa, h0, Nat.mul_zero, Nat.add_zero]
  · have hgpa : gicdIsenabler (BitVec.ofNat 64 n) ≠ gicdIsenabler 0 := by
      intro h
      have hnat := congrArg BitVec.toNat h
      rw [haddr] at hnat
      have hbase : (gicdIsenabler 0).toNat = 0x8000100 := by decide
      omega
    have hrange : gicdIsenabler 1 ≤ gicdIsenabler (BitVec.ofNat 64 n) ∧
        gicdIsenabler (BitVec.ofNat 64 n) < gicdIcenabler 0 := by
      rw [BitVec.le_def, BitVec.lt_def, haddr, show (gicdIsenabler 1).toNat = 0x8000104 by decide,
        show (gicdIcenabler 0).toNat = 0x8000180 by decide]
      omega
    rw [if_neg hgpa, if_pos hrange, haddr, show (gicdIsenabler 0).toNat = 0x8000100 by decide]
    congr 2
    omega

/-- The interrupts that a write of `x` to `GICD_ISENABLER(n)` asks for. -/
def Requested (x : BitVec 32) (n : Nat) (v : Nat) : Prop := ∃ b < 32, x.getLsbD b = true ∧ v = 32 * n + b

/-- The write enables what it asks for and nothing else. -/
structure Enables (hsr : BitVec 32) (n : Fin 32) (ctx : TrapFrame) (g : Gic) : Prop where
  calls : ∀ v, v ∈ intcEnables hsr (gicdIsenabler (BitVec.ofNat 64 n)) ctx ↔
    Requested ((trappedReg hsr ctx).setWidth 32) n v
  state : ∀ v,
    (intcHandler hsr (gicdIsenabler (BitVec.ofNat 64 n)) ctx g).enabled v = true ↔
      g.enabled v = true ∨ Requested ((trappedReg hsr ctx).setWidth 32) n v

/-- A value below the sign bit passes through the `int` unchanged, another one sets
the bits above it. -/
theorem signExtend_toNat (x : BitVec 32) : (x.signExtend 64).toNat =
    if x.toNat < 2 ^ 31 then x.toNat else x.toNat + (2 ^ 64 - 2 ^ 32) := by
  rw [BitVec.toNat_signExtend, BitVec.toNat_setWidth, BitVec.msb_eq_decide]
  have hx := x.isLt
  by_cases h : x.toNat < 2 ^ 31
  · have hle : ¬ 2 ^ (32 - 1) ≤ x.toNat := by omega
    simp only [h, hle, decide_false, Bool.false_eq_true, ↓reduceIte]
    omega
  · have hle : 2 ^ (32 - 1) ≤ x.toNat := by omega
    simp only [h, hle, decide_true, ↓reduceIte]
    omega

theorem requested_twoPow {b : Nat} (hb : b < 32) (n v : Nat) :
    Requested (BitVec.twoPow 32 b) n v ↔ v = 32 * n + b := by
  constructor
  · rintro ⟨c, -, hbit, rfl⟩
    rw [BitVec.getLsbD_twoPow] at hbit
    simp only [hb, decide_true, Bool.true_and, decide_eq_true_eq] at hbit
    rw [hbit]
  · rintro rfl
    exact ⟨b, hb, by simp [hb], rfl⟩

/-- A value with one request has the one bit. -/
theorem eq_twoPow {x : BitVec 32} {n l : Nat} (h : ∀ v, v = l + 32 * n ↔ Requested x n v) :
    l < 32 ∧ x = BitVec.twoPow 32 l := by
  obtain ⟨b, hb, hbit, heq⟩ := (h _).mp rfl
  obtain rfl : b = l := by omega
  refine ⟨hb, BitVec.eq_of_getLsbD_eq (fun c hc => ?_)⟩
  rw [BitVec.getLsbD_twoPow]
  by_cases hcb : b = c
  · subst hcb
    simp [hb, hbit]
  · have hclear : x.getLsbD c = false := by
      by_contra hset
      have hv := (h (32 * n + c)).mpr ⟨c, hc, by simpa using hset, rfl⟩
      omega
    simp [hcb, hclear]

/-- The zero register requests nothing, so a value with a bit comes from the frame. -/
theorem trappedReg_of_ne (h : (trappedReg hsr ctx).setWidth 32 ≠ 0) :
    trappedReg hsr ctx = ctx (frameSlot hsr) := by
  unfold trappedReg at h ⊢
  split
  · rename_i h31
    rw [if_pos h31] at h
    exact absurd rfl h
  · rfl

/-- A guest's write to a set-enable register enables the interrupts that it asks for
exactly when it asks for one, and not by bit 31. -/
theorem guest_enable_iff (hw : Hsr.write.get hsr = 1) (n : Fin 32) (ctx : TrapFrame) (g : Gic) :
    Enables hsr n ctx g ↔ ∃ b < 31, (trappedReg hsr ctx).setWidth 32 = BitVec.twoPow 32 b := by
  constructor
  · intro h
    have hcalls := h.calls
    simp only [intcEnables_isenabler hw, List.mem_singleton] at hcalls
    obtain ⟨hlt, heq⟩ := eq_twoPow hcalls
    have hreg := trappedReg_of_ne (heq ▸ twoPow_ne_zero hlt)
    rw [hreg] at heq
    refine ⟨(((ctx (frameSlot hsr)).setWidth 32).signExtend 64).toNat.log2, ?_, by rw [hreg, ← heq]⟩
    -- bit 31 is the sign of the `int`, which the conversion to 64 bits spreads to bit 63
    by_contra hge
    have htop : (((ctx (frameSlot hsr)).setWidth 32).signExtend 64).toNat.log2 = 31 := by omega
    have hx : ((ctx (frameSlot hsr)).setWidth 32).toNat = 2 ^ 31 := by
      rw [heq, htop]
      rfl
    rw [signExtend_toNat, hx] at htop
    exact absurd htop (by decide)
  · rintro ⟨b, hb, heq⟩
    have hreg := trappedReg_of_ne (heq ▸ twoPow_ne_zero (by omega))
    have hx : ((ctx (frameSlot hsr)).setWidth 32).toNat = 2 ^ b := by
      rw [← hreg, heq, BitVec.toNat_twoPow_of_lt (by omega)]
    have hpow : 2 ^ b < 2 ^ 31 := Nat.pow_lt_pow_right (by decide) hb
    have hlist : intcEnables hsr (gicdIsenabler (BitVec.ofNat 64 n)) ctx = [32 * n + b] := by
      rw [intcEnables_isenabler hw, signExtend_toNat, hx, if_pos hpow, Nat.log2_two_pow, Nat.add_comm]
    constructor
    · intro v
      rw [hlist, heq, requested_twoPow (by omega), List.mem_singleton]
    · intro v
      rw [intcHandler_eq, hlist, heq, requested_twoPow (by omega), List.foldl_cons, List.foldl_nil,
        enabled_enableInt (by omega), Bool.or_eq_true, decide_eq_true_eq, eq_comm (a := v)]

/-- `str w1, [GICD_ISENABLER(0)]` with the bit of the virtual timer. -/
theorem guest_enable_iff_timer :
    Hsr.write.get (0x93810047 : BitVec 32) = 1 ∧
      Enables 0x93810047 0 (fun _ => 0x08000000) ⟨fun _ => 0, fun _ => 0, fun _ => 0⟩ :=
  ⟨by decide, (guest_enable_iff (by decide) 0 _ _).mpr ⟨27, by decide, by decide⟩⟩

/-- All bits of the first word at once enable interrupt 63 and none of the word. -/
theorem all_bits_enable_one :
    ¬ Enables 0x93810047 0 (fun _ => 0xffffffff) ⟨fun _ => 0, fun _ => 0, fun _ => 0⟩ := by
  intro h
  have hzero := (h.state 0).mpr (.inr ⟨0, by decide, by decide, rfl⟩)
  exact absurd hzero (by decide)

end Dmos.Proofs.GuestEnable
