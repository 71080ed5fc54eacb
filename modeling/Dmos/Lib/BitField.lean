import Mathlib.Algebra.Group.Nat.Defs
import Mathlib.Logic.Basic

namespace Dmos.Lib

/-- A bit field of a machine word: its lowest bit and its width. -/
structure Field where
  lo : Nat
  len : Nat

namespace Field

variable {n : Nat}

def get (f : Field) (w : BitVec n) : BitVec f.len := w.extractLsb' f.lo f.len

def mask (n : Nat) (f : Field) : BitVec n := (BitVec.allOnes f.len).setWidth n <<< f.lo

/-- The word with the field replaced and every other bit kept. -/
def set (f : Field) (w : BitVec n) (v : BitVec f.len) : BitVec n :=
  (w &&& ~~~ f.mask n) ||| v.setWidth n <<< f.lo

@[simp] theorem getLsbD_get (f : Field) (w : BitVec n) (i : Nat) :
    (f.get w).getLsbD i = (decide (i < f.len) && w.getLsbD (f.lo + i)) := by
  simp [get]

theorem getLsbD_mask (f : Field) {i : Nat} (hi : i < n) :
    (f.mask n).getLsbD i = decide (f.lo ≤ i ∧ i < f.lo + f.len) := by
  by_cases hlo : i < f.lo
  · have hle : ¬ f.lo ≤ i := by omega
    simp [mask, hlo, hle]
  · simp only [mask, BitVec.getLsbD_shiftLeft, BitVec.getLsbD_setWidth, BitVec.getLsbD_allOnes]
    simp only [hi, hlo, Bool.true_and, decide_true, decide_false, Bool.not_false]
    rw [← Bool.decide_and, decide_eq_decide]
    omega

/-- A cleared field reads back as zero. -/
theorem get_set_zero (f : Field) (w : BitVec n) (h : f.lo + f.len ≤ n) : f.get (f.set w 0) = 0 := by
  apply BitVec.eq_of_getLsbD_eq
  intro i hi
  have hm := f.getLsbD_mask (n := n) (i := f.lo + i) (by omega)
  rw [getLsbD_get]
  simp [set, hm, hi]

/-- It stays zero when another field is cleared. -/
theorem get_set_zero_of_zero (f f' : Field) (w : BitVec n) (h : f.get w = 0) :
    f.get (f'.set w 0) = 0 := by
  apply BitVec.eq_of_getLsbD_eq
  intro i hi
  have hbit := congrArg (fun v => v.getLsbD i) h
  simp only [getLsbD_get, hi, decide_true, Bool.true_and] at hbit
  rw [getLsbD_get]
  simp_all [set]

theorem get_or (f : Field) (w u : BitVec n) : f.get (w ||| u) = f.get w ||| f.get u := by
  apply BitVec.eq_of_getLsbD_eq
  intro i hi
  simp [Bool.and_or_distrib_left]

/-- An aligned word has nothing in the fields below its alignment. -/
theorem get_eq_zero_of_dvd (f : Field) {k : Nat} (w : BitVec n) (hw : 2 ^ k ∣ w.toNat)
    (hf : f.lo + f.len ≤ k) : f.get w = 0 := by
  apply BitVec.eq_of_getLsbD_eq
  intro i hi
  obtain ⟨m, hm⟩ := hw
  have hlt : f.lo + i < k := by omega
  rw [getLsbD_get, BitVec.getLsbD, hm, Nat.testBit_two_pow_mul]
  simp [Nat.not_le.mpr hlt]

theorem get_eq_zero_of_lt (f : Field) {k : Nat} (w : BitVec n) (hw : w.toNat < 2 ^ k)
    (hf : k ≤ f.lo) : f.get w = 0 := by
  apply BitVec.eq_of_getLsbD_eq
  intro i hi
  have hlt : w.toNat < 2 ^ (f.lo + i) :=
    Nat.lt_of_lt_of_le hw (Nat.pow_le_pow_right (by omega) (by omega))
  rw [getLsbD_get, BitVec.getLsbD, Nat.testBit_lt_two_pow hlt]
  simp

theorem toNat_get (f : Field) (w : BitVec n) :
    (f.get w).toNat = w.toNat / 2 ^ f.lo % 2 ^ f.len := by
  simp [get, Nat.shiftRight_eq_div_pow]

end Field

section Bit

variable {w b : Nat}

theorem twoPow_ne_zero (hb : b < w) : BitVec.twoPow w b ≠ 0#w := by
  intro h
  have hnat := congrArg BitVec.toNat h
  rw [BitVec.toNat_twoPow_of_lt hb] at hnat
  exact absurd hnat (Nat.ne_of_gt (Nat.two_pow_pos _))

/-- The test of one bit. -/
theorem and_twoPow_ne_zero (x : BitVec w) (hb : b < w) :
    x &&& BitVec.twoPow w b ≠ 0#w ↔ x.getLsbD b = true := by
  rw [BitVec.and_twoPow]
  cases x.getLsbD b with
  | false => simp
  | true => simpa using twoPow_ne_zero hb

end Bit

/-- A counter below a bound does not wrap. -/
theorem toNat_succ_of_lt {w : Nat} {i n : BitVec w} (h : i < n) : (i + 1).toNat = i.toNat + 1 := by
  have hi : i.toNat < n.toNat := h
  have hn := n.isLt
  have hw : 1 < 2 ^ w := by omega
  rw [BitVec.toNat_add, BitVec.ofNat_eq_ofNat, BitVec.toNat_ofNat, Nat.mod_eq_of_lt hw]
  exact Nat.mod_eq_of_lt (by omega)

end Dmos.Lib
