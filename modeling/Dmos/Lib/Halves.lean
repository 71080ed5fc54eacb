import Mathlib.Algebra.Group.Nat.Defs

namespace Dmos.Lib

/-- The lower half of a doubleword. -/
def lo (w : BitVec 64) : BitVec 32 := w.setWidth 32

/-- The upper half. -/
def hi (w : BitVec 64) : BitVec 32 := (w >>> 32).setWidth 32

def ofHalves (h l : BitVec 32) : BitVec 64 := h ++ l

theorem toNat_lo (w : BitVec 64) : (lo w).toNat = w.toNat % 2 ^ 32 := BitVec.toNat_setWidth 32 w

theorem toNat_hi (w : BitVec 64) : (hi w).toNat = w.toNat / 2 ^ 32 := by
  have hw := w.isLt
  rw [hi, BitVec.toNat_setWidth, BitVec.toNat_ushiftRight, Nat.shiftRight_eq_div_pow]
  exact Nat.mod_eq_of_lt (by omega)

theorem toNat_ofHalves (h l : BitVec 32) : (ofHalves h l).toNat = h.toNat * 2 ^ 32 + l.toNat := by
  rw [ofHalves, BitVec.toNat_append, ← Nat.shiftLeft_add_eq_or_of_lt l.isLt, Nat.shiftLeft_eq]

@[simp] theorem lo_ofHalves (h l : BitVec 32) : lo (ofHalves h l) = l := by
  apply BitVec.eq_of_toNat_eq
  have hl := l.isLt
  rw [toNat_lo, toNat_ofHalves]
  omega

@[simp] theorem hi_ofHalves (h l : BitVec 32) : hi (ofHalves h l) = h := by
  apply BitVec.eq_of_toNat_eq
  have hl := l.isLt
  rw [toNat_hi, toNat_ofHalves]
  omega

theorem ofHalves_hi_lo (w : BitVec 64) : ofHalves (hi w) (lo w) = w := by
  apply BitVec.eq_of_toNat_eq
  rw [toNat_ofHalves, toNat_hi, toNat_lo]
  omega

/-- A doubleword is its two halves. -/
theorem halves_ext {w u : BitVec 64} : w = u ↔ hi w = hi u ∧ lo w = lo u := by
  constructor
  · rintro rfl
    exact ⟨rfl, rfl⟩
  · rintro ⟨hhi, hlo⟩
    rw [← ofHalves_hi_lo w, hhi, hlo, ofHalves_hi_lo]

end Dmos.Lib
