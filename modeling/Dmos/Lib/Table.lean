import Mathlib.Algebra.Group.Nat.Defs
import Mathlib.Data.Set.BooleanAlgebra
import Mathlib.Data.Set.Disjoint
import Mathlib.Order.CompletePartialOrder
import Mathlib.Logic.Function.Basic

namespace Dmos.Lib

/-- Memory as 64-bit words at their byte addresses. -/
abbrev WordMemory := BitVec 64 → BitVec 64

/-- The address of element `i` of an array of 64-bit words. -/
def slot (base : BitVec 64) (i : Nat) : BitVec 64 := base + 8#64 * BitVec.ofNat 64 i

/-- The bytes of an array of `n` words. -/
def region (base : BitVec 64) (n : Nat) : Set (BitVec 64) :=
  { a | base.toNat ≤ a.toNat ∧ a.toNat < base.toNat + 8 * n }

/-- The first `n` words of the array at `base` are those of `f`. -/
def Filled (m : WordMemory) (base : BitVec 64) (n : Nat) (f : Nat → BitVec 64) : Prop :=
  ∀ i < n, m (slot base i) = f i

/-- `n` words of `f` copied to `dst`. -/
def memcpy (m : WordMemory) (dst : BitVec 64) (n : Nat) (f : Nat → BitVec 64) : WordMemory :=
  Nat.fold n (fun i _ m => Function.update m (slot dst i) (f i)) m

variable {m : WordMemory} {base : BitVec 64} {n i : Nat} {f : Nat → BitVec 64}

theorem toNat_slot (h : base.toNat + 8 * i < 2 ^ 64) : (slot base i).toNat = base.toNat + 8 * i := by
  have hi : i < 2 ^ 64 := by omega
  have h8 : 8 * i < 2 ^ 64 := by omega
  simp only [slot, BitVec.toNat_add, BitVec.toNat_mul, BitVec.toNat_ofNat]
  rw [Nat.mod_eq_of_lt hi, Nat.mod_eq_of_lt (show 8 < 2 ^ 64 by decide), Nat.mod_eq_of_lt h8,
    Nat.mod_eq_of_lt h]

@[simp] theorem slot_zero (base : BitVec 64) : slot base 0 = base := by simp [slot]

theorem slot_slot (base : BitVec 64) (i j : Nat) : slot (slot base i) j = slot base (i + j) := by
  simp only [slot, BitVec.ofNat_add, BitVec.mul_add, BitVec.add_assoc]

theorem slot_ne {b b' : BitVec 64} {i j : Nat} (hi : b.toNat + 8 * i < 2 ^ 64)
    (hj : b'.toNat + 8 * j < 2 ^ 64) (h : b.toNat + 8 * i ≠ b'.toNat + 8 * j) :
    slot b i ≠ slot b' j := by
  intro heq
  apply h
  rw [← toNat_slot hi, ← toNat_slot hj, heq]

theorem region_disjoint {b b' : BitVec 64} {k l : Nat} (h : b.toNat + 8 * k ≤ b'.toNat) :
    Disjoint (region b k) (region b' l) := by
  rw [Set.disjoint_left]
  rintro a ⟨_, hlt⟩ ⟨hle, _⟩
  omega

/-- Writing the next word of an array. -/
theorem Filled.push (h : Filled m base n f) (hb : base.toNat + 8 * n < 2 ^ 64) :
    Filled (Function.update m (slot base n) (f n)) base (n + 1) f := by
  intro i hi
  by_cases heq : i = n
  · rw [heq, Function.update_self]
  · rw [Function.update_of_ne (slot_ne (by omega) hb (by omega))]
    exact h i (by omega)

/-- A write elsewhere. -/
theorem Filled.frame (h : Filled m base n f) {a v : BitVec 64}
    (ha : ∀ i < n, slot base i ≠ a) : Filled (Function.update m a v) base n f := by
  intro i hi
  rw [Function.update_of_ne (ha i hi)]
  exact h i hi

/-- The invariant rule for a counting loop. -/
theorem fold_invariant {σ : Type} {f : Nat → σ → σ} {I : Nat → σ → Prop} (n : Nat) (s : σ)
    (h0 : I 0 s) (hstep : ∀ i < n, ∀ s, I i s → I (i + 1) (f i s)) :
    I n (Nat.fold n (fun i _ s => f i s) s) := by
  induction n with
  | zero => exact h0
  | succ n ih =>
    rw [Nat.fold_succ]
    exact hstep n (by omega) _ (ih (fun i hi => hstep i (by omega)))

theorem filled_memcpy (m : WordMemory) {dst : BitVec 64} {n : Nat} (f : Nat → BitVec 64)
    (h : dst.toNat + 8 * n ≤ 2 ^ 64) : Filled (memcpy m dst n f) dst n f :=
  fold_invariant (I := fun i t => Filled t dst i f) n m (fun i hi => absurd hi (by omega))
    (fun i hi t ht => ht.push (by omega))

theorem memcpy_frame (m : WordMemory) {dst a : BitVec 64} {n : Nat} (f : Nat → BitVec 64)
    (h : ∀ i < n, a ≠ slot dst i) : memcpy m dst n f a = m a :=
  fold_invariant (I := fun _ t => t a = m a) n m rfl
    (fun i hi t ht => by rw [Function.update_of_ne (h i hi)]; exact ht)

end Dmos.Lib
