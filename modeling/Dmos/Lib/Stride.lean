import Mathlib.Algebra.Order.Group.Nat
import Mathlib.Algebra.Order.Ring.Nat
import Mathlib.Tactic.Linarith

namespace Dmos.Lib.Stride

variable {L s o n k i : Nat}

/-- The points `0, s, 2 s, …` below `n` meet every block of `L` cells that the
cells below `n` meet. Cell `0` lies at offset `o` of its block. -/
def Covers (L s o n : Nat) : Prop := ∀ d < n, ∃ k, k * s < n ∧ (o + k * s) / L = (o + d) / L

/-- The last point below `n`. -/
def last (s n : Nat) : Nat := (n - 1) / s

theorem mul_lt_iff (hs : 0 < s) (hn : 0 < n) : k * s < n ↔ k ≤ last s n := by
  rw [last, Nat.le_div_iff_mul_le hs]
  omega

theorem last_mul_lt (hs : 0 < s) (hn : 0 < n) : last s n * s < n :=
  (mul_lt_iff hs hn).mpr (Nat.le_refl _)

/-- Points further apart than a block's length are in different blocks. -/
theorem block_lt_succ (hs : L < s) (hL : 0 < L) : (o + k * s) / L < (o + (k + 1) * s) / L := by
  have hstep : o + k * s + L ≤ o + (k + 1) * s := by rw [Nat.succ_mul]; omega
  calc (o + k * s) / L < (o + k * s) / L + 1 := Nat.lt_succ_self _
    _ = (o + k * s + L) / L := (Nat.add_div_right _ hL).symm
    _ ≤ (o + (k + 1) * s) / L := Nat.div_le_div_right hstep

theorem le_block (hs : L < s) (hL : 0 < L) (k : Nat) : k ≤ (o + k * s) / L := by
  induction k with
  | zero => exact Nat.zero_le _
  | succ k ih => exact Nat.succ_le_of_lt (Nat.lt_of_le_of_lt ih (block_lt_succ hs hL))

/-- A larger block needs a later point. -/
theorem lt_of_block_lt {j : Nat} (h : (o + k * s) / L < (o + j * s) / L) : k < j := by
  by_contra hjk
  have hle : o + j * s ≤ o + k * s := Nat.add_le_add_left (Nat.mul_le_mul_right s (by omega)) o
  exact absurd h (Nat.not_lt.mpr (Nat.div_le_div_right hle))

/-- Every block up to the last holds a cell below `n`. -/
theorem exists_cell (ho : o < L) (hi : i ≤ (o + n - 1) / L) (hn : 0 < n) :
    ∃ d < n, (o + d) / L = i := by
  have hL : 0 < L := by omega
  have hmul : i * L ≤ o + n - 1 := (Nat.le_div_iff_mul_le hL).mp hi
  rcases Nat.eq_zero_or_pos i with rfl | hpos
  · exact ⟨0, hn, Nat.div_eq_of_lt ho⟩
  · have hle : L ≤ i * L := Nat.le_mul_of_pos_left L hpos
    refine ⟨i * L - o, by omega, ?_⟩
    rw [show o + (i * L - o) = i * L by omega]
    exact Nat.mul_div_cancel i hL

/-- With a stride above the block length the `i`-th block can only be met by the
`i`-th point. -/
theorem Covers.block_eq (h : Covers L s o n) (ho : o < L) (hs : L < s) (hn : 0 < n) :
    ∀ i ≤ (o + n - 1) / L, (o + i * s) / L = i := by
  have hL : 0 < L := by omega
  have hpoint : ∀ i ≤ (o + n - 1) / L, ∃ k, (o + k * s) / L = i ∧ i ≤ k := by
    intro i
    induction i with
    | zero => exact fun _ => ⟨0, by simpa using Nat.div_eq_of_lt ho, Nat.le_refl 0⟩
    | succ i ih =>
      intro hi
      obtain ⟨k, hk, hik⟩ := ih (by omega)
      obtain ⟨d, hd, hdi⟩ := exists_cell ho hi hn
      obtain ⟨j, _, hj⟩ := h d hd
      have hkj : k < j := lt_of_block_lt (by rw [hk, hj, hdi]; exact Nat.lt_succ_self i)
      exact ⟨j, hj.trans hdi, by omega⟩
  intro i hi
  obtain ⟨k, hk, hik⟩ := hpoint i hi
  have hki : k ≤ i := hk ▸ le_block hs hL k
  have hki' : k = i := by omega
  rw [← hki', hk, hki']

theorem block_last_le (hs : 0 < s) (hn : 0 < n) : (o + last s n * s) / L ≤ (o + n - 1) / L := by
  have hlt := last_mul_lt hs hn
  exact Nat.div_le_div_right (by omega)

/-- The `i`-th point is still in the `i`-th block when its drift is below a block. -/
theorem block_of_drift (hs : L < s) (hd : o + i * (s - L) < L) : (o + i * s) / L = i := by
  have hsplit : o + i * s = o + i * (s - L) + i * L := by
    rw [Nat.add_assoc, ← Nat.mul_add, Nat.sub_add_cancel (Nat.le_of_lt hs)]
  rw [hsplit, Nat.add_mul_div_right _ _ (by omega), Nat.div_eq_of_lt hd, Nat.zero_add]

/-- With a stride up to the block length no block before the last is stepped over. -/
theorem exists_point (ho : o < L) (hs : 0 < s) (hsL : s ≤ L) (hi : (i + 1) * L ≤ o + n - 1) :
    ∃ k, k * s < n ∧ (o + k * s) / L = i := by
  have hmul : (i + 1) * L = i * L + L := Nat.succ_mul i L
  let r := i * L + (L - 1) - o
  have hlow : r / s * s ≤ r := Nat.div_mul_le_self r s
  have hhigh : r < r / s * s + s := Nat.lt_div_mul_add hs
  refine ⟨r / s, by omega, ?_⟩
  apply Nat.div_eq_of_lt_le
  · omega
  · omega

/-- When a stride covers a range: its last point is in the block of the last cell,
and either it is no longer than a block, or its drift over the whole range is below
one. -/
theorem covers_iff (ho : o < L) (hs : 0 < s) (hn : 0 < n) :
    Covers L s o n ↔ (o + last s n * s) / L = (o + n - 1) / L ∧
      (s ≤ L ∨ o + (o + n - 1) / L * (s - L) < L) := by
  have hL : 0 < L := by omega
  constructor
  · intro h
    constructor
    · obtain ⟨k, hk, hkb⟩ := h (n - 1) (by omega)
      rw [show o + (n - 1) = o + n - 1 by omega] at hkb
      apply Nat.le_antisymm (block_last_le hs hn)
      rw [← hkb]
      have hle : k * s ≤ last s n * s := Nat.mul_le_mul_right s ((mul_lt_iff hs hn).mp hk)
      exact Nat.div_le_div_right (Nat.add_le_add_left hle o)
    · rcases Nat.lt_or_ge L s with hlt | hle
      · right
        let m := (o + n - 1) / L
        have hblock : (o + m * s) / L = m := h.block_eq ho hlt hn m (Nat.le_refl m)
        have hup : o + m * s < m * L + L := by
          rw [← Nat.succ_mul]
          exact (Nat.div_lt_iff_lt_mul hL).mp (by omega)
        have hsplit : m * (s - L) = m * s - m * L := Nat.mul_sub m s L
        have hmle : m * L ≤ m * s := Nat.mul_le_mul_left m (Nat.le_of_lt hlt)
        show o + m * (s - L) < L
        omega
      · exact .inl hle
  · rintro ⟨hlast, hstep⟩ d hd
    have hdm : (o + d) / L ≤ (o + n - 1) / L := Nat.div_le_div_right (by omega)
    rcases Nat.eq_or_lt_of_le hdm with heq | hlt
    · exact ⟨last s n, last_mul_lt hs hn, hlast.trans heq.symm⟩
    · have hmul : ((o + d) / L + 1) * L ≤ o + n - 1 := (Nat.le_div_iff_mul_le hL).mp hlt
      rcases Nat.lt_or_ge L s with hs' | hle
      · have hdrift : o + (o + n - 1) / L * (s - L) < L := hstep.resolve_left (by omega)
        have hblock : ∀ i ≤ (o + n - 1) / L, (o + i * s) / L = i := fun i hi =>
          block_of_drift hs' (by have := Nat.mul_le_mul_right (s - L) hi; omega)
        have hle : (o + n - 1) / L ≤ last s n := by
          rw [← hlast]
          by_contra hgt
          have hlt' : last s n < (o + n - 1) / L := hlast ▸ Nat.lt_of_not_le hgt
          exact absurd (hblock _ (Nat.le_of_lt hlt')) (by omega)
        exact ⟨(o + d) / L, (mul_lt_iff hs hn).mpr (by omega), hblock _ hdm⟩
      · exact exists_point ho hs hle hmul

end Dmos.Lib.Stride
