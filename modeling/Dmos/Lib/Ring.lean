import Mathlib.Logic.Function.Basic
import Mathlib.Data.List.Basic
import Mathlib.Tactic.SplitIfs

namespace Dmos.Lib.Ring

variable {α : Type} {n r w k : Nat} {buf : Nat → α}

/-- How many of the `n` cells of a ring are in use, from the read index `r` to the
write index `w`. The ring is empty when they are equal. -/
def used (n r w : Nat) : Nat := (w + n - r) % n

/-- The cells in use, in the order in which they were written. -/
def contents (n : Nat) (buf : Nat → α) (r w : Nat) : List α :=
  (List.range (used n r w)).map fun k => buf ((r + k) % n)

/-- The index after `r`. -/
theorem succ_mod (hr : r < n) : (r + 1) % n = if r + 1 = n then 0 else r + 1 := by
  split
  · next h => rw [h, Nat.mod_self]
  · exact Nat.mod_eq_of_lt (by omega)

theorem succ_lt (hr : r < n) : (r + 1) % n < n := Nat.mod_lt _ (by omega)

theorem used_eq (hr : r < n) (hw : w < n) : used n r w = if r ≤ w then w - r else w + n - r := by
  unfold used
  split
  · next h => rw [show w + n - r = w - r + n by omega, Nat.add_mod_right, Nat.mod_eq_of_lt (by omega)]
  · exact Nat.mod_eq_of_lt (by omega)

theorem add_mod_eq (hr : r < n) (hk : k < n) :
    (r + k) % n = if r + k < n then r + k else r + k - n := by
  split
  · next h => exact Nat.mod_eq_of_lt h
  · next h => rw [Nat.mod_eq_sub_mod (by omega), Nat.mod_eq_of_lt (by omega)]

theorem used_lt (hr : r < n) : used n r w < n := Nat.mod_lt _ (by omega)

@[simp] theorem length_contents : (contents n buf r w).length = used n r w := by
  simp [contents]

theorem used_eq_zero_iff (hr : r < n) (hw : w < n) : used n r w = 0 ↔ r = w := by
  rw [used_eq hr hw]
  split <;> omega

theorem contents_eq_nil_iff (hr : r < n) (hw : w < n) : contents n buf r w = [] ↔ r = w := by
  rw [← List.length_eq_zero_iff, length_contents, used_eq_zero_iff hr hw]

/-- One cell stays free: the ring is full when the write index is about to reach the
read index. -/
theorem full_iff (hr : r < n) (hw : w < n) : (w + 1) % n = r ↔ used n r w = n - 1 := by
  rw [succ_mod hw, used_eq hr hw]
  split <;> split <;> omega

/-- The cell at the write index is not in use. -/
theorem contents_update (hr : r < n) (hw : w < n) (a : α) :
    contents n (Function.update buf w a) r w = contents n buf r w := by
  apply List.map_congr_left
  intro k hk
  rw [List.mem_range] at hk
  have hkn := Nat.lt_trans hk (used_lt hr)
  have hne : (r + k) % n ≠ w := by
    rw [used_eq hr hw] at hk
    rw [add_mod_eq hr hkn]
    split at hk <;> split <;> omega
  exact Function.update_of_ne hne _ _

theorem contents_push (hr : r < n) (hw : w < n) (hfull : (w + 1) % n ≠ r) :
    contents n buf r ((w + 1) % n) = contents n buf r w ++ [buf w] := by
  have hu : used n r ((w + 1) % n) = used n r w + 1 := by
    rw [used_eq hr (succ_lt hw), used_eq hr hw]
    rw [succ_mod hw] at hfull ⊢
    split_ifs at hfull ⊢ <;> omega
  have hlast : (r + used n r w) % n = w := by
    rw [add_mod_eq hr (used_lt hr), used_eq hr hw]
    split <;> split <;> omega
  rw [contents, hu, List.range_succ, List.map_append, contents, List.map_singleton, hlast]

theorem contents_pop (hr : r < n) (hw : w < n) (hne : r ≠ w) :
    contents n buf r w = buf r :: contents n buf ((r + 1) % n) w := by
  have hu : used n r w = used n ((r + 1) % n) w + 1 := by
    rw [used_eq (succ_lt hr) hw, used_eq hr hw, succ_mod hr]
    split_ifs <;> omega
  rw [contents, hu, List.range_succ_eq_map, List.map_cons, Nat.add_zero, Nat.mod_eq_of_lt hr, contents,
    List.map_map]
  congr 1
  apply List.map_congr_left
  intro k _
  simp only [Function.comp_apply, Nat.succ_eq_add_one]
  rw [Nat.mod_add_mod, Nat.add_right_comm, Nat.add_assoc]

end Dmos.Lib.Ring
