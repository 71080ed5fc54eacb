import Mathlib.Algebra.Group.Nat.Defs
import Mathlib.Data.Nat.Log
import Dmos.Lib.ColorTree

namespace Dmos.Lib

variable {I K V : Type}

namespace Tree

variable {t : Tree I K V} {n : Nat}

def height : Tree I K V → Nat
  | nil => 0
  | node _ _ l _ _ r => max l.height r.height + 1

/-- At most every other node of a way down is red. -/
theorem Balanced.height_le (h : t.Balanced n) :
    t.height ≤ 2 * n + 1 ∧ (t.color = .black → t.height ≤ 2 * n) := by
  induction h with
  | nil => exact ⟨Nat.zero_le _, fun _ => Nat.zero_le _⟩
  | red _ _ hlc hrc ihl ihr =>
    have hl := ihl.2 hlc
    have hr := ihr.2 hrc
    refine ⟨?_, fun hc => by cases hc⟩
    rw [height]
    omega
  | black _ _ ihl ihr =>
    have hl := ihl.1
    have hr := ihr.1
    rw [height]
    exact ⟨by omega, fun _ => by omega⟩

/-- A tree with `n` black nodes on every way down has at least those of a full one. -/
theorem Balanced.two_pow_le (h : t.Balanced n) : 2 ^ n ≤ t.ids.length + 1 := by
  induction h with
  | nil => exact Nat.le_refl 1
  | red _ _ _ _ ihl ihr =>
    simp only [ids, List.length_cons, List.length_append]
    omega
  | black _ _ ihl ihr =>
    simp only [ids, List.length_cons, List.length_append, Nat.pow_succ]
    omega

theorem RedBlack.height_le (h : t.RedBlack) : t.height ≤ 2 * Nat.log 2 (t.ids.length + 1) := by
  obtain ⟨⟨n, hb⟩, hc⟩ := h
  have hlog : n ≤ Nat.log 2 (t.ids.length + 1) :=
    Nat.le_log_of_pow_le (by decide) hb.two_pow_le
  have hle := hb.height_le.2 hc
  omega

theorem length_entries (t : Tree I K V) : t.entries.length = t.ids.length := by
  induction t with
  | nil => rfl
  | node id c l k v r ihl ihr =>
    simp only [entries, ids, List.length_append, List.length_cons, ihl, ihr]
    omega

end Tree

/-- A way down is part of the height of the tree. -/
theorem Path.length_add_height_le (p : Path I K V) (t : Tree I K V) :
    p.length + t.height ≤ (p.plug t).height := by
  induction p generalizing t with
  | nil => exact Nat.le_of_eq (Nat.zero_add _)
  | cons f p ih =>
    have hfill : t.height + 1 ≤ (f.fill t).height := by
      cases hs : f.side <;> simp only [Crumb.fill, Tree.mk, hs, Tree.height] <;> omega
    have hle := ih (f.fill t)
    rw [List.length_cons]
    rw [Path.plug]
    omega

end Dmos.Lib
