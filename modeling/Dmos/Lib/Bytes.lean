import Mathlib.Algebra.Group.Nat.Defs
import Mathlib.Algebra.GroupWithZero.Nat
import Mathlib.Logic.Function.Basic

namespace Dmos.Lib.Bytes

variable {w : Nat}

/-- The `n` bytes at address `a`, the first one lowest. -/
def load (m : BitVec w → BitVec 8) (a : BitVec w) (n : Nat) : BitVec 64 :=
  (List.range n).foldl (fun v i => v ||| ((m (a + BitVec.ofNat w i)).setWidth 64 <<< (8 * i))) 0

/-- The byte stores that put the low `n` bytes of `v` at address `a`. -/
def stores (a : BitVec w) (n : Nat) (v : BitVec 64) : List (BitVec w × BitVec 8) :=
  (List.range n).map (fun i => (a + BitVec.ofNat w i, (v >>> (8 * i)).setWidth 8))

def perform (m : BitVec w → BitVec 8) (ss : List (BitVec w × BitVec 8)) : BitVec w → BitVec 8 :=
  ss.foldl (fun m p => Function.update m p.1 p.2) m

theorem load_succ (m : BitVec w → BitVec 8) (a : BitVec w) (n : Nat) :
    load m a (n + 1) = load m a n ||| ((m (a + BitVec.ofNat w n)).setWidth 64 <<< (8 * n)) := by
  rw [load, List.range_succ, List.foldl_append]
  rfl

theorem getLsbD_load (m : BitVec w → BitVec 8) (a : BitVec w) {n : Nat} (hn : n ≤ 8) (k : Nat) :
    (load m a n).getLsbD k =
      (decide (k < 8 * n) && (m (a + BitVec.ofNat w (k / 8))).getLsbD (k % 8)) := by
  induction n with
  | zero => simp [load]
  | succ n ih =>
    rw [load_succ, BitVec.getLsbD_or, ih (by omega), BitVec.getLsbD_shiftLeft, BitVec.getLsbD_setWidth]
    by_cases hlo : k < 8 * n
    · have hlt : k < 8 * (n + 1) := by omega
      simp [hlo, hlt]
    · by_cases hhi : k < 8 * (n + 1)
      · have hdiv : k / 8 = n := by omega
        have hmod : k - 8 * n = k % 8 := by omega
        have h64 : k < 64 := by omega
        simp only [hlo, hhi, h64, hdiv, hmod, decide_true, decide_false, Bool.false_and,
          Bool.false_or, Bool.not_false, Bool.true_and]
        simp only [show k % 8 < 64 by omega, decide_true, Bool.true_and]
      · have hout : (m (a + BitVec.ofNat w n)).getLsbD (k - 8 * n) = false :=
          BitVec.getLsbD_of_ge _ _ (by omega)
        simp [hlo, hhi, hout]

theorem length_stores (a : BitVec w) (n : Nat) (v : BitVec 64) : (stores a n v).length = n := by
  simp [stores]

theorem stores_succ (a : BitVec w) (n : Nat) (v : BitVec 64) :
    stores a (n + 1) v = stores a n v ++ [(a + BitVec.ofNat w n, (v >>> (8 * n)).setWidth 8)] := by
  rw [stores, List.range_succ, List.map_append]
  rfl

/-- Eight bytes are the whole value. -/
theorem eq_of_stores_eq {a : BitVec w} {v v' : BitVec 64} (h : stores a 8 v = stores a 8 v') :
    v = v' := by
  have hbytes := List.map_inj_left.mp h
  apply BitVec.eq_of_getLsbD_eq
  intro k hk
  have hbyte := congrArg Prod.snd (hbytes (k / 8) (List.mem_range.mpr (by omega)))
  have hbit := congrArg (fun b => b.getLsbD (k % 8)) hbyte
  have hmod : k % 8 < 8 := Nat.mod_lt _ (by decide)
  have hsum : 8 * (k / 8) + k % 8 = k := Nat.div_add_mod k 8
  simpa [hmod, hsum] using hbit

/-- The stores of `n` bytes change the `n` cells from `a` on. -/
theorem perform_stores (m : BitVec w → BitVec 8) (a : BitVec w) {n : Nat} (hn : n ≤ 2 ^ w)
    (v : BitVec 64) (b : BitVec w) :
    perform m (stores a n v) b =
      if (b - a).toNat < n then (v >>> (8 * (b - a).toNat)).setWidth 8 else m b := by
  induction n with
  | zero => rfl
  | succ n ih =>
    have hcell : b = a + BitVec.ofNat w n ↔ (b - a).toNat = n := by
      constructor
      · rintro rfl
        rw [BitVec.add_comm, BitVec.add_sub_cancel, BitVec.toNat_ofNat, Nat.mod_eq_of_lt hn]
      · intro h
        rw [← h, BitVec.ofNat_toNat, BitVec.setWidth_eq, BitVec.add_comm, BitVec.sub_add_cancel]
    rw [stores_succ, perform, List.foldl_append, List.foldl_cons, List.foldl_nil]
    change Function.update (perform m (stores a n v)) _ _ b = _
    by_cases hb : b = a + BitVec.ofNat w n
    · have hoff := hcell.mp hb
      rw [if_pos (by omega), hoff, ← hb, Function.update_self]
    · have hoff := mt hcell.mpr hb
      rw [Function.update_of_ne hb, ih (by omega)]
      by_cases hlt : (b - a).toNat < n
      · rw [if_pos hlt, if_pos (by omega)]
      · rw [if_neg hlt, if_neg (by omega)]

end Dmos.Lib.Bytes
