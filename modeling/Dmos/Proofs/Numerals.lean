import Mathlib.Data.Nat.Digits.Lemmas
import Mathlib.Data.List.TakeWhile
import Dmos.Printf

namespace Dmos.Proofs.Numerals
open Printf

/-! ### The reversal of the local buffer -/

theorem length_swapEnds (buf : List Byte) (i : Nat) : (swapEnds buf i).length = buf.length := by
  simp [swapEnds]

theorem getElem?_swapEnds {buf : List Byte} {i : Nat} (hi : i < buf.length / 2) (j : Nat) :
    (swapEnds buf i)[j]? = if j = i ∨ j = buf.length - 1 - i then buf[buf.length - 1 - j]?
      else buf[j]? := by
  have hget : ∀ k, k < buf.length → some (buf.getD k 0) = buf[k]? := fun k hk => by
    rw [List.getD_eq_getElem?_getD, List.getElem?_eq_getElem hk, Option.getD_some]
  rw [swapEnds, List.getElem?_set, List.length_set, List.getElem?_set]
  by_cases hr : buf.length - 1 - i = j
  · rw [if_pos hr, if_pos (by omega), if_pos (.inr hr.symm), hget i (by omega)]
    congr 1
    omega
  · rw [if_neg hr]
    by_cases hl : i = j
    · rw [if_pos hl, if_pos (by omega), if_pos (.inl hl.symm), hget _ (by omega), hl]
    · rw [if_neg hl, if_neg (by omega)]

/-- After `k` passes the outer `k` bytes on either side have changed places. -/
theorem getElem?_swaps (buf : List Byte) {k : Nat} (hk : k ≤ buf.length / 2) :
    ((List.range k).foldl swapEnds buf).length = buf.length ∧
    ∀ j < buf.length, ((List.range k).foldl swapEnds buf)[j]? =
      if j < k ∨ buf.length - k ≤ j then buf[buf.length - 1 - j]? else buf[j]? := by
  induction k with
  | zero =>
    refine ⟨rfl, fun j hj => ?_⟩
    rw [if_neg (by omega)]
    rfl
  | succ k ih =>
    obtain ⟨hlen, hget⟩ := ih (by omega)
    rw [List.range_succ, List.foldl_append, List.foldl_cons, List.foldl_nil, length_swapEnds]
    refine ⟨hlen, fun j hj => ?_⟩
    rw [getElem?_swapEnds (by omega), hlen]
    by_cases hmid : j = k ∨ j = buf.length - 1 - k
    · rw [if_pos hmid, hget _ (by omega), if_neg (by omega), if_pos (by omega)]
    · rw [if_neg hmid, hget j hj]
      by_cases hout : j < k ∨ buf.length - k ≤ j
      · rw [if_pos hout, if_pos (by omega)]
      · rw [if_neg hout, if_neg (by omega)]

theorem reverseLoop_eq (buf : List Byte) : reverseLoop buf = buf.reverse := by
  obtain ⟨hlen, hget⟩ := getElem?_swaps buf (Nat.le_refl (buf.length / 2))
  apply List.ext_getElem?
  intro j
  by_cases hj : j < buf.length
  · rw [reverseLoop, hget j hj, List.getElem?_reverse hj]
    split
    · rfl
    · -- the byte in the middle stays
      congr 1
      omega
  · rw [reverseLoop, List.getElem?_eq_none (by omega), List.getElem?_eq_none (by simp; omega)]

theorem cstring_eq {buf : List Byte} (h : ∀ c ∈ buf, c ≠ 0) : cstring buf = buf :=
  List.takeWhile_eq_self_iff.mpr fun c hc => by simpa using h c hc

/-! ### Digits -/

def digitByte (d : Nat) : Byte := digitTable.getD d 0

theorem digits_eq (env : Env) {d : Nat} (hd : d < 16) : env.digits d = digitByte d := by
  rw [Env.digits, if_pos (by omega), Int.toNat_natCast, digitByte]

theorem digitByte_ne_zero : ∀ d < 16, digitByte d ≠ 0 := by decide

theorem digitByte_digit : ∀ d < 10, isDigit (digitByte d) = true ∧ (digitByte d - ch '0').toNat = d := by
  decide

/-- The loop writes the digits from the last to the first. -/
theorem digitLoop_natCast (digits : Int → Byte) {base : Nat} (hb : 1 < base) (fuel n : Nat)
    (hn : n < base ^ fuel) :
    digitLoop digits base fuel n = (base.digits n).map fun d : Nat => digits d := by
  induction fuel generalizing n with
  | zero =>
    have h0 : n = 0 := by simpa using hn
    rw [h0, Nat.digits_zero]
    rfl
  | succ fuel ih =>
    rw [digitLoop]
    split
    · next h0 =>
      rw [show n = 0 by omega, Nat.digits_zero]
      rfl
    · next h0 =>
      rw [Nat.digits_def' hb (by omega), List.map_cons, Int.ofNat_tmod, ← Int.ofNat_tdiv]
      congr 1
      exact ih (n / base) (Nat.div_lt_of_lt_mul (by rw [Nat.mul_comm, ← Nat.pow_succ]; exact hn))

/-- Below zero the remainders are negative, and so are the indices. -/
theorem digitLoop_neg (digits : Int → Byte) {base : Int} (fuel : Nat) (n : Int) :
    digitLoop digits base fuel (- n) = digitLoop (fun i => digits (- i)) base fuel n := by
  induction fuel generalizing n with
  | zero => rfl
  | succ fuel ih =>
    rw [digitLoop, digitLoop]
    split
    · next h0 => rw [if_pos (by omega)]
    · next h0 => rw [if_neg (by omega), Int.neg_tmod, Int.neg_tdiv, ih]

/-- The numeral of a number, without leading zeros. -/
def numeral (base n : Nat) : List Byte :=
  if n = 0 then [ch '0'] else ((base.digits n).map digitByte).reverse

theorem numeral_ne_zero {base n : Nat} (hb : 1 < base) (h16 : base ≤ 16) :
    ∀ c ∈ numeral base n, c ≠ 0 := by
  intro c hc
  rw [numeral] at hc
  split at hc
  · rw [List.mem_singleton] at hc
    rw [hc]
    decide
  · rw [List.mem_reverse, List.mem_map] at hc
    obtain ⟨d, hd, rfl⟩ := hc
    exact digitByte_ne_zero d (Nat.lt_of_lt_of_le (Nat.digits_lt_base hb hd) h16)

theorem length_numeral_pos (base n : Nat) : 0 < (numeral base n).length := by
  rw [numeral]
  split
  · exact Nat.one_pos
  · next h =>
    rw [List.length_reverse, List.length_map]
    exact List.length_pos_of_ne_nil (Nat.digits_ne_nil_iff_ne_zero.mpr h)

end Dmos.Proofs.Numerals
