import Mathlib.Data.List.Basic
import Dmos.Lib.BitField
import Dmos.Lib.Table

namespace Dmos.Lib

/-- Memory that a program reads and writes a byte at a time. -/
class Memory (μ : Type) where
  load : μ → BitVec 64 → BitVec 8
  store : μ → BitVec 64 → BitVec 8 → μ
  load_store : ∀ m a v b, load (store m a v) b = if b = a then v else load m b

namespace Memory

instance : Memory (BitVec 64 → BitVec 8) where
  load m a := m a
  store m a v := Function.update m a v
  load_store m a v b := by
    by_cases h : b = a
    · rw [if_pos h, h, Function.update_self]
    · rw [if_neg h, Function.update_of_ne h]

end Memory

/-! ### Words as bytes -/

namespace Field

variable {n : Nat}

/-- A field that was set reads back, when it lies in the word. -/
theorem get_set (f : Field) (w : BitVec n) (v : BitVec f.len) (h : f.lo + f.len ≤ n) :
    f.get (f.set w v) = v := by
  apply BitVec.eq_of_getLsbD_eq
  intro i hi
  have hin : f.lo + i < n := by omega
  have hm : (f.mask n).getLsbD (f.lo + i) = true := by
    rw [f.getLsbD_mask hin, decide_eq_true_iff]
    omega
  rw [getLsbD_get, set, BitVec.getLsbD_or, BitVec.getLsbD_and, BitVec.getLsbD_not, hm]
  simp [hi, hin]

/-- Setting a field leaves one that lies beside it. -/
theorem get_set_beside (f f' : Field) (w : BitVec n) (v : BitVec f'.len)
    (h : f.lo + f.len ≤ f'.lo ∨ f'.lo + f'.len ≤ f.lo) (hn : f.lo + f.len ≤ n) :
    f.get (f'.set w v) = f.get w := by
  apply BitVec.eq_of_getLsbD_eq
  intro i hi
  have hin : f.lo + i < n := by omega
  have hm : (f'.mask n).getLsbD (f.lo + i) = false := by
    rw [f'.getLsbD_mask hin, decide_eq_false_iff_not]
    omega
  have hv : (v.setWidth n <<< f'.lo).getLsbD (f.lo + i) = false := by
    rw [BitVec.getLsbD_shiftLeft, BitVec.getLsbD_setWidth]
    rcases h with h | h
    · have hlow : f.lo + i < f'.lo := by omega
      simp [hlow]
    · rw [BitVec.getLsbD_of_ge v _ (by omega)]
      simp
  rw [getLsbD_get, getLsbD_get, set, BitVec.getLsbD_or, BitVec.getLsbD_and, BitVec.getLsbD_not, hm, hv]
  simp [hin]

end Field

/-- The byte at `a` in the word around it, the first one lowest. -/
abbrev byteField (a : BitVec 64) : Field := ⟨8 * (a.toNat % 8), 8⟩

/-- The address of the word around `a`. -/
def wordAt (a : BitVec 64) : BitVec 64 := BitVec.ofNat 64 (8 * (a.toNat / 8))

theorem toNat_wordAt (a : BitVec 64) : (wordAt a).toNat = 8 * (a.toNat / 8) := by
  have ha := a.isLt
  rw [wordAt, BitVec.toNat_ofNat, Nat.mod_eq_of_lt (by omega)]

instance : Memory WordMemory where
  load m a := (byteField a).get (m (wordAt a))
  store m a v := Function.update m (wordAt a) ((byteField a).set (m (wordAt a)) v)
  load_store m a v b := by
    have hfit : ∀ c : BitVec 64, (byteField c).lo + (byteField c).len ≤ 64 := by
      intro c
      simp only
      omega
    by_cases hw : wordAt b = wordAt a
    · by_cases h : b = a
      · subst h
        rw [if_pos rfl, Function.update_self]
        exact Field.get_set _ _ _ (hfit b)
      · -- two bytes of one word
        have hne : b.toNat % 8 ≠ a.toNat % 8 := by
          intro hmod
          have hdiv := congrArg BitVec.toNat hw
          rw [toNat_wordAt, toNat_wordAt] at hdiv
          exact h (BitVec.eq_of_toNat_eq (by omega))
        rw [if_neg h, hw, Function.update_self]
        refine Field.get_set_beside _ _ _ _ ?_ (hfit b)
        simp only
        omega
    · have h : b ≠ a := fun h => hw (congrArg wordAt h)
      rw [if_neg h, Function.update_of_ne hw]

/-! ### Runs of bytes -/

/-- The address of byte `i` of an object. -/
def cell (a : BitVec 64) (i : Nat) : BitVec 64 := a + BitVec.ofNat 64 i

variable {a b : BitVec 64} {i j n k : Nat}

@[simp] theorem cell_zero (a : BitVec 64) : cell a 0 = a := by simp [cell]

theorem cell_cell (a : BitVec 64) (i j : Nat) : cell (cell a i) j = cell a (i + j) := by
  rw [cell, cell, cell, BitVec.ofNat_add, BitVec.add_assoc]

theorem cell_succ (a : BitVec 64) (i : Nat) : cell a i + 1 = cell a (i + 1) := cell_cell a i 1

theorem toNat_cell (h : a.toNat + i < 2 ^ 64) : (cell a i).toNat = a.toNat + i := by
  rw [cell, BitVec.toNat_add, BitVec.toNat_ofNat, Nat.mod_eq_of_lt (show i < 2 ^ 64 by omega),
    Nat.mod_eq_of_lt h]

/-- Eight bytes are a word. -/
theorem word_eq_of_bytes {m m' : WordMemory} {w : BitVec 64} (hw : w.toNat % 8 = 0)
    (h : ∀ k < 8, Memory.load m' (cell w k) = Memory.load m (cell w k)) : m' w = m w := by
  apply BitVec.eq_of_getLsbD_eq
  intro i hi
  have hlt := w.isLt
  have hn : (cell w (i / 8)).toNat = w.toNat + i / 8 := toNat_cell (by omega)
  have hword : wordAt (cell w (i / 8)) = w := by
    apply BitVec.eq_of_toNat_eq
    rw [toNat_wordAt, hn]
    omega
  have hbyte : (byteField (cell w (i / 8))).get (m' (wordAt (cell w (i / 8)))) =
      (byteField (cell w (i / 8))).get (m (wordAt (cell w (i / 8)))) := h (i / 8) (by omega)
  have hbit := congrArg (fun v => v.getLsbD (i % 8)) hbyte
  have hmod : i % 8 < 8 := Nat.mod_lt _ (by decide)
  have hpos : 8 * ((w.toNat + i / 8) % 8) + i % 8 = i := by omega
  simp only [Field.getLsbD_get, hword, hn, hmod, hpos, decide_true, Bool.true_and] at hbit
  exact hbit

/-- The `n` addresses from `a` on. -/
def span (a : BitVec 64) (n : Nat) : Set (BitVec 64) :=
  { b | a.toNat ≤ b.toNat ∧ b.toNat < a.toNat + n }

theorem mem_span : b ∈ span a n ↔ a.toNat ≤ b.toNat ∧ b.toNat < a.toNat + n := Iff.rfl

instance : DecidablePred (· ∈ span a n) := fun _ => inferInstanceAs (Decidable (_ ∧ _))

theorem cell_mem_span (h : a.toNat + n ≤ 2 ^ 64) (hi : i < n) : cell a i ∈ span a n := by
  rw [mem_span, toNat_cell (by omega)]
  omega

/-- An address of a run is a cell of it. -/
theorem eq_cell_of_mem_span (h : b ∈ span a n) : b = cell a (b.toNat - a.toNat) := by
  have hb := b.isLt
  rw [mem_span] at h
  apply BitVec.eq_of_toNat_eq
  rw [toNat_cell (by omega)]
  omega

section Holds

variable {μ : Type} [Memory μ] {m m' : μ} {bs cs : List (BitVec 8)}

open Memory

/-- The bytes from `a` on are those of `bs`. -/
def Holds (m : μ) (a : BitVec 64) (bs : List (BitVec 8)) : Prop :=
  ∀ i (h : i < bs.length), load m (cell a i) = bs.get ⟨i, h⟩

theorem Holds.left (h : Holds m a (bs ++ cs)) : Holds m a bs := by
  intro i hi
  have := h i (by rw [List.length_append]; omega)
  simpa [List.getElem_append_left hi] using this

theorem Holds.right (h : Holds m a (bs ++ cs)) : Holds m (cell a bs.length) cs := by
  intro i hi
  have := h (bs.length + i) (by rw [List.length_append]; omega)
  rw [cell_cell, this]
  simp

theorem Holds.append (h : Holds m a bs) (h' : Holds m (cell a bs.length) cs) :
    Holds m a (bs ++ cs) := by
  intro i hi
  by_cases hlt : i < bs.length
  · rw [h i hlt]
    simp [List.getElem_append_left hlt]
  · have hi' : i - bs.length < cs.length := by
      rw [List.length_append] at hi
      omega
    have hcell := h' (i - bs.length) hi'
    rw [cell_cell, Nat.add_sub_cancel' (by omega)] at hcell
    rw [hcell]
    simp [List.getElem_append_right (show bs.length ≤ i by omega)]

/-- The first byte and the rest. -/
theorem holds_cons {v : BitVec 8} : Holds m a (v :: bs) ↔ load m a = v ∧ Holds m (a + 1) bs := by
  have hone : a + 1 = cell a 1 := rfl
  constructor
  · intro h
    refine ⟨by simpa using h 0 (by simp), ?_⟩
    have hr : Holds m (cell a [v].length) bs := Holds.right (by rwa [List.singleton_append])
    rwa [hone]
  · rintro ⟨h, h'⟩
    have hv : Holds m a [v] := by
      intro i hi
      obtain rfl : i = 0 := by simpa using hi
      simpa using h
    exact hv.append (by rwa [hone] at h')

/-- A run is kept when none of its bytes changes. -/
theorem Holds.congr (h : Holds m a bs) (hb : a.toNat + bs.length ≤ 2 ^ 64)
    (he : ∀ c ∈ span a bs.length, load m' c = load m c) : Holds m' a bs := by
  intro i hi
  rw [he _ (cell_mem_span hb hi)]
  exact h i hi

/-- A byte that is written elsewhere. -/
theorem Holds.frame (h : Holds m a bs) (hb : a.toNat + bs.length ≤ 2 ^ 64) {v : BitVec 8}
    (hout : b ∉ span a bs.length) : Holds (store m b v) a bs := by
  refine h.congr hb fun c hc => ?_
  have hne : c ≠ b := fun heq => hout (heq ▸ hc)
  rw [load_store, if_neg hne]

/-- The byte after a run is written. -/
theorem Holds.push (h : Holds m a bs) (hb : a.toNat + bs.length < 2 ^ 64) (v : BitVec 8) :
    Holds (store m (cell a bs.length) v) a (bs ++ [v]) := by
  have hn := toNat_cell hb
  refine (h.frame (by omega) ?_).append ?_
  · rw [mem_span, hn]
    omega
  · intro i hi
    obtain rfl : i = 0 := by simpa using hi
    rw [cell_zero, load_store, if_pos rfl]
    rfl

end Holds

end Dmos.Lib
