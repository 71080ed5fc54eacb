import Mathlib.Data.List.Induction
import Dmos.Bitmap

namespace Dmos.Proofs.BitmapSet

open Dmos.Lib Dmos.Bitmap

variable {b : Bitmap} {m : Bytes} {i j : Word}

theorem toNat_byte (i : Word) : (i / 8).toNat = i.toNat / 8 := BitVec.toNat_udiv

theorem bit_eq (i : Word) : bit i = BitVec.twoPow 32 (i.toNat % 8) := by
  rw [BitVec.twoPow_eq, bit, BitVec.shiftLeft_eq', BitVec.toNat_umod]
  rfl

/-- Two indices that share a byte share the bit in it only if they are the same. -/
theorem same_bit (hq : i / 8 = j / 8) : decide (i.toNat % 8 = j.toNat % 8) = decide (i = j) := by
  refine decide_eq_decide.mpr ⟨fun hr => BitVec.eq_of_toNat_eq ?_, fun h => by rw [h]⟩
  have hq' := congrArg BitVec.toNat hq
  rw [toNat_byte, toNat_byte] at hq'
  omega

/-- The bit of index `i`. -/
def member (b : Bitmap) (m : Bytes) (i : Word) : Bool :=
  decide (i < b.size) && (m (b.bits + i / 8)).getLsbD (i.toNat % 8)

theorem test_eq (b : Bitmap) (m : Bytes) (i : Word) :
    b.bitmapTest m i = if member b m i then 1 else 0 := by
  have hk : i.toNat % 8 < 32 := Nat.lt_of_lt_of_le (Nat.mod_lt _ (by decide)) (by decide)
  have h0 : BitVec.twoPow 32 (i.toNat % 8) ≠ 0#32 := twoPow_ne_zero hk
  by_cases hi : i < b.size
  · rw [bitmapTest, if_pos hi, bit_eq, BitVec.and_twoPow, BitVec.getLsbD_setWidth, member]
    generalize m (b.bits + i / 8) = x
    cases hx : x.getLsbD (i.toNat % 8) with
    | false => simp
    | true => simp [hi, hk, h0]
  · simp [bitmapTest, member, hi]

theorem test_eq_zero_iff : b.bitmapTest m i = 0 ↔ member b m i = false := by
  rw [test_eq]
  cases member b m i <;> decide

theorem test_eq_one_iff : b.bitmapTest m i = 1 ↔ member b m i = true := by
  rw [test_eq]
  cases member b m i <;> decide

theorem set_byte (x : BitVec 8) (i : Word) {k : Nat} (hk : k < 8) :
    ((x.setWidth 32 ||| bit i).setWidth 8).getLsbD k = (x.getLsbD k || decide (k = i.toNat % 8)) := by
  rw [bit_eq]
  simp [hk, show k < 32 by omega]

theorem clear_byte (x : BitVec 8) (i : Word) {k : Nat} (hk : k < 8) :
    ((x.setWidth 32 &&& ~~~ bit i).setWidth 8).getLsbD k =
      (x.getLsbD k && !decide (k = i.toNat % 8)) := by
  rw [bit_eq]
  simp [hk, show k < 32 by omega]

theorem mod_lt_eight (i : Word) : i.toNat % 8 < 8 := Nat.mod_lt _ (by decide)

theorem set_member (b : Bitmap) (m : Bytes) (i j : Word) :
    member b (b.bitmapSet m i) j = (member b m j || decide (j = i ∧ i < b.size)) := by
  by_cases hi : i < b.size
  · rw [bitmapSet, if_pos hi, member, member]
    by_cases ha : b.bits + j / 8 = b.bits + i / 8
    · have hq : j / 8 = i / 8 := (BitVec.add_right_inj _).mp ha
      rw [ha, Function.update_self, set_byte _ _ (mod_lt_eight j), same_bit hq]
      by_cases h : j = i
      · simp [h, hi]
      · simp [h]
    · have hne : j ≠ i := fun h => ha (by rw [h])
      rw [Function.update_of_ne ha]
      simp [hne]
  · simp [bitmapSet, hi]

theorem clear_member (b : Bitmap) (m : Bytes) (i j : Word) :
    member b (b.bitmapClear m i) j = (member b m j && !decide (j = i)) := by
  by_cases hi : i < b.size
  · rw [bitmapClear, if_pos hi, member, member]
    by_cases ha : b.bits + j / 8 = b.bits + i / 8
    · have hq : j / 8 = i / 8 := (BitVec.add_right_inj _).mp ha
      rw [ha, Function.update_self, clear_byte _ _ (mod_lt_eight j), same_bit hq, Bool.and_assoc]
    · have hne : j ≠ i := fun h => ha (by rw [h])
      rw [Function.update_of_ne ha]
      simp [hne]
  · rw [bitmapClear, if_neg hi]
    by_cases h : j = i
    · simp [member, h, hi]
    · simp [h]

/-- `bitmap_init` clears the first `(size + 7) / 8` bytes and no other. -/
theorem init_loop (buffer size : Word) (m : Bytes) (i k : Word) :
    initLoop buffer size m i (buffer + k) =
      if i ≤ k ∧ k < (size + 7) / 8 then 0 else m (buffer + k) := by
  induction m, i using initLoop.induct buffer size with
  | case1 m i hi ih =>
    have hs := toNat_succ_of_lt hi
    rw [initLoop, if_pos hi, ih]
    by_cases hk : k = i
    · subst hk
      have hle : ¬ k + 1 ≤ k := by
        rw [BitVec.le_def, hs]
        omega
      rw [if_neg (fun h => hle h.1), Function.update_self, if_pos ⟨BitVec.le_refl k, hi⟩]
    · have hne : buffer + k ≠ buffer + i := fun h => hk ((BitVec.add_right_inj _).mp h)
      have hle : i + 1 ≤ k ↔ i ≤ k := by
        have hki : k.toNat ≠ i.toNat := fun h => hk (BitVec.eq_of_toNat_eq h)
        rw [BitVec.le_def, BitVec.le_def, hs]
        omega
      simp only [Function.update_of_ne hne, hle]
  | case2 m i hi =>
    rw [initLoop, if_neg hi, if_neg]
    exact fun h => hi (Nat.lt_of_le_of_lt h.1 h.2)

/-- The bytes of a bitmap. -/
theorem toNat_bytes {size : Word} (hs : size.toNat < 2 ^ 63) :
    ((size + 7) / 8).toNat = (size.toNat + 7) / 8 := by
  rw [toNat_byte, BitVec.toNat_add, show (7 : Word).toNat = 7 from rfl, Nat.mod_eq_of_lt (by omega)]

theorem byte_lt {size : Word} (hs : size.toNat < 2 ^ 63) (hi : i < size) :
    i / 8 < (size + 7) / 8 := by
  have hi' : i.toNat < size.toNat := hi
  rw [BitVec.lt_def, toNat_bytes hs, toNat_byte]
  omega

theorem init_member {buffer size : Word} (hs : size.toNat < 2 ^ 63) (m : Bytes) (i : Word) :
    member (bitmapInit buffer size m).1 (bitmapInit buffer size m).2 i = false := by
  by_cases hi : i < size
  · have hz : initLoop buffer size m 0 (buffer + i / 8) = 0 := by
      rw [init_loop, if_pos ⟨Nat.zero_le _, byte_lt hs hi⟩]
    simp only [member, bitmapInit, hz]
    simp
  · simp [member, bitmapInit, hi]

/-- The search from `i` on: the first clear index, or `-1` if there is none. -/
theorem find_from (b : Bitmap) (m : Bytes) (i : Word) :
    (b.findFirstFreeFrom m i = -1 ∧ ∀ j, i ≤ j → j < b.size → member b m j = true) ∨
      (i ≤ b.findFirstFreeFrom m i ∧ b.findFirstFreeFrom m i < b.size ∧
        member b m (b.findFirstFreeFrom m i) = false ∧
        ∀ j, i ≤ j → j < b.findFirstFreeFrom m i → member b m j = true) := by
  induction i using findFirstFreeFrom.induct b m with
  | case1 i hi ht =>
    have hf : b.findFirstFreeFrom m i = i := by rw [findFirstFreeFrom, if_pos hi, if_pos ht]
    rw [hf]
    exact .inr ⟨Nat.le_refl _, hi, test_eq_zero_iff.mp ht,
      fun j hij hji => absurd hji (Nat.not_lt.mpr hij)⟩
  | case2 i hi ht ih =>
    have hf : b.findFirstFreeFrom m i = b.findFirstFreeFrom m (i + 1) := by
      rw [findFirstFreeFrom, if_pos hi, if_neg ht]
    have hs := toNat_succ_of_lt hi
    have hm : member b m i = true := by
      rw [test_eq_zero_iff] at ht
      simpa using ht
    have hstep : ∀ j, i ≤ j → j = i ∨ i + 1 ≤ j := by
      intro j hj
      have hj' : i.toNat ≤ j.toNat := hj
      rcases Nat.eq_or_lt_of_le hj' with h | h
      · exact .inl (BitVec.eq_of_toNat_eq h.symm)
      · exact .inr (by rw [BitVec.le_def, hs]; exact h)
    rw [hf]
    obtain ⟨h1, hall⟩ | ⟨hle, hlt, hfree, hall⟩ := ih
    · refine .inl ⟨h1, fun j hij hj => ?_⟩
      obtain rfl | hj' := hstep j hij
      · exact hm
      · exact hall j hj' hj
    · refine .inr ⟨?_, hlt, hfree, fun j hij hj => ?_⟩
      · rw [BitVec.le_def, hs] at hle
        exact Nat.le_of_succ_le hle
      · obtain rfl | hj' := hstep j hij
        · exact hm
        · exact hall j hj' hj
  | case3 i hi =>
    have hf : b.findFirstFreeFrom m i = -1 := by rw [findFirstFreeFrom, if_neg hi]
    exact .inl ⟨hf, fun j hij hj => absurd (Nat.lt_of_le_of_lt hij hj) hi⟩

inductive Op where
  | set (i : Word)
  | clear (i : Word)
  deriving DecidableEq, Repr

namespace Op

def index : Op → Word
  | .set i => i
  | .clear i => i

def exec (b : Bitmap) (m : Bytes) : Op → Bytes
  | .set i => b.bitmapSet m i
  | .clear i => b.bitmapClear m i

end Op

/-- The set of indices that the calls leave: those whose last call was a set. -/
def InSet (ops : List Op) (i : Word) : Prop :=
  (ops.filter (fun op => op.index = i)).getLast? = some (.set i)

theorem inSet_append (ops : List Op) (op : Op) (i : Word) :
    InSet (ops ++ [op]) i ↔ if op.index = i then op = .set i else InSet ops i := by
  rw [InSet, List.filter_append]
  by_cases h : op.index = i
  · simp [h]
  · simp [h, InSet]

theorem exec_member (b : Bitmap) (m : Bytes) (op : Op) (j : Word) :
    member b (op.exec b m) j =
      if op.index = j then decide (op = .set j ∧ j < b.size) else member b m j := by
  cases op with
  | set i =>
    rw [Op.exec, set_member, Op.index]
    by_cases h : i = j
    · subst h
      by_cases hi : i < b.size
      · simp [hi]
      · simp [member, hi]
    · simp [h, Ne.symm h]
  | clear i =>
    rw [Op.exec, clear_member, Op.index]
    by_cases h : i = j
    · simp [h]
    · simp [h, Ne.symm h]

theorem run_member {m₀ : Bytes} (h₀ : ∀ i, member b m₀ i = false) (ops : List Op) (i : Word) :
    member b (ops.foldl (Op.exec b) m₀) i = true ↔ i < b.size ∧ InSet ops i := by
  induction ops using List.reverseRecOn with
  | nil => simp [h₀, InSet]
  | append_singleton ops op ih =>
    rw [List.foldl_append, List.foldl_cons, List.foldl_nil, exec_member, inSet_append]
    by_cases h : op.index = i
    · simp [h, and_comm]
    · rw [if_neg h, if_neg h, ih]

theorem exec_frame (hs : b.size.toNat < 2 ^ 63) (m : Bytes) (op : Op) {a : Word}
    (ha : (b.size.toNat + 7) / 8 ≤ (a - b.bits).toNat) : op.exec b m a = m a := by
  have hne : ∀ i, i < b.size → a ≠ b.bits + i / 8 := by
    intro i hi h
    have hlt : (i / 8).toNat < ((b.size + 7) / 8).toNat := byte_lt hs hi
    rw [toNat_bytes hs] at hlt
    rw [h, BitVec.add_comm, BitVec.add_sub_cancel] at ha
    omega
  cases op with
  | set i =>
    by_cases hi : i < b.size
    · rw [Op.exec, bitmapSet, if_pos hi, Function.update_of_ne (hne i hi)]
    · rw [Op.exec, bitmapSet, if_neg hi]
  | clear i =>
    by_cases hi : i < b.size
    · rw [Op.exec, bitmapClear, if_pos hi, Function.update_of_ne (hne i hi)]
    · rw [Op.exec, bitmapClear, if_neg hi]

theorem run_frame (hs : b.size.toNat < 2 ^ 63) (ops : List Op) (m : Bytes) {a : Word}
    (ha : (b.size.toNat + 7) / 8 ≤ (a - b.bits).toNat) : ops.foldl (Op.exec b) m a = m a := by
  induction ops generalizing m with
  | nil => rfl
  | cons op ops ih => rw [List.foldl_cons, ih, exec_frame hs m op ha]

theorem init_frame {buffer size : Word} (hs : size.toNat < 2 ^ 63) (m : Bytes) {a : Word}
    (ha : (size.toNat + 7) / 8 ≤ (a - buffer).toNat) : (bitmapInit buffer size m).2 a = m a := by
  have hoff : buffer + (a - buffer) = a := by rw [BitVec.add_comm, BitVec.sub_add_cancel]
  have h := init_loop buffer size m 0 (a - buffer)
  rw [hoff, if_neg] at h
  · exact h
  · rintro ⟨-, hlt⟩
    rw [BitVec.lt_def, toNat_bytes hs] at hlt
    omega

/-- The memory after `bitmap_init` and the calls. -/
def after (b : Bitmap) (m₀ : Bytes) (ops : List Op) : Bytes :=
  ops.foldl (Op.exec b) (bitmapInit b.bits b.size m₀).2

theorem after_test (hs : b.size.toNat < 2 ^ 63) (m₀ : Bytes) (ops : List Op) (i : Word) :
    member b (after b m₀ ops) i = true ↔ i < b.size ∧ InSet ops i :=
  run_member (init_member hs m₀) ops i

/-- The result of the search, in terms of the set. -/
theorem after_find (hs : b.size.toNat < 2 ^ 63) (m₀ : Bytes) (ops : List Op) {f : Word}
    (hf : b.bitmapFindFirstFree (after b m₀ ops) = f) :
    (f = -1 ∧ ∀ i, i < b.size → InSet ops i) ∨
      (f ≠ -1 ∧ f < b.size ∧ ¬ InSet ops f ∧ ∀ i, i < f → InSet ops i) := by
  have h := find_from b (after b m₀ ops) 0
  rw [show b.findFirstFreeFrom (after b m₀ ops) 0 = f from hf] at h
  obtain ⟨h1, hall⟩ | ⟨-, hlt, hfree, hall⟩ := h
  · exact .inl ⟨h1, fun i hi => ((after_test hs m₀ ops i).mp (hall i (Nat.zero_le _) hi)).2⟩
  · have hlt' : f.toNat < b.size.toNat := hlt
    refine .inr ⟨fun h => ?_, hlt, fun hin => ?_, fun i hi => ?_⟩
    · rw [h] at hlt'
      exact absurd hlt' (Nat.not_lt.mpr (Nat.le_trans (Nat.le_of_lt hs) (by decide)))
    · rw [(after_test hs m₀ ops f).mpr ⟨hlt, hin⟩] at hfree
      exact absurd hfree (by decide)
    · exact ((after_test hs m₀ ops i).mp (hall i (Nat.zero_le _) hi)).2

/-- After `bitmap_init` and any calls the bitmap is the set of the indices below
its size whose last call was a set, a call changes no other index, and only the
bytes that hold the bits are ever written. `bitmap_find_first_free` finds the least
index that is not in the set. -/
theorem bitmap_is_set (b : Bitmap) (hs : b.size.toNat < 2 ^ 63) (m₀ : Bytes) (ops : List Op) :
    (bitmapInit b.bits b.size m₀).1 = b ∧
      (∀ i, b.bitmapTest (after b m₀ ops) i = 1 ↔ i < b.size ∧ InSet ops i) ∧
      (∀ (op : Op) (m : Bytes) (j : Word), j ≠ op.index →
        b.bitmapTest (op.exec b m) j = b.bitmapTest m j) ∧
      (∀ a, (b.size.toNat + 7) / 8 ≤ (a - b.bits).toNat → after b m₀ ops a = m₀ a) ∧
      (b.bitmapFindFirstFree (after b m₀ ops) = -1 ↔ ∀ i, i < b.size → InSet ops i) ∧
      (b.bitmapFindFirstFree (after b m₀ ops) ≠ -1 →
        b.bitmapFindFirstFree (after b m₀ ops) < b.size ∧
        ¬ InSet ops (b.bitmapFindFirstFree (after b m₀ ops)) ∧
        ∀ i, i < b.bitmapFindFirstFree (after b m₀ ops) → InSet ops i) := by
  refine ⟨rfl, fun i => ?_, fun op m j hj => ?_, fun a ha => ?_, ?_, ?_⟩
  · rw [test_eq_one_iff, after_test hs]
  · rw [test_eq, test_eq, exec_member, if_neg (Ne.symm hj)]
  · rw [after, run_frame hs ops _ ha, init_frame hs m₀ ha]
  · obtain ⟨h1, hall⟩ | ⟨hne, hlt, hfree, -⟩ := after_find hs m₀ ops rfl
    · exact ⟨fun _ => hall, fun _ => h1⟩
    · exact ⟨fun h => absurd h hne, fun hall => absurd (hall _ hlt) hfree⟩
  · intro hne
    obtain ⟨h1, -⟩ | ⟨-, h⟩ := after_find hs m₀ ops rfl
    · exact absurd h1 hne
    · exact h

theorem bitmap_is_set_ten :
    (10 : Word).toNat < 2 ^ 63 ∧
      bitmapTest ⟨0x1000, 10⟩
        (after ⟨0x1000, 10⟩ (fun _ => 0xff) [.set 9, .set 8, .clear 8, .set 10]) 9 = 1 := by
  have h := bitmap_is_set ⟨0x1000, 10⟩ (by decide) (fun _ => 0xff)
    [.set 9, .set 8, .clear 8, .set 10]
  exact ⟨by decide, (h.2.1 9).mpr ⟨by decide, by rw [InSet]; decide⟩⟩

end Dmos.Proofs.BitmapSet
