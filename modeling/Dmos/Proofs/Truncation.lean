import Mathlib.Tactic.Linarith
import Dmos.Proofs.Formatting

namespace Dmos.Proofs.Truncation
open Printf Formatting

variable {env : Env} {fmt : CString} {va : Nat → Word} {size : BitVec 32} {r : Result}
  {text : List Byte}

/-- A call stores a prefix of the full output and a terminator, one after the other. -/
theorem vsnprintf_eq (env : Env) (size : BitVec 32) (fmt : CString) (va : Nat → Word) :
    vsnprintf env size fmt va = (format push env fmt va []).map fun (t, c) =>
      ⟨BitVec.ofNat 32 t.length, storesFrom 0 (t.take (size - 1).toNat ++ [0]), c.reads⟩ := by
  have hrun : format addchar env fmt va ⟨0, size - 1, 0, []⟩ = (format push env fmt va []).map
      fun (t, c) => (t.foldl addchar ⟨0, size - 1, 0, []⟩, c) := formatLoop_eq addchar _ _ _ _
  rw [vsnprintf, hrun, Option.map_map]
  congr 1
  funext ⟨t, c⟩
  simp only [Function.comp_apply, foldl_addchar, Nat.zero_add, List.nil_append, storesFrom_append,
    List.length_take, storesFrom, Nat.min_comm, Result.mk.injEq, and_true]
  exact BitVec.zero_add _

theorem fullOutput_eq_some_iff : fullOutput env fmt va = some text ↔
    ∃ c, format push env fmt va [] = some (text, c) := by
  rw [fullOutput, Option.map_eq_some_iff]
  constructor
  · rintro ⟨⟨t, c⟩, h, rfl⟩
    exact ⟨c, h⟩
  · rintro ⟨c, h⟩
    exact ⟨(text, c), h, rfl⟩

theorem held_storesFrom (t : List Byte) (b i : Nat) (init : Option Byte) :
    (storesFrom b t).foldl (fun m st => if st.1 = i then some st.2 else m) init =
      if b ≤ i ∧ i < b + t.length then t[i - b]? else init := by
  induction t generalizing b init with
  | nil =>
    rw [if_neg (by simp only [List.length_nil]; omega)]
    rfl
  | cons c t ih =>
    rw [storesFrom, List.foldl_cons, ih, List.length_cons]
    rcases Nat.lt_trichotomy i b with hlt | rfl | hgt
    · rw [if_neg (by omega), if_neg (by omega), if_neg (by omega)]
    · rw [if_neg (by omega), if_pos rfl, if_pos (by omega), Nat.sub_self]
      rfl
    · rw [if_neg (Nat.ne_of_lt hgt), show i - b = i - (b + 1) + 1 by omega, List.getElem?_cons_succ]
      by_cases hi : i < b + 1 + t.length
      · rw [if_pos ⟨hgt, hi⟩, if_pos (by omega)]
      · rw [if_neg (by omega), if_neg (by omega)]

/-- The buffer holds the bytes stored. -/
theorem held_eq (h : r.stores = storesFrom 0 text) (i : Nat) : r.held i = text[i]? := by
  rw [Result.held, h, held_storesFrom, Nat.sub_zero]
  split
  · rfl
  · next hi => exact (List.getElem?_eq_none (by omega)).symm

/-- What a call promises for its size, given the full output. -/
structure Bounded (size : BitVec 32) (text : List Byte) (r : Result) : Prop where
  inside : ∀ st ∈ r.stores, st.1 < size.toNat
  count : r.stores.length ≤ size.toNat
  returns : r.ret.toInt = text.length
  holds : 1 ≤ size.toNat → ∀ i < min text.length (size.toNat - 1), r.held i = text[i]?
  terminated : 1 ≤ size.toNat → r.held (min text.length (size.toNat - 1)) = some 0

/-- The characters a call has stored before its terminator. -/
def output (r : Result) : List Byte := (r.stores.map (·.2)).dropLast

theorem map_snd_storesFrom (b : Nat) (t : List Byte) : (storesFrom b t).map (·.2) = t := by
  induction t generalizing b with
  | nil => rfl
  | cons c t ih => rw [storesFrom, List.map_cons, ih]

theorem output_eq (t : List Byte) (h : r.stores = storesFrom 0 (t ++ [0])) : output r = t := by
  rw [output, h, map_snd_storesFrom, List.dropLast_concat]

theorem toInt_ofNat_eq_iff (n : Nat) : (BitVec.ofNat 32 n).toInt = n ↔ n < 2 ^ 31 := by
  rw [BitVec.toInt_eq_toNat_cond, BitVec.toNat_ofNat]
  split <;> omega

/-- The remaining space of a size that is not zero. -/
theorem toNat_sub_one (h : 1 ≤ size.toNat) : (size - 1).toNat = size.toNat - 1 :=
  BitVec.toNat_sub_of_le (BitVec.le_def.mpr h)

theorem bounded_of (hsize : 1 ≤ size.toNat) (hlen : text.length < 2 ^ 31)
    (hret : r.ret = BitVec.ofNat 32 text.length)
    (hst : r.stores = storesFrom 0 (text.take (size.toNat - 1) ++ [0])) : Bounded size text r := by
  have hcount : (text.take (size.toNat - 1) ++ [0]).length = min text.length (size.toNat - 1) + 1 := by
    rw [List.length_append, List.length_take, Nat.min_comm]
    rfl
  refine ⟨?_, ?_, ?_, ?_, ?_⟩
  · intro st h
    have hlt := (mem_storesFrom (hst ▸ h)).2
    omega
  · rw [hst, length_storesFrom]
    omega
  · rw [hret, toInt_ofNat_eq_iff]
    exact hlen
  · intro _ i hi
    rw [held_eq hst, List.getElem?_append_left (by rw [List.length_take]; omega),
      List.getElem?_take_of_lt (by omega)]
  · intro _
    rw [held_eq hst, List.getElem?_append_right (by rw [List.length_take]; omega), List.length_take,
      Nat.min_comm, Nat.sub_self]
    rfl

/-- Two calls agree: on the return value, and on the output as far as both have it. -/
def Agree (r r' : Result) : Prop :=
  r.ret = r'.ret ∧ (output r <+: output r' ∨ output r' <+: output r)

theorem take_prefix_or (l : List Byte) (n m : Nat) : l.take n <+: l.take m ∨ l.take m <+: l.take n := by
  rcases Nat.le_total n m with h | h
  · exact .inl (List.take_prefix_take_left h)
  · exact .inr (List.take_prefix_take_left h)

/-- The formatter keeps its promise for two sizes exactly when neither is zero, every
width it reads can be counted, and so can the full output. -/
theorem vsnprintf_bounded_iff (env : Env) (fmt : CString) (va : Nat → Word) (size size' : BitVec 32) :
    (∃ text r r', fullOutput env fmt va = some text ∧ vsnprintf env size fmt va = some r ∧
      vsnprintf env size' fmt va = some r' ∧ Bounded size text r ∧ Bounded size' text r' ∧
      Agree r r') ↔
    1 ≤ size.toNat ∧ 1 ≤ size'.toNat ∧ ShortWidths fmt.bytes ∧
      ∀ text, fullOutput env fmt va = some text → text.length < 2 ^ 31 := by
  rw [vsnprintf_eq, vsnprintf_eq]
  constructor
  · rintro ⟨text, r, r', htext, hr, hr', hb, hb', _⟩
    obtain ⟨c, hrun⟩ := fullOutput_eq_some_iff.mp htext
    rw [hrun] at hr hr'
    have hpos : ∀ {size : BitVec 32} {r : Result}, r = ⟨BitVec.ofNat 32 text.length,
        storesFrom 0 (text.take (size - 1).toNat ++ [0]), c.reads⟩ → Bounded size text r →
        1 ≤ size.toNat := fun hr hb => by
      have hcount := hb.count
      rw [hr, length_storesFrom, List.length_append] at hcount
      exact Nat.le_trans (Nat.le_add_left 1 _) hcount
    refine ⟨hpos (Option.some.inj hr).symm hb, hpos (Option.some.inj hr').symm hb',
      (format_isSome_iff push []).mp ⟨_, hrun⟩, ?_⟩
    intro text' htext'
    rw [htext] at htext'
    cases htext'
    have hret := hb.returns
    rw [← Option.some.inj hr] at hret
    exact (toInt_ofNat_eq_iff _).mp hret
  · rintro ⟨h1, h1', hw, hlen⟩
    obtain ⟨⟨text, c⟩, hrun⟩ : ∃ r, format push env fmt va [] = some r :=
      (format_isSome_iff push []).mpr hw
    have htext : fullOutput env fmt va = some text := fullOutput_eq_some_iff.mpr ⟨c, hrun⟩
    rw [hrun]
    refine ⟨text, _, _, htext, rfl, rfl, ?_, ?_, rfl, ?_⟩
    · exact bounded_of h1 (hlen text htext) rfl (by rw [toNat_sub_one h1])
    · exact bounded_of h1' (hlen text htext) rfl (by rw [toNat_sub_one h1'])
    · rw [output_eq (text.take (size - 1).toNat) rfl, output_eq (text.take (size' - 1).toNat) rfl]
      exact take_prefix_or text _ _

/-- Zeros around the table and at every pointer, and no string but the empty one. -/
def zeroEnv : Env := ⟨fun _ => 0, fun _ => ⟨[], List.not_mem_nil⟩, fun _ => 0⟩

/-- With a size of zero even an empty format stores its terminator. -/
theorem size_zero_stores :
    ∃ r, vsnprintf zeroEnv 0 ⟨[], List.not_mem_nil⟩ (fun _ => 0) = some r ∧ r.stores = [(0, 0)] ∧
      ∀ text, ¬ Bounded 0 text r := by
  refine ⟨⟨0, [(0, 0)], []⟩, rfl, rfl, ?_⟩
  intro text h
  exact absurd (h.inside (0, 0) (List.mem_singleton.mpr rfl)) (by decide)

end Dmos.Proofs.Truncation
