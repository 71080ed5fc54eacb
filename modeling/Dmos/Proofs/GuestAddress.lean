import Dmos.Ept

namespace Dmos.Proofs.GuestAddress
open Lib Ept

/-- `PAR_EL1.F` -/
def failed (par : Word) : Bool := par.getLsbD 0

/-- The frame `par[39:12]` joined with the offset `va[11:0]`. -/
def joined (par va : Word) : Word :=
  ((⟨12, 28⟩ : Field).get par ++ (⟨0, 12⟩ : Field).get va).setWidth 64

/-- What a translation of `va` should do. -/
structure Translated (ats1e1r : Word → Word) (parEl1 va paddr : Word) : Prop where
  fault : failed (ats1e1r va) = true → (gvaToIpa ats1e1r parEl1 va paddr).1 = -1 ∧
    (gvaToIpa ats1e1r parEl1 va paddr).2.1 = paddr
  address : failed (ats1e1r va) = false → (gvaToIpa ats1e1r parEl1 va paddr).1 = 0 ∧
    (gvaToIpa ats1e1r parEl1 va paddr).2.1 = joined (ats1e1r va) va
  restored : (gvaToIpa ats1e1r parEl1 va paddr).2.2 = parEl1
  page : ∀ va' : Word, va' >>> 12 = va >>> 12 → ats1e1r va' = ats1e1r va →
    failed (ats1e1r va) = false →
    (gvaToIpa ats1e1r parEl1 va' paddr).2.1 >>> 12 = (gvaToIpa ats1e1r parEl1 va paddr).2.1 >>> 12

/-- `PAGE_MASK` is one bit: the others of the address come from `va`. -/
def kept (par va : Word) : Word := (par &&& BitVec.twoPow 64 12) ||| (va &&& ~~~ BitVec.twoPow 64 12)

section Branches

variable {ats1e1r : Word → Word} {va : Word}

theorem par_f (par : Word) : par &&& parF ≠ 0 ↔ failed par = true := by
  rw [show parF = BitVec.twoPow 64 0 by decide]
  exact and_twoPow_ne_zero par (by decide)

theorem gvaToIpa_of_failed (h : failed (ats1e1r va) = true) (parEl1 paddr : Word) :
    gvaToIpa ats1e1r parEl1 va paddr = (-1, paddr, parEl1) :=
  if_pos ((par_f _).mpr h)

theorem gvaToIpa_of_not_failed (h : failed (ats1e1r va) = false) (parEl1 paddr : Word) :
    gvaToIpa ats1e1r parEl1 va paddr = (0, kept (ats1e1r va) va, parEl1) := by
  have hpar : ¬ ats1e1r va &&& parF ≠ 0 := by
    rw [par_f, h]
    exact Bool.false_ne_true
  have hmask : paddrMask &&& pageMask.signExtend 64 = BitVec.twoPow 64 12 := by decide
  have hnot : (~~~ pageMask).signExtend 64 = ~~~ BitVec.twoPow 64 12 := by decide
  refine (if_neg hpar).trans ?_
  rw [BitVec.and_assoc, hmask, hnot]
  rfl

end Branches

theorem getLsbD_kept (par va : Word) {i : Nat} (hi : i < 64) :
    (kept par va).getLsbD i = if i = 12 then par.getLsbD i else va.getLsbD i := by
  rw [kept, BitVec.getLsbD_or, BitVec.getLsbD_and, BitVec.getLsbD_and, BitVec.getLsbD_not,
    BitVec.getLsbD_twoPow]
  by_cases h : i = 12
  · subst h
    simp
  · simp [h, Ne.symm h, hi]

theorem getLsbD_joined (par va : Word) {i : Nat} (hi : i < 64) :
    (joined par va).getLsbD i =
      if i < 12 then va.getLsbD i else decide (i < 40) && par.getLsbD i := by
  rw [joined, BitVec.getLsbD_setWidth, BitVec.getLsbD_append, Field.getLsbD_get, Field.getLsbD_get]
  by_cases h : i < 12
  · simp [hi, h]
  · have hsum : 12 + (i - 12) = i := by omega
    have hlt : i - 12 < 28 ↔ i < 40 := by omega
    simp [hi, h, hsum, hlt]

/-- The two differ in the bits above `PAGE_MASK`. -/
theorem kept_eq_joined (par va : Word) : kept par va = joined par va ↔
    (⟨13, 51⟩ : Field).get va = ((⟨13, 27⟩ : Field).get par).setWidth 51 := by
  constructor
  · intro h
    apply BitVec.eq_of_getLsbD_eq
    intro i (hi : i < 51)
    have hbit := congrArg (fun w => w.getLsbD (13 + i)) h
    have h12 : ¬ 13 + i = 12 := by omega
    have hlow : ¬ 13 + i < 12 := by omega
    have htop : 13 + i < 40 ↔ i < 27 := by omega
    simp only [getLsbD_kept par va (show 13 + i < 64 by omega),
      getLsbD_joined par va (show 13 + i < 64 by omega), h12, hlow, htop, ↓reduceIte] at hbit
    rw [Field.getLsbD_get, BitVec.getLsbD_setWidth, Field.getLsbD_get, hbit]
  · intro h
    apply BitVec.eq_of_getLsbD_eq
    intro i hi
    rw [getLsbD_kept par va hi, getLsbD_joined par va hi]
    rcases Nat.lt_trichotomy i 12 with hlt | heq | hgt
    · simp [hlt, Nat.ne_of_lt hlt]
    · subst heq
      simp
    · have hbit := congrArg (fun w => w.getLsbD (i - 13)) h
      have hsum : 13 + (i - 13) = i := by omega
      have htop : i - 13 < 27 ↔ i < 40 := by omega
      have hfield : i - 13 < 51 := by omega
      simp only [Field.getLsbD_get, BitVec.getLsbD_setWidth, hsum, hfield, htop, decide_true,
        Bool.true_and] at hbit
      rw [if_neg (Nat.ne_of_gt hgt), if_neg (Nat.lt_asymm hgt)]
      exact hbit

/-- The frame comes from the bits above the offset, whatever they are. -/
theorem kept_frame (par : Word) {va va' : Word} (h : va' >>> 12 = va >>> 12) :
    kept par va' >>> 12 = kept par va >>> 12 := by
  apply BitVec.eq_of_getLsbD_eq
  intro i hi
  rw [BitVec.getLsbD_ushiftRight, BitVec.getLsbD_ushiftRight]
  by_cases htop : 12 + i < 64
  · have hbit := congrArg (fun w => w.getLsbD i) h
    simp only [BitVec.getLsbD_ushiftRight] at hbit
    rw [getLsbD_kept par va' htop, getLsbD_kept par va htop, hbit]
  · rw [BitVec.getLsbD_of_ge _ _ (by omega), BitVec.getLsbD_of_ge _ _ (by omega)]

/-- The translation is what it should be exactly when it fails, or the bits of `va`
from 13 on happen to be those of the frame. -/
theorem translated_iff (ats1e1r : Word → Word) (parEl1 va paddr : Word) :
    Translated ats1e1r parEl1 va paddr ↔
      failed (ats1e1r va) = true ∨
        (⟨13, 51⟩ : Field).get va = ((⟨13, 27⟩ : Field).get (ats1e1r va)).setWidth 51 := by
  cases hf : failed (ats1e1r va) with
  | true =>
    have he := gvaToIpa_of_failed hf parEl1 paddr
    refine iff_of_true ⟨fun _ => ?_, fun h => ?_, ?_, fun _ _ _ h => ?_⟩ (.inl rfl)
    · rw [he]
      exact ⟨rfl, rfl⟩
    · exact absurd (hf.symm.trans h) Bool.noConfusion
    · rw [he]
    · exact absurd (hf.symm.trans h) Bool.noConfusion
  | false =>
    have he := gvaToIpa_of_not_failed hf parEl1 paddr
    rw [or_iff_right Bool.false_ne_true, ← kept_eq_joined]
    constructor
    · intro h
      have haddr := (h.address hf).2
      rwa [he] at haddr
    · intro h
      refine ⟨fun ht => ?_, fun _ => ?_, ?_, fun va' hpage hsame _ => ?_⟩
      · exact absurd (hf.symm.trans ht) Bool.noConfusion
      · rw [he]
        exact ⟨rfl, h⟩
      · rw [he]
      · have he' := gvaToIpa_of_not_failed (hsame ▸ hf) parEl1 paddr
        rw [he, he', hsame]
        exact kept_frame _ hpage

/-- The guest maps the page at `0x2000` to the frame `0x40000`: the address is not
translated at all. -/
theorem page_not_translated :
    (gvaToIpa (fun _ => 0x40000000) 0 0x2000 0).2.1 = 0x2000 ∧
      ¬ Translated (fun _ => 0x40000000) 0 0x2000 0 := by
  have hwrong : (gvaToIpa (fun _ => 0x40000000) 0 0x2000 0).2.1 = 0x2000 := by decide
  refine ⟨hwrong, fun h => ?_⟩
  have haddr := (h.address (by decide)).2
  rw [hwrong] at haddr
  exact absurd haddr (by decide)

end Dmos.Proofs.GuestAddress
