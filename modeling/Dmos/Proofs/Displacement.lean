import Dmos.Lib.BitField
import Dmos.Lib.Displace
import Dmos.Proofs.ListRegisters

namespace Dmos.Proofs.Displacement

open Dmos.Lib Gic Vgic ListRegisters

variable {g : Gic}

/-- The priority field of a list register, as a number. -/
def rank (w : BitVec 32) : Nat := (gicLrReadPri w).toNat

/-- The list registers `is` as slots: an empty one is free. -/
def slots (g : Gic) (is : List (Fin 4)) : List (Option (BitVec 32)) :=
  is.map (fun i => if lrEmpty (g.lr i) then none else some (g.lr i))

theorem lt_byte (w : BitVec 32) : (gicLrReadPri w).toNat < 256 := by
  have hle : (w &&& 0x0f800000#32).toNat ≤ 0x0f800000 := by
    rw [BitVec.toNat_and]
    exact Nat.and_le_right
  rw [gicLrReadPri, BitVec.toNat_ushiftRight, Nat.shiftRight_eq_div_pow]
  omega

/-- The priority read passes through a `uint8_t` unchanged. -/
theorem readPri_byte (w : BitVec 32) : ((gicLrReadPri w).setWidth 8).setWidth 32 = gicLrReadPri w := by
  apply BitVec.eq_of_toNat_eq
  have hlt := lt_byte w
  simp only [BitVec.toNat_setWidth]
  omega

theorem slots_write {i : Fin 4} {is : List (Fin 4)} (hi : i ∉ is) (w : BitVec 32) :
    slots (g.gicWriteLr i w) is = slots g is := by
  apply List.map_congr_left
  intro j hj
  have hne : j ≠ i := fun h => hi (h ▸ hj)
  simp [gicWriteLr, hne]

/-- The loop writes only the registers that it is still to visit. -/
theorem injectLoop_lr (w : BitVec 32) {i : Fin 4} {is : List (Fin 4)} (hi : i ∉ is) (g : Gic)
    (mask pri : BitVec 32) : (injectLoop w is g mask pri).lr i = g.lr i := by
  induction is generalizing g mask pri with
  | nil => rfl
  | cons j is ih =>
    have hij : i ≠ j := fun h => hi (h ▸ List.mem_cons_self)
    have his : i ∉ is := fun h => hi (List.mem_cons_of_mem _ h)
    unfold injectLoop
    split
    · simp [gicWriteLr, hij]
    · dsimp only
      split
      · rw [ih his]
        simp [gicWriteLr, hij]
      · exact ih his _ _ _

/-- The loop of `vgic_inject` displaces entries by their priorities. -/
theorem injectLoop_slots (w : BitVec 32) {is : List (Fin 4)} (hnd : is.Nodup) (g : Gic)
    (hw : ∀ i ∈ is, (w &&& (1#32 <<< i.val) ≠ 0#32) ↔ lrEmpty (g.lr i) = true) (mask : BitVec 32)
    (hm : lrEmpty mask = false) :
    slots (injectLoop w is g mask (gicLrReadPri mask)) is = (displace rank (slots g is) mask).1 := by
  induction is generalizing g mask with
  | nil => rfl
  | cons i is ih =>
    obtain ⟨hi, hnd⟩ := List.nodup_cons.mp hnd
    have hbit := hw i List.mem_cons_self
    have hrest : ∀ (g' : Gic), (∀ j ∈ is, g'.lr j = g.lr j) →
        ∀ j ∈ is, (w &&& (1#32 <<< j.val) ≠ 0#32) ↔ lrEmpty (g'.lr j) = true := by
      intro g' hg j hj
      rw [hg j hj]
      exact hw j (List.mem_cons_of_mem _ hj)
    cases he : lrEmpty (g.lr i) with
    | true =>
      have hloop : injectLoop w (i :: is) g mask (gicLrReadPri mask) = g.gicWriteLr i mask :=
        if_pos (hbit.mpr he)
      rw [hloop]
      simp only [slots, List.map_cons, he, ↓reduceIte, displace]
      rw [show (g.gicWriteLr i mask).lr i = mask by simp [gicWriteLr], hm]
      exact congrArg _ (slots_write hi mask)
    | false =>
      have hfull : ¬ (w &&& (1#32 <<< i.val) ≠ 0#32) := by
        rw [hbit, he]
        decide
      have hslots : slots g (i :: is) = some (g.lr i) :: slots g is := by
        simp [slots, he]
      rw [hslots, injectLoop, if_neg hfull, displace]
      dsimp only
      rw [readPri_byte, gicReadLr]
      by_cases hlt : gicLrReadPri (g.lr i) > gicLrReadPri mask
      · -- the entry at `i` is carried on
        have hgt : rank (g.lr i) > rank mask := hlt
        have hsame := slots_write (g := g) hi mask
        have hloop := ih hnd (g.gicWriteLr i mask)
          (hrest _ (fun j hj => by simp [gicWriteLr, show j ≠ i from fun h => hi (h ▸ hj)]))
          (g.lr i) he
        rw [if_pos hlt, if_pos hgt, ← hsame, ← hloop]
        have hlr := injectLoop_lr w hi (g.gicWriteLr i mask) (g.lr i) (gicLrReadPri (g.lr i))
        simp only [slots, List.map_cons, hlr]
        simp [gicWriteLr, hm]
      · have hle : ¬ rank (g.lr i) > rank mask := hlt
        have hloop := ih hnd g (hrest g (fun _ _ => rfl)) mask hm
        rw [if_neg hlt, if_neg hle, ← hloop]
        have hlr := injectLoop_lr w hi g mask (gicLrReadPri mask)
        simp only [slots, List.map_cons, hlr, he]
        simp

/-- The occupied list registers' contents are those of the slots. -/
theorem entries_slots (g : Gic) : entries g = ((slots g (List.finRange 4)).reduceOption : Multiset _) := by
  have huniv : (Finset.univ : Finset (Fin 4)).val = (List.finRange 4 : Multiset (Fin 4)) := rfl
  rw [entries, Finset.filter_val, huniv, Multiset.filter_coe, Multiset.map_coe]
  refine congrArg _ ?_
  rw [slots]
  induction List.finRange 4 with
  | nil => rfl
  | cons i is ih =>
    cases he : lrEmpty (g.lr i) with
    | true => simpa [he] using ih
    | false => simpa [he] using ih

theorem bit_ne_zero (w : BitVec 32) (i : Fin 4) :
    (w &&& (1#32 <<< i.val) ≠ 0#32) ↔ w.getLsbD i = true := by
  rw [← BitVec.twoPow_eq]
  exact and_twoPow_ne_zero w (by omega)

/-- What is in the list registers after an injection. -/
theorem injectAt_slots {elsr0 : BitVec 32} (hE : ∀ i : Fin 4, elsr0.getLsbD i = lrEmpty (g.lr i))
    (vector : BitVec 32) :
    slots (injectAt elsr0 g vector) (List.finRange 4) =
      (displace rank (slots g (List.finRange 4)) (entry vector)).1 := by
  let g' := (g.gicSetIpriority 6 0xf8000000).gicSetIpriority 8 0x0000f800
  have hw : ∀ i ∈ List.finRange 4, (elsr0 &&& (1#32 <<< i.val) ≠ 0#32) ↔ lrEmpty (g'.lr i) = true := by
    intro i _
    rw [bit_ne_zero, hE i]
    rfl
  exact injectLoop_slots elsr0 (List.nodup_finRange 4) g' hw (entry vector) (entry_nonempty vector)

theorem none_mem_slots : none ∈ slots g (List.finRange 4) ↔ ∃ i, lrEmpty (g.lr i) = true := by
  simp [slots]

/-- An injection into list registers of which one is empty adds its entry and drops
nothing. Into four occupied ones it adds its entry and drops one of the five that has
the largest priority value. -/
theorem inject_entries (elsr0 : BitVec 32) (g : Gic)
    (hE : ∀ i : Fin 4, elsr0.getLsbD i = lrEmpty (g.lr i)) (vector : BitVec 32) :
    ((∃ i, lrEmpty (g.lr i) = true) →
      entries (injectAt elsr0 g vector) = entry vector ::ₘ entries g) ∧
    ((∀ i, lrEmpty (g.lr i) = false) →
      ∃ d, d ::ₘ entries (injectAt elsr0 g vector) = entry vector ::ₘ entries g ∧
        ∀ x ∈ entry vector ::ₘ entries g, gicLrReadPri x ≤ gicLrReadPri d) := by
  rw [entries_slots, entries_slots, injectAt_slots hE]
  constructor
  · intro hfree
    obtain ⟨-, hperm⟩ := displace_free rank (entry vector) (none_mem_slots.mpr hfree)
    exact Multiset.coe_eq_coe.mpr hperm
  · intro hfull
    have hnone : none ∉ slots g (List.finRange 4) := by
      rw [none_mem_slots]
      rintro ⟨i, hi⟩
      rw [hfull i] at hi
      cases hi
    obtain ⟨d, -, hperm, hmax⟩ := displace_full rank (entry vector) hnone
    exact ⟨d, Multiset.coe_eq_coe.mpr hperm, fun x hx => hmax x (Multiset.mem_coe.mp hx)⟩

/-- `vgic_inject` reads the status word of the list registers as they are. -/
theorem vgicInject_eq (g : Gic) (vector : BitVec 32) :
    vgicInject g vector = injectAt g.gicElsr0 g vector := rfl

theorem elsr0_getLsbD (g : Gic) (i : Fin 4) : g.gicElsr0.getLsbD i = lrEmpty (g.lr i) := by
  have h := elsr0_bit g i
  rw [bit_ne_zero] at h
  exact Bool.eq_iff_iff.mpr h

/-- Four occupied registers, of which the third has the lowest priority. -/
def occupied : Gic where
  isenabler := fun _ => 0
  ipriorityr := fun _ => 0
  lr := fun
    | 0 => 0x90006c1b
    | 1 => 0x98008421
    | 2 => 0x9f80a028
    | 3 => 0x90006c1b

theorem inject_entries_full :
    ∃ d, d ::ₘ entries (vgicInject occupied 33) = entry 33 ::ₘ entries occupied ∧
      gicLrReadPri (occupied.lr 2) ≤ gicLrReadPri d := by
  obtain ⟨d, heq, hmax⟩ :=
    (inject_entries occupied.gicElsr0 occupied (elsr0_getLsbD occupied) 33).2 (by decide)
  exact ⟨d, heq, hmax _ (by decide)⟩

end Dmos.Proofs.Displacement
