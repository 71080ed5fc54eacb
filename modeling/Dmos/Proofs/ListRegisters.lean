import Mathlib.Data.Fintype.Pi
import Mathlib.Tactic.IntervalCases
import Dmos.Vgic
import Dmos.Proofs.LrEncoding

namespace Dmos.Proofs.ListRegisters
open Gic Vgic LrEncoding

variable {g : Gic}

theorem readVid_make (v p pri : BitVec 32) (grp1 : Bool) :
    gicLrReadVid (gicMakeVirtualHardwareInterrupt v p pri grp1) = v &&& 0x1ff#32 := by
  rw [hardwareInterrupt_eq, lrWord_vid]

theorem readPri_make (v p pri : BitVec 32) (grp1 : Bool) :
    gicLrReadPri (gicMakeVirtualHardwareInterrupt v p pri grp1) = pri &&& 0xf8#32 := by
  rw [hardwareInterrupt_eq, lrWord_pri]

theorem lrEmpty_make (v p pri : BitVec 32) (grp1 : Bool) :
    lrEmpty (gicMakeVirtualHardwareInterrupt v p pri grp1) = false := by
  have h : gicMakeVirtualHardwareInterrupt v p pri grp1 &&& 0x30000000#32 = 0x10000000#32 := by
    unfold gicMakeVirtualHardwareInterrupt
    apply BitVec.eq_of_getLsbD_eq
    intro i hi
    interval_cases i <;> simp
  rw [lrEmpty, h]
  decide

theorem lrEmpty_complete (w : BitVec 32) : lrEmpty (w &&& 0xcfffffff#32) = true := by
  have h : w &&& 0xcfffffff#32 &&& 0x30000000#32 = 0#32 := by rw [BitVec.and_assoc]; simp
  simp [lrEmpty, h]

theorem statusWord_bit : ∀ (b : Fin 4 → Bool) (i : Fin 4),
    (statusWord b &&& (1#32 <<< i.val) ≠ 0#32) ↔ b i = true := by
  decide

/-- The status word tells the loop the truth about each list register. -/
theorem elsr0_bit (g : Gic) (i : Fin 4) :
    (g.gicElsr0 &&& (1#32 <<< i.val) ≠ 0#32) ↔ lrEmpty (g.lr i) = true :=
  statusWord_bit _ i

/-- Every entry has the highest priority. All injections use priority 0, so
nothing is ever displaced. -/
def Flat (g : Gic) : Prop := ∀ i, lrEmpty (g.lr i) = false → gicLrReadPri (g.lr i) = 0

/-- The word that `vgic_inject` builds for a vector. -/
def entry (v : BitVec 32) : BitVec 32 := gicMakeVirtualHardwareInterrupt v v 0 false

@[simp] theorem entry_pri (v : BitVec 32) : gicLrReadPri (entry v) = 0 := by
  rw [entry, readPri_make]; rfl

@[simp] theorem entry_vid (v : BitVec 32) : gicLrReadVid (entry v) = v &&& 0x1ff#32 :=
  readVid_make v v 0 false

@[simp] theorem entry_nonempty (v : BitVec 32) : lrEmpty (entry v) = false :=
  lrEmpty_make v v 0 false

/-- With flat priorities the loop stops at the first empty register and changes
that one, or changes nothing. -/
theorem injectLoop_flat (hf : Flat g) (w : BitVec 32)
    (hw : ∀ i : Fin 4, (w &&& (1#32 <<< i.val) ≠ 0#32) ↔ lrEmpty (g.lr i) = true)
    (is : List (Fin 4)) (mask : BitVec 32) :
    (∃ i ∈ is, lrEmpty (g.lr i) = true ∧ injectLoop w is g mask 0 = g.gicWriteLr i mask) ∨
    ((∀ i ∈ is, lrEmpty (g.lr i) = false) ∧ injectLoop w is g mask 0 = g) := by
  induction is with
  | nil => right; simp [injectLoop]
  | cons i is ih =>
    by_cases he : lrEmpty (g.lr i) = true
    · left
      exact ⟨i, by simp, he, if_pos ((hw i).mpr he)⟩
    · have hn : lrEmpty (g.lr i) = false := by simpa using he
      have hloop : injectLoop w (i :: is) g mask 0 = injectLoop w is g mask 0 := by
        have hp := hf i hn
        simp only [injectLoop, if_neg ((hw i).not.mpr he), gicReadLr, hp]
        simp
      rw [hloop]
      rcases ih with ⟨j, hj, hej, hl⟩ | ⟨hall, hl⟩
      · exact .inl ⟨j, by simp [hj], hej, hl⟩
      · refine .inr ⟨?_, hl⟩
        intro j hj
        rcases List.mem_cons.mp hj with rfl | hj
        · exact hn
        · exact hall j hj

/-- What an injection does in a flat state: the new entry goes into an empty
list register, or nowhere when there is none. -/
theorem inject_cases (hf : Flat g) (v : BitVec 32) :
    (∃ i, lrEmpty (g.lr i) = true ∧ (vgicInject g v).lr = Function.update g.lr i (entry v)) ∨
    ((∀ i, lrEmpty (g.lr i) = false) ∧ (vgicInject g v).lr = g.lr) := by
  let g' := (g.gicSetIpriority 6 0xf8000000).gicSetIpriority 8 0x0000f800
  have hpri : gicLrReadPri (gicMakeVirtualHardwareInterrupt v v 0 false) = 0 := entry_pri v
  have hinj : vgicInject g v =
      injectLoop g'.gicElsr0 (List.finRange gichLrNum) g' (entry v) 0 := by
    simp only [vgicInject, hpri]
    rfl
  rw [hinj]
  rcases injectLoop_flat (g := g') hf g'.gicElsr0 (elsr0_bit g') (List.finRange gichLrNum)
    (entry v) with ⟨i, _, he, hl⟩ | ⟨hall, hl⟩
  · left
    exact ⟨i, he, by rw [hl]; rfl⟩
  · right
    exact ⟨fun i => hall i (List.mem_finRange i), by rw [hl]; rfl⟩

theorem inject_flat (hf : Flat g) (v : BitVec 32) : Flat (vgicInject g v) := by
  intro i hi
  rcases inject_cases hf v with ⟨j, _, hl⟩ | ⟨_, hl⟩
  · rw [hl] at hi ⊢
    by_cases hij : i = j
    · simp [hij]
    · simp only [Function.update_of_ne hij] at hi ⊢
      exact hf i hi
  · rw [hl] at hi ⊢
    exact hf i hi

theorem complete_flat (hf : Flat g) (i : Fin 4) : Flat (complete g i) := by
  intro j hj
  by_cases hij : j = i
  · subst hij
    simp [complete, gicWriteLr, lrEmpty_complete] at hj
  · simp only [complete, gicWriteLr, Function.update_of_ne hij] at hj ⊢
    exact hf j hj

theorem flat_of_empty (h : ∀ i, lrEmpty (g.lr i) = true) : Flat g := by
  intro i hi
  rw [h i] at hi
  cases hi

/-- Filling an empty list register adds one entry and removes none. -/
theorem entries_write {i : Fin 4} {w : BitVec 32} (he : lrEmpty (g.lr i) = true)
    (hw : lrEmpty w = false) : entries (g.gicWriteLr i w) = w ::ₘ entries g := by
  have hfilter : Finset.univ.filter (fun j => lrEmpty ((g.gicWriteLr i w).lr j) = false) =
      insert i (Finset.univ.filter (fun j => lrEmpty (g.lr j) = false)) := by
    ext j
    rw [Finset.mem_filter, Finset.mem_insert, Finset.mem_filter]
    by_cases hij : j = i
    · simp [gicWriteLr, hij, hw]
    · simp [gicWriteLr, hij]
  have hni : i ∉ Finset.univ.filter (fun j => lrEmpty (g.lr j) = false) := by simp [he]
  rw [entries, hfilter, Finset.insert_val_of_notMem hni, Multiset.map_cons]
  congr 1
  · simp [gicWriteLr]
  · apply Multiset.map_congr rfl
    intro j hj
    have hij : j ≠ i := fun h => hni (h ▸ hj)
    simp [gicWriteLr, hij]

end Dmos.Proofs.ListRegisters
