import Dmos.Strings

namespace Dmos.Proofs.Copies
open Lib Lib.Memory Strings

section Loops

variable {μ : Type} [Memory μ] {m t : μ} {d s : Word} {lo hi n : Nat}

/-- Bytes `lo` to `hi` at `d` are those that were at `s`, and the others are as they were. -/
def Moved (m t : μ) (d s : Word) (lo hi : Nat) : Prop :=
  ∀ a : Word, load t a =
    if d.toNat + lo ≤ a.toNat ∧ a.toNat < d.toNat + hi then load m (cell s (a.toNat - d.toNat))
    else load m a

theorem moved_nothing (m : μ) (d s : Word) (i : Nat) : Moved m m d s i i := by
  intro a
  rw [if_neg (by omega)]

theorem Moved.inside (h : Moved m t d s 0 n) {i : Nat} (hd : d.toNat + n ≤ 2 ^ 64) (hi : i < n) :
    load t (cell d i) = load m (cell s i) := by
  have hn := toNat_cell (a := d) (i := i) (by omega)
  rw [h, hn, if_pos (by omega), Nat.add_sub_cancel_left]

theorem Moved.outside (h : Moved m t d s 0 n) {a : Word} (ha : a ∉ span d n) :
    load t a = load m a := by
  rw [mem_span] at ha
  rw [h, if_neg (by omega)]

/-- A byte of the source that is still to be read has not been written when the bytes that
were moved lie below it, or all above it. -/
theorem Moved.source (h : Moved m t d s lo hi) {i : Nat} (hs : s.toNat + i < 2 ^ 64)
    (hi' : s.toNat + i < d.toNat + lo ∨ d.toNat + hi ≤ s.toNat + i) :
    load t (cell s i) = load m (cell s i) := by
  have hn := toNat_cell hs
  rw [h, hn, if_neg (by omega)]

theorem Moved.up (h : Moved m t d s lo hi) (hlo : lo ≤ hi) (hd : d.toNat + hi < 2 ^ 64)
    (hsrc : load t (cell s hi) = load m (cell s hi)) :
    Moved m (store t (cell d hi) (load t (cell s hi))) d s lo (hi + 1) := by
  intro a
  have hn := toNat_cell hd
  rw [load_store]
  by_cases ha : a = cell d hi
  · rw [if_pos ha, if_pos (by rw [ha, hn]; omega), hsrc, ha, hn, Nat.add_sub_cancel_left]
  · have hne : a.toNat ≠ d.toNat + hi := fun heq => ha (BitVec.eq_of_toNat_eq (heq.trans hn.symm))
    rw [if_neg ha, h]
    by_cases hin : d.toNat + lo ≤ a.toNat ∧ a.toNat < d.toNat + hi
    · rw [if_pos hin, if_pos (by omega)]
    · rw [if_neg hin, if_neg (by omega)]

theorem Moved.down (h : Moved m t d s (lo + 1) hi) (hlo : lo < hi) (hd : d.toNat + lo < 2 ^ 64)
    (hsrc : load t (cell s lo) = load m (cell s lo)) :
    Moved m (store t (cell d lo) (load t (cell s lo))) d s lo hi := by
  intro a
  have hn := toNat_cell hd
  rw [load_store]
  by_cases ha : a = cell d lo
  · rw [if_pos ha, if_pos (by rw [ha, hn]; omega), hsrc, ha, hn, Nat.add_sub_cancel_left]
  · have hne : a.toNat ≠ d.toNat + lo := fun heq => ha (BitVec.eq_of_toNat_eq (heq.trans hn.symm))
    rw [if_neg ha, h]
    by_cases hin : d.toNat + (lo + 1) ≤ a.toNat ∧ a.toNat < d.toNat + hi
    · rw [if_pos hin, if_pos (by omega)]
    · rw [if_neg hin, if_neg (by omega)]

/-- The loop of the lower destination, with `k` bytes to go. -/
theorem moved_moveUp (hle : d ≤ s) (hs : s.toNat + n ≤ 2 ^ 64) (k : Nat) :
    ∀ {i : Nat} {t : μ}, i + k = n → Moved m t d s 0 i →
      Moved m (moveUp k (cell d i) (cell s i) t) d s 0 n := by
  have hds : d.toNat ≤ s.toNat := hle
  induction k with
  | zero =>
    intro i t hi h
    rwa [← hi]
  | succ k ih =>
    intro i t hi h
    rw [moveUp, cell_succ, cell_succ]
    exact ih (by omega) (h.up (by omega) (by omega) (h.source (by omega) (by omega)))

theorem cell_sub_one (a : Word) (i : Nat) : cell a (i + 1) - 1 = cell a i := by
  rw [← cell_succ, BitVec.add_sub_cancel]

/-- The loop of the higher destination, which goes down. -/
theorem moved_moveDown (hlt : s < d) (hd : d.toNat + n ≤ 2 ^ 64) (k : Nat) :
    ∀ {t : μ}, k ≤ n → Moved m t d s k n → Moved m (moveDown k (cell d k) (cell s k) t) d s 0 n := by
  have hsd : s.toNat < d.toNat := hlt
  induction k with
  | zero =>
    intro t _ h
    exact h
  | succ k ih =>
    intro t hk h
    rw [moveDown, cell_sub_one, cell_sub_one]
    exact ih (by omega) (h.down (by omega) (by omega) (h.source (by omega) (by omega)))

theorem moved_memmove (m : μ) {dest src n : Word} (hd : dest.toNat + n.toNat ≤ 2 ^ 64)
    (hs : src.toNat + n.toNat ≤ 2 ^ 64) : Moved m (memmove m dest src n) dest src 0 n.toNat := by
  rw [memmove]
  by_cases hle : dest ≤ src
  · have h := moved_moveUp hle hs n.toNat (Nat.zero_add _) (moved_nothing m dest src 0)
    rw [cell_zero, cell_zero] at h
    rwa [if_pos hle]
  · have hend : ∀ a : Word, a + n = cell a n.toNat := by
      intro a
      rw [cell, BitVec.ofNat_toNat, BitVec.setWidth_eq]
    have hlt : src < dest := BitVec.not_le.mp hle
    rw [if_neg hle, hend, hend]
    exact moved_moveDown hlt hd n.toNat (Nat.le_refl _) (moved_nothing m dest src n.toNat)

end Loops

/-- Where byte `i` of a `memcpy` comes from: a destination above the source repeats what
lies between the two. -/
def origin (dest src : Word) (i : Nat) : Nat :=
  if src < dest then i % (dest.toNat - src.toNat) else i

section Memcpy

variable {μ : Type} [Memory μ] {dest src : Word} {n : Nat}

/-- The first `i` bytes of a `memcpy` are in place. -/
def Copied (m t : μ) (dest src : Word) (i : Nat) : Prop :=
  ∀ a : Word, load t a =
    if a ∈ span dest i then load m (cell src (origin dest src (a.toNat - dest.toNat))) else load m a

/-- The loop reads a byte of the source, or one that it wrote a whole period ago. -/
theorem Copied.read {m t : μ} {i : Nat} (h : Copied m t dest src i)
    (hs : src.toNat + i < 2 ^ 64) : load t (cell src i) = load m (cell src (origin dest src i)) := by
  have hn := toNat_cell hs
  rw [h]
  unfold origin
  by_cases hlt : src < dest
  · have hsd : src.toNat < dest.toNat := hlt
    rw [if_pos hlt, if_pos hlt]
    by_cases hin : cell src i ∈ span dest i
    · have hper := hin
      rw [mem_span, hn] at hper
      have hback : i - (dest.toNat - src.toNat) = src.toNat + i - dest.toNat := by omega
      rw [if_pos hin, hn, ← hback, ← Nat.mod_eq_sub_mod (by omega)]
    · have hfirst := hin
      rw [mem_span, hn] at hfirst
      rw [if_neg hin, Nat.mod_eq_of_lt (by omega)]
  · have hds : ¬ src.toNat < dest.toNat := hlt
    rw [if_neg hlt, if_neg hlt, if_neg (by rw [mem_span, hn]; omega)]

theorem Copied.step {m t : μ} {i : Nat} (h : Copied m t dest src i)
    (hd : dest.toNat + i < 2 ^ 64) (hs : src.toNat + i < 2 ^ 64) :
    Copied m (store t (cell dest i) (load t (cell src i))) dest src (i + 1) := by
  intro a
  have hn := toNat_cell hd
  rw [load_store, h.read hs]
  by_cases ha : a = cell dest i
  · rw [if_pos ha, if_pos (by rw [mem_span, ha, hn]; omega), ha, hn, Nat.add_sub_cancel_left]
  · have hne : a.toNat ≠ dest.toNat + i := fun heq => ha (BitVec.eq_of_toNat_eq (heq.trans hn.symm))
    rw [if_neg ha, h]
    by_cases hin : a ∈ span dest i
    · rw [if_pos hin, if_pos (by rw [mem_span] at hin ⊢; omega)]
    · rw [if_neg hin, if_neg (by rw [mem_span] at hin ⊢; omega)]

theorem copied_memcpy (m : μ) {n : Word} (hd : dest.toNat + n.toNat ≤ 2 ^ 64)
    (hs : src.toNat + n.toNat ≤ 2 ^ 64) : Copied m (memcpy m dest src n) dest src n.toNat := by
  refine fold_invariant (I := fun i t => Copied m t dest src i) n.toNat m ?_ ?_
  · intro a
    rw [if_neg (by rw [mem_span]; omega)]
  · intro i hi t h
    exact h.step (by omega) (by omega)

theorem Copied.inside {m t : μ} (h : Copied m t dest src n) (hd : dest.toNat + n ≤ 2 ^ 64)
    {i : Nat} (hi : i < n) : load t (cell dest i) = load m (cell src (origin dest src i)) := by
  rw [h, if_pos (cell_mem_span hd hi), toNat_cell (by omega), Nat.add_sub_cancel_left]

theorem Copied.outside {m t : μ} (h : Copied m t dest src n) {a : Word} (ha : a ∉ span dest n) :
    load t a = load m a := by
  rw [h, if_neg ha]

/-- A destination that is not inside the source gets a copy of it. -/
theorem origin_of_apart {i : Nat} (hap : dest ≤ src ∨ src.toNat + n ≤ dest.toNat) (hi : i < n) :
    origin dest src i = i := by
  unfold origin
  rcases hap with hle | hap
  · have hds : dest.toNat ≤ src.toNat := hle
    exact if_neg (Nat.not_lt.mpr hds)
  · have hlt : src < dest := by
      rw [BitVec.lt_def]
      omega
    rw [if_pos hlt, Nat.mod_eq_of_lt (by omega)]

end Memcpy

/-- `memmove` copies every range to every other, however they overlap, and `memcpy` does
where the destination does not start inside the source; there it repeats the bytes between
the two, so that it is right exactly when the source repeats them too. Neither writes
outside the destination. -/
theorem copy_functions {μ : Type} [Memory μ] (m : μ) (dest src n : Word)
    (hd : dest.toNat + n.toNat ≤ 2 ^ 64) (hs : src.toNat + n.toNat ≤ 2 ^ 64) :
    (∀ i < n.toNat, load (memmove m dest src n) (cell dest i) = load m (cell src i)) ∧
    (∀ i < n.toNat,
      load (memcpy m dest src n) (cell dest i) = load m (cell src (origin dest src i))) ∧
    (∀ a ∉ span dest n.toNat, load (memmove m dest src n) a = load m a ∧
      load (memcpy m dest src n) a = load m a) ∧
    ((∀ a, load (memcpy m dest src n) a = load (memmove m dest src n) a) ↔
      (src < dest → ∀ i < n.toNat,
        load m (cell src (i % (dest.toNat - src.toNat))) = load m (cell src i))) := by
  have hmove := moved_memmove m hd hs
  have hcopy := copied_memcpy m hd hs
  refine ⟨fun i hi => hmove.inside hd hi, fun i hi => hcopy.inside hd hi,
    fun a ha => ⟨hmove.outside ha, hcopy.outside ha⟩, ?_⟩
  constructor
  · intro h hlt i hi
    have hboth := h (cell dest i)
    rw [hcopy.inside hd hi, hmove.inside hd hi, origin, if_pos hlt] at hboth
    exact hboth
  · intro h a
    by_cases ha : a ∈ span dest n.toNat
    · have hi : a.toNat - dest.toNat < n.toNat := by
        rw [mem_span] at ha
        omega
      rw [eq_cell_of_mem_span ha, hcopy.inside hd hi, hmove.inside hd hi]
      unfold origin
      by_cases hlt : src < dest
      · rw [if_pos hlt, h hlt _ hi]
      · rw [if_neg hlt]
    · rw [hcopy.outside ha, hmove.outside ha]

/-- A string moved up by one in its own buffer. -/
theorem copy_functions_overlap :
    load (memmove (fun a : Word => a.setWidth 8) 0x101 0x100 4) (cell 0x101 3) = 3 ∧
      load (memcpy (fun a : Word => a.setWidth 8) 0x101 0x100 4) (cell 0x101 3) = 0 := by
  obtain ⟨hmove, hcopy, -⟩ :=
    copy_functions (fun a : Word => a.setWidth 8) 0x101 0x100 4 (by decide) (by decide)
  exact ⟨(hmove 3 (by decide)).trans (by decide), (hcopy 3 (by decide)).trans (by decide)⟩

end Dmos.Proofs.Copies
