import Dmos.Lib.Stride
import Dmos.Cache

namespace Dmos.Proofs.CacheRange
open Cache Lib Lib.Stride

variable {step p e size ctrEl0 : Word} {fuel : Nat} {ops : List Word}

/-- No value of the cursor, up to the first at or past the end, passes the end of
the address space. -/
def CursorFits (step p e : Word) : Prop :=
  ∀ k, p.toNat + k * step.toNat < e.toNat + step.toNat → p.toNat + k * step.toNat < 2 ^ 64

theorem CursorFits.next (h : CursorFits step p e) (hp : p < e) :
    (p + step).toNat = p.toNat + step.toNat := by
  have hlt : p.toNat < e.toNat := hp
  have hfit := h 1 (by omega)
  rw [BitVec.toNat_add]
  exact Nat.mod_eq_of_lt (by omega)

theorem CursorFits.advance (h : CursorFits step p e) (hp : p < e) : CursorFits step (p + step) e := by
  intro k hk
  rw [h.next hp] at hk ⊢
  have hmul : (k + 1) * step.toNat = k * step.toNat + step.toNat := Nat.succ_mul k step.toNat
  have hfit := h (k + 1) (by omega)
  omega

/-- The loop ends when the step is not zero. -/
theorem cleanLoop_isSome (hs : 0 < step.toNat) (h : CursorFits step p e)
    (hf : e.toNat - p.toNat < fuel) : ∃ ops, cleanLoop fuel step p e = some ops := by
  induction fuel generalizing p with
  | zero => omega
  | succ fuel ih =>
    by_cases hp : p < e
    · have hnext := h.next hp
      have hlt : p.toNat < e.toNat := hp
      obtain ⟨ops, hops⟩ := ih (h.advance hp) (by omega)
      exact ⟨p :: ops, by rw [cleanLoop, if_pos hp, hops]; rfl⟩
    · exact ⟨[], by rw [cleanLoop, if_neg hp]⟩

/-- With a step of zero it never does. -/
theorem cleanLoop_zero (hp : p < e) (fuel : Nat) : cleanLoop fuel 0 p e = none := by
  induction fuel with
  | zero => rfl
  | succ fuel ih => rw [cleanLoop, if_pos hp, show p + 0 = p from BitVec.add_zero p, ih]; rfl

/-- The addresses the loop maintains. -/
theorem mem_cleanLoop (h : CursorFits step p e) (hrun : cleanLoop fuel step p e = some ops)
    (a : Word) : a ∈ ops ↔ ∃ k, p.toNat + k * step.toNat < e.toNat ∧
      a.toNat = p.toNat + k * step.toNat := by
  induction fuel generalizing p ops with
  | zero => cases hrun
  | succ fuel ih =>
    rw [cleanLoop] at hrun
    split at hrun
    case isFalse hp =>
      cases hrun
      have hle : e.toNat ≤ p.toNat := Nat.le_of_not_lt hp
      constructor
      · intro ha
        cases ha
      · rintro ⟨k, hk, _⟩
        omega
    case isTrue hp =>
      obtain ⟨ops', hops, rfl⟩ := Option.map_eq_some_iff.mp hrun
      have hrest := ih (h.advance hp) hops
      rw [h.next hp] at hrest
      have hlt : p.toNat < e.toNat := hp
      rw [List.mem_cons, hrest]
      constructor
      · rintro (rfl | ⟨k, hk, ha⟩)
        · exact ⟨0, by omega, by omega⟩
        · exact ⟨k + 1, by rw [Nat.succ_mul]; omega, by rw [Nat.succ_mul]; omega⟩
      · rintro ⟨k, hk, ha⟩
        cases k with
        | zero => exact .inl (BitVec.eq_of_toNat_eq (by omega))
        | succ k =>
          rw [Nat.succ_mul] at hk ha
          exact .inr ⟨k, by omega, by omega⟩

/-- The range ends inside the address space, and so does the cursor of the loop. -/
structure NoWrap (step p size : Word) : Prop where
  range : p.toNat + size.toNat < 2 ^ 64
  cursor : ∀ k, k * step.toNat < size.toNat + step.toNat → p.toNat + k * step.toNat < 2 ^ 64

theorem NoWrap.toNat_end (h : NoWrap step p size) : (p + size).toNat = p.toNat + size.toNat := by
  rw [BitVec.toNat_add]
  exact Nat.mod_eq_of_lt h.range

theorem NoWrap.cursorFits (h : NoWrap step p size) : CursorFits step p (p + size) := by
  intro k hk
  rw [h.toNat_end] at hk
  exact h.cursor k (by omega)

/-- The loop returns, and every byte of the range shares its data cache line with an
address it maintained. -/
def Cleaned (ctrEl0 p size : Word) : Prop :=
  ∃ fuel ops, cleanAndInvalidateDcacheVaRange fuel (setupCache ctrEl0) p size = some ops ∧
    ∀ a : Word, p.toNat ≤ a.toNat → a.toNat < p.toNat + size.toNat →
      ∃ o ∈ ops, o.toNat / lineBytes ctrEl0 = a.toNat / lineBytes ctrEl0

theorem lineBytes_pos (ctrEl0 : Word) : 0 < lineBytes ctrEl0 := by
  rw [lineBytes, Nat.shiftLeft_eq]
  exact Nat.mul_pos (by decide) (Nat.two_pow_pos _)

theorem add_div_eq (p x L : Nat) (hL : 0 < L) : (p + x) / L = p / L + (p % L + x) / L := by
  have hp : L * (p / L) + p % L = p := Nat.div_add_mod p L
  rw [show p + x = p % L + x + L * (p / L) by omega, Nat.add_mul_div_left _ _ hL, Nat.add_comm]

theorem cleaned_of_size_zero (ctrEl0 p : Word) : Cleaned ctrEl0 p 0 := by
  refine ⟨1, [], ?_, ?_⟩
  · simp [cleanAndInvalidateDcacheVaRange, cleanLoop]
  · intro a ha ha'
    simp at ha'
    omega

theorem not_cleaned_of_step_zero (hs : setupCache ctrEl0 = 0)
    (h : NoWrap (setupCache ctrEl0) p size) (hsize : size ≠ 0) : ¬ Cleaned ctrEl0 p size := by
  rintro ⟨fuel, ops, hrun, _⟩
  have hpos : 0 < size.toNat := Nat.pos_of_ne_zero fun h0 => hsize (BitVec.eq_of_toNat_eq h0)
  have hp : p < p + size := by
    rw [BitVec.lt_def, h.toNat_end]
    omega
  rw [cleanAndInvalidateDcacheVaRange, hs, cleanLoop_zero hp] at hrun
  cases hrun

/-- Coverage of the range is coverage of its lines by the stride of the loop. -/
theorem cleaned_iff_covers (hs : 0 < (setupCache ctrEl0).toNat)
    (h : NoWrap (setupCache ctrEl0) p size) :
    Cleaned ctrEl0 p size ↔ Covers (lineBytes ctrEl0) (setupCache ctrEl0).toNat
      (p.toNat % lineBytes ctrEl0) size.toNat := by
  have hL := lineBytes_pos ctrEl0
  have hmem : ∀ {fuel ops}, cleanAndInvalidateDcacheVaRange fuel (setupCache ctrEl0) p size = some ops →
      ∀ o, o ∈ ops ↔ ∃ k, p.toNat + k * (setupCache ctrEl0).toNat < (p + size).toNat ∧
        o.toNat = p.toNat + k * (setupCache ctrEl0).toNat := fun hrun o =>
    mem_cleanLoop h.cursorFits hrun o
  rw [h.toNat_end] at hmem
  have hrange := h.range
  constructor
  · rintro ⟨fuel, ops, hrun, hcover⟩ d hd
    have ha : (BitVec.ofNat 64 (p.toNat + d)).toNat = p.toNat + d := by
      rw [BitVec.toNat_ofNat]
      exact Nat.mod_eq_of_lt (by omega)
    obtain ⟨o, ho, hline⟩ := hcover (BitVec.ofNat 64 (p.toNat + d)) (by omega) (by omega)
    obtain ⟨k, hk, hok⟩ := (hmem hrun o).mp ho
    refine ⟨k, by omega, ?_⟩
    rw [ha, hok, add_div_eq _ _ _ hL, add_div_eq _ d _ hL] at hline
    omega
  · intro hcover
    obtain ⟨ops, hrun⟩ := cleanLoop_isSome hs h.cursorFits (Nat.lt_succ_self _)
    refine ⟨_, ops, hrun, ?_⟩
    intro a hpa hae
    obtain ⟨k, hk, hline⟩ := hcover (a.toNat - p.toNat) (by omega)
    have ho : (BitVec.ofNat 64 (p.toNat + k * (setupCache ctrEl0).toNat)).toNat =
        p.toNat + k * (setupCache ctrEl0).toNat := by
      rw [BitVec.toNat_ofNat]
      exact Nat.mod_eq_of_lt (by omega)
    refine ⟨_, (hmem hrun _).mpr ⟨k, by omega, ho⟩, ?_⟩
    rw [ho, add_div_eq _ _ _ hL, hline, ← add_div_eq _ _ _ hL]
    congr 1
    omega

/-- The lines of the addresses, in terms of the addresses themselves. -/
theorem covers_iff_lines {L s p n : Nat} (hL : 0 < L) (hs : 0 < s) (hn : 0 < n) :
    Covers L s (p % L) n ↔ (p + last s n * s) / L = (p + n - 1) / L ∧
      (s ≤ L ∨ p % L + ((p + n - 1) / L - p / L) * (s - L) < L) := by
  have hlast := add_div_eq p (last s n * s) L hL
  have hend := add_div_eq p (n - 1) L hL
  have hsub : (p + n - 1) / L - p / L = (p % L + n - 1) / L := by
    rw [show p + n - 1 = p + (n - 1) by omega, hend, Nat.add_sub_cancel_left,
      show p % L + (n - 1) = p % L + n - 1 by omega]
  rw [covers_iff (Nat.mod_lt p hL) hs hn, hsub]
  rw [show p + (n - 1) = p + n - 1 by omega, show p % L + (n - 1) = p % L + n - 1 by omega] at hend
  rw [hlast, hend, Nat.add_left_cancel_iff]

/-- The exact condition on a range: the step is not zero, the last maintained address
is in the line of the last byte, and the step is no longer than a line or drifts by
less than one over the range. -/
theorem cleaned_iff (h : NoWrap (setupCache ctrEl0) p size) :
    Cleaned ctrEl0 p size ↔ size = 0 ∨ setupCache ctrEl0 ≠ 0 ∧
      (p.toNat + last (setupCache ctrEl0).toNat size.toNat * (setupCache ctrEl0).toNat) /
          lineBytes ctrEl0 = (p.toNat + size.toNat - 1) / lineBytes ctrEl0 ∧
      ((setupCache ctrEl0).toNat ≤ lineBytes ctrEl0 ∨
        p.toNat % lineBytes ctrEl0 + ((p.toNat + size.toNat - 1) / lineBytes ctrEl0 -
          p.toNat / lineBytes ctrEl0) * ((setupCache ctrEl0).toNat - lineBytes ctrEl0) <
            lineBytes ctrEl0) := by
  by_cases hsize : size = 0
  · subst hsize
    exact ⟨fun _ => .inl rfl, fun _ => cleaned_of_size_zero ctrEl0 p⟩
  · by_cases hstep : setupCache ctrEl0 = 0
    · have hno := not_cleaned_of_step_zero hstep h hsize
      exact ⟨fun hc => absurd hc hno, fun hc => absurd hstep (hc.resolve_left hsize).1⟩
    · have hs : 0 < (setupCache ctrEl0).toNat :=
        Nat.pos_of_ne_zero fun h0 => hstep (BitVec.eq_of_toNat_eq h0)
      have hn : 0 < size.toNat := Nat.pos_of_ne_zero fun h0 => hsize (BitVec.eq_of_toNat_eq h0)
      rw [cleaned_iff_covers hs h, covers_iff_lines (lineBytes_pos ctrEl0) hs hn]
      constructor
      · exact fun hc => .inr ⟨hstep, hc⟩
      · exact fun hc => (hc.resolve_left hsize).2

/-- A table entry and the page after it, on a processor with lines of 64 bytes. -/
theorem cleaned_entry_page :
    NoWrap (setupCache 0x8444c004) 0x40081238 4096 ∧ Cleaned 0x8444c004 0x40081238 4096 := by
  have hstep : setupCache 0x8444c004 = 4 := by decide
  have hw : NoWrap (setupCache 0x8444c004) 0x40081238 4096 := by
    rw [hstep]
    exact ⟨by decide, fun k hk => by simp at hk ⊢; omega⟩
  exact ⟨hw, (cleaned_iff hw).mpr (.inr ⟨by decide, by decide, .inl (by decide)⟩)⟩

/-- With `IminLine` zero the loop never ends; with a start that is not a multiple of
the step the last line is missed. -/
theorem step_zero_or_line_missed :
    (NoWrap (setupCache 0x8444c000) 0x40081000 4096 ∧ ¬ Cleaned 0x8444c000 0x40081000 4096) ∧
    (NoWrap (setupCache 0x8444c004) 61 4 ∧ ¬ Cleaned 0x8444c004 61 4) := by
  constructor
  · have hstep : setupCache 0x8444c000 = 0 := by decide
    have hw : NoWrap (setupCache 0x8444c000) 0x40081000 4096 := by
      rw [hstep]
      exact ⟨by decide, fun k _ => by simp⟩
    exact ⟨hw, not_cleaned_of_step_zero hstep hw (by decide)⟩
  · have hstep : setupCache 0x8444c004 = 4 := by decide
    have hw : NoWrap (setupCache 0x8444c004) 61 4 := by
      rw [hstep]
      exact ⟨by decide, fun k hk => by simp at hk ⊢; omega⟩
    refine ⟨hw, ?_⟩
    rw [cleaned_iff_covers (by decide) hw, covers_iff_lines (by decide) (by decide) (by decide)]
    intro h
    exact absurd h.1 (by decide)

end Dmos.Proofs.CacheRange
