import Dmos.Mmio

namespace Dmos.Proofs.MmioAccess

open Dmos.Lib

variable {hsr : BitVec 32} {gpa : Word} {ctx : TrapFrame} {dev : Device}

/-- The bytes that the trapped instruction moves. -/
def accessSize (hsr : BitVec 32) : Nat := 2 ^ (Hsr.size.get hsr).toNat

def signed (hsr : BitVec 32) : Bool := Hsr.sign.get hsr = 1

/-- What a load leaves in its register: the bytes at the address, zero- or
sign-extended. -/
def loaded (hsr : BitVec 32) (gpa : Word) (dev : Device) : Word :=
  let dat := Bytes.load dev gpa (accessSize hsr)
  if signed hsr then (dat.setWidth (8 * accessSize hsr)).signExtend 64 else dat

/-- The frame after the trapped instruction. -/
def frameAfter (hsr : BitVec 32) (gpa : Word) (ctx : TrapFrame) (dev : Device) : TrapFrame :=
  if Hsr.write.get hsr = 1 ∨ frameSlot hsr = 31 then ctx
  else Function.update ctx (frameSlot hsr) (loaded hsr gpa dev)

/-- The bytes that the trapped instruction stores. -/
def storesOf (hsr : BitVec 32) (gpa : Word) (ctx : TrapFrame) : List (Word × BitVec 8) :=
  if Hsr.write.get hsr = 1 then Bytes.stores gpa (accessSize hsr) (trappedReg hsr ctx) else []

/-- `handle_mmio` does to the frame and to the device what the instruction does. -/
structure Emulated (hsr : BitVec 32) (gpa : Word) (ctx : TrapFrame) (dev : Device) : Prop where
  frame : (handleMmio hsr gpa ctx dev).1 = frameAfter hsr gpa ctx dev
  stores : handleMmioStores hsr gpa ctx = storesOf hsr gpa ctx
  device : (handleMmio hsr gpa ctx dev).2 = Bytes.perform dev (storesOf hsr gpa ctx)

theorem read64_eq (dev : Device) (gpa : Word) : dev.read64 gpa = Bytes.load dev gpa 8 := rfl

/-- The stores are all that happens to the device. -/
theorem handleMmio_device (hsr : BitVec 32) (gpa : Word) (ctx : TrapFrame) (dev : Device) :
    (handleMmio hsr gpa ctx dev).2 = Bytes.perform dev (handleMmioStores hsr gpa ctx) := by
  unfold handleMmio handleMmioStores
  dsimp only
  by_cases hw : Hsr.write.get hsr = 1
  · by_cases hr : frameSlot hsr ≠ 30
    · rw [if_pos hw, if_pos hr, if_pos ⟨hw, hr⟩]
      funext b
      rw [Bytes.perform_stores _ _ (by decide)]
      rfl
    · rw [if_pos hw, if_neg hr, if_neg (fun h => hr h.2)]
      rfl
  · have hn : ¬ (Hsr.write.get hsr = 1 ∧ frameSlot hsr ≠ 30) := fun h => hw h.1
    rw [if_neg hw, if_neg hn]
    split <;> rfl

theorem accessSize_cases (hsr : BitVec 32) : accessSize hsr = 1 ∨ accessSize hsr = 2 ∨
    accessSize hsr = 4 ∨ accessSize hsr = 8 := by
  have hlt : (Hsr.size.get hsr).toNat < 4 := (Hsr.size.get hsr).isLt
  unfold accessSize
  generalize (Hsr.size.get hsr).toNat = k at hlt
  have hk : k = 0 ∨ k = 1 ∨ k = 2 ∨ k = 3 := by omega
  rcases hk with rfl | rfl | rfl | rfl <;> decide

/-- The byte that the extension puts above the bytes of the access. -/
def fill (hsr : BitVec 32) (gpa : Word) (dev : Device) : BitVec 8 :=
  if signed hsr && (dev (gpa + BitVec.ofNat 64 (accessSize hsr - 1))).msb then BitVec.allOnes 8 else 0

theorem getLsbD_fill {j : Nat} (hj : j < 8) : (fill hsr gpa dev).getLsbD j =
    (signed hsr && (dev (gpa + BitVec.ofNat 64 (accessSize hsr - 1))).msb) := by
  unfold fill
  cases signed hsr && (dev (gpa + BitVec.ofNat 64 (accessSize hsr - 1))).msb with
  | false => simp
  | true =>
    rw [if_pos rfl, BitVec.getLsbD_allOnes]
    exact decide_eq_true hj

theorem getLsbD_loaded {k : Nat} (hk : k < 64) : (loaded hsr gpa dev).getLsbD k =
    if k < 8 * accessSize hsr then (dev (gpa + BitVec.ofNat 64 (k / 8))).getLsbD (k % 8)
    else (fill hsr gpa dev).getLsbD (k % 8) := by
  have hn : accessSize hsr ≤ 8 ∧ 0 < accessSize hsr := by
    have h := accessSize_cases hsr
    omega
  rw [getLsbD_fill (Nat.mod_lt _ (by decide))]
  unfold loaded
  dsimp only
  split
  · rename_i hs
    -- the sign is bit 7 of the last byte of the access
    have hmsb : ((Bytes.load dev gpa (accessSize hsr)).setWidth (8 * accessSize hsr)).msb =
        (dev (gpa + BitVec.ofNat 64 (accessSize hsr - 1))).msb := by
      rw [BitVec.msb_eq_getLsbD_last, BitVec.msb_eq_getLsbD_last, BitVec.getLsbD_setWidth,
        Bytes.getLsbD_load _ _ hn.1]
      have hdiv : (8 * accessSize hsr - 1) / 8 = accessSize hsr - 1 := by omega
      have hmod : (8 * accessSize hsr - 1) % 8 = 7 := by omega
      have hlt : 8 * accessSize hsr - 1 < 8 * accessSize hsr := by omega
      simp [hdiv, hmod, hlt]
    rw [BitVec.getLsbD_signExtend, hmsb]
    simp only [hk, hs, decide_true, Bool.true_and]
    split
    · rename_i hlt
      rw [BitVec.getLsbD_setWidth, Bytes.getLsbD_load _ _ hn.1]
      simp [hlt]
    · rfl
  · rename_i hs
    rw [Bytes.getLsbD_load _ _ hn.1]
    split
    · rename_i hlt
      simp [hlt]
    · rename_i hge
      simp [hge, hs]

/-- The doubleword at the address is the extended value when the bytes after the
access are those of the extension. -/
theorem read64_eq_loaded : dev.read64 gpa = loaded hsr gpa dev ↔
    ∀ i, accessSize hsr ≤ i → i < 8 → dev (gpa + BitVec.ofNat 64 i) = fill hsr gpa dev := by
  constructor
  · intro h i hi hi8
    apply BitVec.eq_of_getLsbD_eq
    intro j hj
    have hbit := congrArg (fun w => w.getLsbD (8 * i + j)) h
    have hdiv : (8 * i + j) / 8 = i := by omega
    have hmod : (8 * i + j) % 8 = j := by omega
    rw [read64_eq, Bytes.getLsbD_load _ _ (Nat.le_refl 8), getLsbD_loaded (by omega), hdiv, hmod,
      if_neg (by omega)] at hbit
    have hlt : 8 * i + j < 8 * 8 := by omega
    simpa [hlt] using hbit
  · intro h
    apply BitVec.eq_of_getLsbD_eq
    intro k hk
    have hlt : k < 8 * 8 := hk
    rw [read64_eq, Bytes.getLsbD_load _ _ (Nat.le_refl 8), getLsbD_loaded hk]
    simp only [hlt, decide_true, Bool.true_and]
    split
    · rfl
    · rw [h (k / 8) (by omega) (by omega)]

theorem accessSize_eq_eight : accessSize hsr = 8 ↔ Hsr.size.get hsr = 3 := by
  have hlt : (Hsr.size.get hsr).toNat < 4 := (Hsr.size.get hsr).isLt
  rw [accessSize, ← BitVec.toNat_inj]
  generalize (Hsr.size.get hsr).toNat = k at hlt
  have hk : k = 0 ∨ k = 1 ∨ k = 2 ∨ k = 3 := by omega
  rcases hk with rfl | rfl | rfl | rfl <;> decide

/-- Where eight bytes to or from the doubleword `reg` of the frame are what the
instruction means. -/
def Fits (hsr : BitVec 32) (gpa : Word) (ctx : TrapFrame) (dev : Device) : Prop :=
  if Hsr.write.get hsr = 1 then
    Hsr.size.get hsr = 3 ∧ frameSlot hsr ≠ 30 ∧ (frameSlot hsr = 31 → ctx.usp = 0)
  else if frameSlot hsr = 30 then ctx 30 = loaded hsr gpa dev
  else if frameSlot hsr = 31 then ctx.usp = dev.read64 gpa
  else ∀ i, accessSize hsr ≤ i → i < 8 → dev (gpa + BitVec.ofNat 64 i) = fill hsr gpa dev

theorem write_stores_iff (hw : Hsr.write.get hsr = 1) :
    handleMmioStores hsr gpa ctx = storesOf hsr gpa ctx ↔
      Hsr.size.get hsr = 3 ∧ frameSlot hsr ≠ 30 ∧ (frameSlot hsr = 31 → ctx.usp = 0) := by
  rw [← accessSize_eq_eight, handleMmioStores, storesOf, if_pos hw]
  by_cases h30 : frameSlot hsr = 30
  · -- nothing is stored from `x30`, though the instruction stores at least a byte
    rw [if_neg (fun h => h.2 h30)]
    refine iff_of_false ?_ (fun h => h.2.1 h30)
    intro h
    have hlen := congrArg List.length h
    rw [Bytes.length_stores] at hlen
    have hsize := accessSize_cases hsr
    simp only [List.length_nil] at hlen
    omega
  · rw [if_pos ⟨hw, h30⟩, trappedReg]
    constructor
    · intro h
      have hlen := congrArg List.length h
      rw [Bytes.length_stores, Bytes.length_stores] at hlen
      refine ⟨hlen.symm, h30, fun h31 => ?_⟩
      rw [if_pos h31, ← hlen, h31] at h
      exact Bytes.eq_of_stores_eq h
    · rintro ⟨h8, -, husp⟩
      rw [h8]
      by_cases h31 : frameSlot hsr = 31
      · rw [if_pos h31, h31]
        exact congrArg _ (husp h31)
      · rw [if_neg h31]

theorem read_frame_iff (hw : ¬ Hsr.write.get hsr = 1) :
    (handleMmio hsr gpa ctx dev).1 = frameAfter hsr gpa ctx dev ↔ Fits hsr gpa ctx dev := by
  rw [handleMmio, if_neg hw, frameAfter, Fits, if_neg hw]
  by_cases h30 : frameSlot hsr = 30
  · have h31 : ¬ (Hsr.write.get hsr = 1 ∨ frameSlot hsr = 31) := by
      rw [h30]
      exact fun h => h.elim hw (by decide)
    rw [if_neg (not_not.mpr h30), if_neg h31, if_pos h30, h30, eq_comm,
      Function.update_eq_self_iff]
    exact eq_comm
  · rw [if_pos h30, if_neg h30]
    by_cases h31 : frameSlot hsr = 31
    · rw [if_pos (.inr h31), if_pos h31, h31, Function.update_eq_self_iff]
      exact eq_comm
    · rw [if_neg (fun h => h.elim hw h31), if_neg h31, ← read64_eq_loaded]
      exact (Function.update_injective ctx (frameSlot hsr)).eq_iff

/-- The emulated access is the trapped one exactly when it fits a doubleword: a
doubleword store not from `x30`, and a load after whose bytes the device holds those
of the extension. -/
theorem mmio_emulated_iff (hsr : BitVec 32) (gpa : Word) (ctx : TrapFrame) (dev : Device) :
    Emulated hsr gpa ctx dev ↔ Fits hsr gpa ctx dev := by
  by_cases hw : Hsr.write.get hsr = 1
  · have hfits : Fits hsr gpa ctx dev ↔ handleMmioStores hsr gpa ctx = storesOf hsr gpa ctx := by
      rw [Fits, if_pos hw, write_stores_iff hw]
    have hframe : (handleMmio hsr gpa ctx dev).1 = frameAfter hsr gpa ctx dev := by
      have hkeep : Hsr.write.get hsr = 1 ∨ frameSlot hsr = 31 := .inl hw
      rw [frameAfter, if_pos hkeep, handleMmio, if_pos hw]
      split <;> rfl
    rw [hfits]
    exact ⟨Emulated.stores, fun h => ⟨hframe, h, by rw [handleMmio_device, h]⟩⟩
  · have hstores : handleMmioStores hsr gpa ctx = storesOf hsr gpa ctx := by
      rw [handleMmioStores, if_neg (fun h => hw h.1), storesOf, if_neg hw]
    rw [← read_frame_iff hw]
    exact ⟨Emulated.frame, fun h => ⟨h, hstores, by rw [handleMmio_device, hstores]⟩⟩

/-- `str w1, [GICV_PMR]` also overwrites the binary point register after it. -/
theorem word_store_overruns :
    ¬ Emulated 0x93810047 0x8040004 (fun _ => 0xf0) (fun _ => 0) := by
  intro h
  exact absurd (congrArg List.length h.stores) (by decide)

end Dmos.Proofs.MmioAccess
