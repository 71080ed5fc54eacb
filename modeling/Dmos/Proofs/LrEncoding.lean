import Mathlib.Tactic.IntervalCases
import Dmos.Lib.BitField
import Dmos.Gic

namespace Dmos.Proofs.LrEncoding
open Gic Lib

/-- What the two decoders and the single bits read from a list register: the
virtual id, the priority, the hardware bit, the pending state and the group. -/
structure Decodes (w v pri : BitVec 32) (grp1 hw : Bool) : Prop where
  vid : gicLrReadVid w = v
  priority : gicLrReadPri w = pri &&& 0xf8#32
  hardware : w.getLsbD 31 = hw
  pending : Field.get ⟨28, 2⟩ w = 1#2
  group : w.getLsbD 30 = grp1

/-- The layout the three encoders share: bits 18:10 hold the physical id of a
hardware interrupt or the requesting core of a software one. -/
def lrWord (hw : Bool) (v mid pri : BitVec 32) (grp1 : Bool) : BitVec 32 :=
  ((BitVec.ofBool hw).setWidth 32 <<< 31) ||| (1#32 <<< 28) |||
    (((pri &&& 0xf8#32) <<< 20) ||| (v &&& 0x1ff#32) ||| ((mid &&& 0x1ff#32) <<< 10) |||
      ((BitVec.ofBool grp1).setWidth 32 <<< 30))

section Layout

variable (hw : Bool) (v mid pri : BitVec 32) (grp1 : Bool)

theorem lrWord_vid : gicLrReadVid (lrWord hw v mid pri grp1) = v &&& 0x1ff#32 := by
  unfold gicLrReadVid lrWord
  apply BitVec.eq_of_getLsbD_eq
  intro i hi
  interval_cases i <;> simp

theorem lrWord_pri : gicLrReadPri (lrWord hw v mid pri grp1) = pri &&& 0xf8#32 := by
  unfold gicLrReadPri lrWord
  apply BitVec.eq_of_getLsbD_eq
  intro i hi
  interval_cases i <;> simp

theorem lrWord_mid : (lrWord hw v mid pri grp1 >>> 10) &&& 0x1ff#32 = mid &&& 0x1ff#32 := by
  unfold lrWord
  apply BitVec.eq_of_getLsbD_eq
  intro i hi
  interval_cases i <;> simp

theorem lrWord_hardware : (lrWord hw v mid pri grp1).getLsbD 31 = hw := by
  simp [lrWord]

theorem lrWord_group : (lrWord hw v mid pri grp1).getLsbD 30 = grp1 := by
  simp [lrWord]

theorem lrWord_pending : Field.get ⟨28, 2⟩ (lrWord hw v mid pri grp1) = 1#2 := by
  apply BitVec.eq_of_getLsbD_eq
  intro i hi
  change i < 2 at hi
  rw [Field.getLsbD_get]
  interval_cases i <;> simp [lrWord]

theorem hardwareInterrupt_eq :
    gicMakeVirtualHardwareInterrupt v mid pri grp1 = lrWord true v mid pri grp1 := rfl

theorem softwareInterrupt_eq :
    gicMakeVirtualSoftwareInterrupt v pri grp1 = lrWord false v 0 pri grp1 := by
  simp [gicMakeVirtualSoftwareInterrupt, lrWord]

end Layout

theorem toNat_and_mask (v : BitVec 32) : (v &&& 0x1ff#32).toNat = v.toNat % 512 := by
  rw [BitVec.toNat_and]
  exact Nat.and_two_pow_sub_one_eq_mod v.toNat 9

theorem and_mask_eq_self_iff (v : BitVec 32) : v &&& 0x1ff#32 = v ↔ v.toNat < 512 := by
  rw [← BitVec.toNat_inj, toNat_and_mask]
  omega

theorem and_mask_eq_iff (v v' : BitVec 32) :
    v &&& 0x1ff#32 = v' &&& 0x1ff#32 ↔ v.toNat % 512 = v'.toNat % 512 := by
  rw [← BitVec.toNat_inj, toNat_and_mask, toNat_and_mask]

/-- A core number fits the middle field, so the missing mask costs nothing. -/
theorem softwareSgi_eq (v cpuId pri : BitVec 32) (grp1 : Bool) (hc : cpuId.toNat < 8) :
    gicMakeVirtualSoftwareSgi v cpuId pri grp1 = lrWord false v cpuId pri grp1 := by
  have hmid : cpuId &&& 0x1ff#32 = cpuId := (and_mask_eq_self_iff cpuId).mpr (by omega)
  have htop : (BitVec.ofBool false).setWidth 32 <<< 31 ||| (1#32 <<< 28) = 0x10000000#32 := rfl
  have hswap : ∀ a b c : BitVec 32, a ||| b ||| c = a ||| c ||| b := fun a b c => by
    rw [BitVec.or_assoc, BitVec.or_comm b, ← BitVec.or_assoc]
  rw [lrWord, hmid, htop, gicMakeVirtualSoftwareSgi, hswap _ _ (cpuId <<< 10)]

theorem decodes_lrWord_iff (hw : Bool) (v mid pri : BitVec 32) (grp1 : Bool) :
    Decodes (lrWord hw v mid pri grp1) v pri grp1 hw ↔ v.toNat < 512 := by
  rw [← and_mask_eq_self_iff]
  constructor
  · intro h
    rw [← lrWord_vid hw v mid pri grp1]
    exact h.vid
  · intro hv
    exact ⟨(lrWord_vid hw v mid pri grp1).trans hv, lrWord_pri hw v mid pri grp1,
      lrWord_hardware hw v mid pri grp1, lrWord_pending hw v mid pri grp1,
      lrWord_group hw v mid pri grp1⟩

/-- The arguments of one encoding, as `vgic_inject` passes them. -/
structure Request where
  vector : BitVec 32
  pintvec : BitVec 32
  pri : BitVec 32
  grp1 : Bool

namespace Request

/-- Both ids are below the number of interrupts of the distributor. -/
def Admitted (typer : BitVec 32) (r : Request) : Prop :=
  r.vector < irqNr typer ∧ r.pintvec < irqNr typer

def hardwareWord (r : Request) : BitVec 32 :=
  gicMakeVirtualHardwareInterrupt r.vector r.pintvec r.pri r.grp1

/-- Every encoder's word is read back as it was asked for. -/
def Faithful (r : Request) (cpuId : BitVec 32) : Prop :=
  Decodes r.hardwareWord r.vector r.pri r.grp1 true ∧
  Decodes (gicMakeVirtualSoftwareInterrupt r.vector r.pri r.grp1) r.vector r.pri r.grp1 false ∧
  Decodes (gicMakeVirtualSoftwareSgi r.vector cpuId r.pri r.grp1) r.vector r.pri r.grp1 false

/-- Equal hardware words come from equal requests. -/
def Separated (r r' : Request) : Prop :=
  r.hardwareWord = r'.hardwareWord → r.vector = r'.vector ∧ r.pintvec = r'.pintvec ∧
    r.pri &&& 0xf8#32 = r'.pri &&& 0xf8#32 ∧ r.grp1 = r'.grp1

/-- The requests differ in the physical id only, and there by a multiple of 512. -/
def Aliased (r r' : Request) : Prop :=
  r.vector = r'.vector ∧ r.pri &&& 0xf8#32 = r'.pri &&& 0xf8#32 ∧ r.grp1 = r'.grp1 ∧
    r.pintvec ≠ r'.pintvec ∧ r.pintvec.toNat % 512 = r'.pintvec.toNat % 512

end Request

variable {r r' : Request} {cpuId : BitVec 32}

theorem faithful_iff (hc : cpuId.toNat < 8) : r.Faithful cpuId ↔ r.vector.toNat < 512 := by
  rw [Request.Faithful, Request.hardwareWord, hardwareInterrupt_eq, softwareInterrupt_eq,
    softwareSgi_eq r.vector cpuId r.pri r.grp1 hc, decodes_lrWord_iff, decodes_lrWord_iff,
    decodes_lrWord_iff, and_self, and_self]

theorem hardwareWord_eq_iff : r.hardwareWord = r'.hardwareWord ↔
    r.vector.toNat % 512 = r'.vector.toNat % 512 ∧ r.pintvec.toNat % 512 = r'.pintvec.toNat % 512 ∧
      r.pri &&& 0xf8#32 = r'.pri &&& 0xf8#32 ∧ r.grp1 = r'.grp1 := by
  rw [← and_mask_eq_iff, ← and_mask_eq_iff, Request.hardwareWord, Request.hardwareWord,
    hardwareInterrupt_eq, hardwareInterrupt_eq]
  constructor
  · intro h
    refine ⟨?_, ?_, ?_, ?_⟩
    · rw [← lrWord_vid true r.vector r.pintvec r.pri r.grp1, h, lrWord_vid]
    · rw [← lrWord_mid true r.vector r.pintvec r.pri r.grp1, h, lrWord_mid]
    · rw [← lrWord_pri true r.vector r.pintvec r.pri r.grp1, h, lrWord_pri]
    · rw [← lrWord_group true r.vector r.pintvec r.pri r.grp1, h, lrWord_group]
  · rintro ⟨hv, hp, hpri, hg⟩
    rw [lrWord, lrWord, hv, hp, hpri, hg]

/-- Below 512 the virtual ids are told apart, and only the physical ids can collide. -/
theorem separated_iff (hv : r.vector.toNat < 512) (hv' : r'.vector.toNat < 512) :
    r.Separated r' ↔ ¬ r.Aliased r' := by
  have hvec : r.vector.toNat % 512 = r'.vector.toNat % 512 ↔ r.vector = r'.vector := by
    rw [Nat.mod_eq_of_lt hv, Nat.mod_eq_of_lt hv', BitVec.toNat_inj]
  rw [Request.Separated, hardwareWord_eq_iff, hvec]
  constructor
  · rintro h ⟨hv, hpri, hg, hne, hp⟩
    exact hne (h ⟨hv, hp, hpri, hg⟩).2.1
  · rintro h ⟨hv, hp, hpri, hg⟩
    refine ⟨hv, ?_, hpri, hg⟩
    by_contra hne
    exact h ⟨hv, hpri, hg, hne, hp⟩

theorem faithful_separated_iff {cpuId' : BitVec 32} (hc : cpuId.toNat < 8) (hc' : cpuId'.toNat < 8) :
    (r.Faithful cpuId ∧ r'.Faithful cpuId' ∧ r.Separated r') ↔
      (r.vector.toNat < 512 ∧ r'.vector.toNat < 512 ∧ ¬ r.Aliased r') := by
  rw [faithful_iff hc, faithful_iff hc']
  constructor
  · rintro ⟨hv, hv', hs⟩
    exact ⟨hv, hv', (separated_iff hv hv').mp hs⟩
  · rintro ⟨hv, hv', ha⟩
    exact ⟨hv, hv', (separated_iff hv hv').mpr ha⟩

theorem Request.Admitted.lt {typer : BitVec 32} (h : r.Admitted typer) (hn : (irqNr typer).toNat ≤ 512) :
    r.vector.toNat < 512 ∧ r.pintvec.toNat < 512 :=
  ⟨Nat.lt_of_lt_of_le h.1 hn, Nat.lt_of_lt_of_le h.2 hn⟩

theorem not_aliased_of_lt (hp : r.pintvec.toNat < 512) (hp' : r'.pintvec.toNat < 512) :
    ¬ r.Aliased r' := by
  rintro ⟨_, _, _, hne, hmod⟩
  rw [Nat.mod_eq_of_lt hp, Nat.mod_eq_of_lt hp', BitVec.toNat_inj] at hmod
  exact hne hmod

/-- The encoders keep nine bits of each id. A pair of requests is encoded
faithfully exactly when the virtual ids fit these and the physical ids do not
collide in them, and every pair a distributor admits is, exactly when it has at
most 512 interrupts. -/
theorem encoding_faithful_iff (typer : BitVec 32) :
    (∀ (r r' : Request) (cpuId cpuId' : BitVec 32), r.Admitted typer → r'.Admitted typer →
      cpuId.toNat < 8 → cpuId'.toNat < 8 →
      ((r.Faithful cpuId ∧ r'.Faithful cpuId' ∧ r.Separated r') ↔
        (r.vector.toNat < 512 ∧ r'.vector.toNat < 512 ∧ ¬ r.Aliased r'))) ∧
    ((∀ (r r' : Request) (cpuId cpuId' : BitVec 32), r.Admitted typer → r'.Admitted typer →
      cpuId.toNat < 8 → cpuId'.toNat < 8 →
      r.Faithful cpuId ∧ r'.Faithful cpuId' ∧ r.Separated r') ↔ (irqNr typer).toNat ≤ 512) := by
  refine ⟨fun r r' _ _ _ _ hc hc' => faithful_separated_iff hc hc', ?_⟩
  constructor
  · intro h
    by_contra hn
    -- 512 is an id of such a distributor, and the first that loses a bit
    have hlt : (512#32).toNat < (irqNr typer).toNat := Nat.lt_of_not_le hn
    have hadm : (⟨512#32, 512#32, 0, false⟩ : Request).Admitted typer := ⟨hlt, hlt⟩
    have hf := (h _ _ 0 0 hadm hadm (by decide) (by decide)).1
    exact absurd ((faithful_iff (by decide)).mp hf) (by decide)
  · intro hn r r' cpuId cpuId' ha ha' hc hc'
    have hr := ha.lt hn
    have hr' := ha'.lt hn
    exact (faithful_separated_iff hc hc').mpr
      ⟨hr.1, hr'.1, not_aliased_of_lt hr.2 hr'.2⟩

theorem encoding_faithful_spi :
    (⟨33#32, 33#32, 0, false⟩ : Request).Faithful 0 ∧
      (⟨33#32, 33#32, 0, false⟩ : Request).Separated ⟨27#32, 27#32, 0, false⟩ := by
  have h := ((encoding_faithful_iff 0x1f#32).1 ⟨33#32, 33#32, 0, false⟩ ⟨27#32, 27#32, 0, false⟩
    0 0 ⟨by decide, by decide⟩ ⟨by decide, by decide⟩ (by decide) (by decide)).mpr
    ⟨by decide, by decide, not_aliased_of_lt (by decide) (by decide)⟩
  exact ⟨h.1, h.2.2⟩

/-- Interrupt 600 of a distributor with 1020 is read back as 88. -/
theorem vector_600_truncated :
    (⟨600#32, 600#32, 0, false⟩ : Request).Admitted 0x1f#32 ∧
    gicLrReadVid (⟨600#32, 600#32, 0, false⟩ : Request).hardwareWord = 88#32 ∧
    ¬ (⟨600#32, 600#32, 0, false⟩ : Request).Faithful 0 := by
  refine ⟨⟨by decide, by decide⟩, by decide, ?_⟩
  intro h
  exact absurd h.1.vid (by decide)

end Dmos.Proofs.LrEncoding
