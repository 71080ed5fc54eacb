import Dmos.Mmio
import Dmos.Proofs.StageTwo

namespace Dmos.Proofs.Routing
open Lib Ept StageTwo

def InGicd (gpa : Word) : Prop := gicdBaseAddr ≤ gpa ∧ gpa < gicdBaseAddr + 0x10000
def InGicc (gpa : Word) : Prop := giccBaseAddr ≤ gpa ∧ gpa < giccBaseAddr + 0x10000

theorem inGicd_iff (gpa : Word) : InGicd gpa ↔ 0x8000000 ≤ gpa.toNat ∧ gpa.toNat < 0x8010000 := by
  have hlo : gicdBaseAddr.toNat = 0x8000000 := rfl
  have hhi : (gicdBaseAddr + 0x10000).toNat = 0x8010000 := rfl
  rw [InGicd, BitVec.le_def, BitVec.lt_def, hlo, hhi]

theorem inGicc_iff (gpa : Word) : InGicc gpa ↔ 0x8010000 ≤ gpa.toNat ∧ gpa.toNat < 0x8020000 := by
  have hlo : giccBaseAddr.toNat = 0x8010000 := rfl
  have hhi : (giccBaseAddr + 0x10000).toNat = 0x8020000 := rfl
  rw [InGicc, BitVec.le_def, BitVec.lt_def, hlo, hhi]

section Revoke

variable {b : Word} {s : State}

theorem toNat_pageNum (gpa : Word) : (gpa >>> 12).toNat = gpa.toNat / 4096 := by
  rw [BitVec.toNat_ushiftRight, Nat.shiftRight_eq_div_pow]

@[simp] theorem revoke_eptL3Root (s : State) (e : Word) : (revoke s e).eptL3Root = s.eptL3Root := rfl

theorem revoke_of_ne {e a : Word} (h : a ≠ e) : (revoke s e).mem a = s.mem a := by
  simp only [revoke, State.store]
  rw [Function.update_of_ne h, Function.update_of_ne h]

/-- Both access bits of the entry are zero afterwards. -/
theorem revoke_self (s : State) (e : Word) :
    P2m.read.get ((revoke s e).mem e) = 0 ∧ P2m.write.get ((revoke s e).mem e) = 0 := by
  simp only [revoke, State.store, Function.update_self]
  refine ⟨?_, Field.get_set_zero _ _ (by decide)⟩
  exact Field.get_set_zero_of_zero _ _ _ (Field.get_set_zero _ _ (by decide))

/-- Two addresses below 4 GiB have one entry when they are in one page. -/
theorem getEptEntry_inj (hb : b.toNat + tableSize ≤ 2 ^ 48) (hs : s.eptL3Root = slot b 2560)
    {x y : Word} (hx : x.toNat < 2 ^ 32) (hy : y.toNat < 2 ^ 32) :
    getEptEntry s x = getEptEntry s y ↔ x.toNat / 4096 = y.toNat / 4096 := by
  unfold getEptEntry
  rw [hs, slot_slot, slot_slot, toNat_pageNum, toNat_pageNum]
  constructor
  · intro h
    by_contra hne
    exact slot_inj hb (by omega) (by omega) (by omega) h
  · intro h
    rw [h]

/-- One iteration takes the page of `a` away and leaves the others. -/
theorem accessible_revoke (hb : b.toNat + tableSize ≤ 2 ^ 48) (hs : s.eptL3Root = slot b 2560)
    {a gpa : Word} (ha : a.toNat < 2 ^ 32) (hg : gpa.toNat < 2 ^ 32) :
    Accessible (revoke s (getEptEntry s a)) gpa ↔
      Accessible s gpa ∧ gpa.toNat / 4096 ≠ a.toNat / 4096 := by
  have hentry : getEptEntry (revoke s (getEptEntry s a)) gpa = getEptEntry s gpa := rfl
  unfold Accessible
  rw [hentry]
  by_cases hp : gpa.toNat / 4096 = a.toNat / 4096
  · have heq := (getEptEntry_inj hb hs hg ha).mpr hp
    obtain ⟨hr, hw⟩ := revoke_self s (getEptEntry s a)
    rw [heq, hr, hw]
    simp [hp, P2m.read, P2m.write]
  · have hne := mt (getEptEntry_inj hb hs hg ha).mp hp
    rw [revoke_of_ne hne]
    simp [hp]

/-- The loop over sixteen pages from `area` on. -/
theorem accessible_mmioMap (hb : b.toNat + tableSize ≤ 2 ^ 48) (hs : s.eptL3Root = slot b 2560)
    (area : Word) (hal : area.toNat % 4096 = 0) (ha : area.toNat + 0x10000 ≤ 2 ^ 32) :
    (mmioMap area s).eptL3Root = slot b 2560 ∧ ∀ gpa : Word, gpa.toNat < 2 ^ 32 →
      (Accessible (mmioMap area s) gpa ↔
        Accessible s gpa ∧ ¬ (area.toNat ≤ gpa.toNat ∧ gpa.toNat < area.toNat + 0x10000)) := by
  have hloop := fold_invariant (I := fun k t => t.eptL3Root = slot b 2560 ∧
    ∀ gpa : Word, gpa.toNat < 2 ^ 32 → (Accessible t gpa ↔
      Accessible s gpa ∧ ¬ (area.toNat ≤ gpa.toNat ∧ gpa.toNat < area.toNat + 0x1000 * k)))
    16 s ⟨hs, fun gpa _ => ?_⟩
    (f := fun i t => revoke t (getEptEntry t (area + 0x1000 * BitVec.ofNat 64 i)))
    (fun i hi t ht => ?_)
  · exact hloop
  · simp
  · obtain ⟨ht, hacc⟩ := ht
    refine ⟨ht, ?_⟩
    intro gpa hg
    have hpage : (area + 0x1000 * BitVec.ofNat 64 i).toNat = area.toNat + 0x1000 * i := by
      rw [BitVec.toNat_add, BitVec.toNat_mul, BitVec.toNat_ofNat]
      have h1000 : (0x1000 : Word).toNat = 0x1000 := rfl
      rw [h1000]
      omega
    rw [accessible_revoke hb ht (by omega) hg, hacc gpa hg, hpage, and_assoc]
    refine and_congr_right (fun _ => ?_)
    omega

end Revoke

/-- After `guest_ept_init` and the two calls of `hyper_main`, the pages that the
guest cannot reach are exactly those of the two regions. -/
theorem accessible_iff {eptL1 : Word} (ha : eptL1.toNat % 16384 = 0)
    (hb : eptL1.toNat + tableSize ≤ 2 ^ 48) (s : State) {gpa : Word} (hg : gpa.toNat < 2 ^ 32) :
    (¬ Accessible (mmioMapGicd (guestEptInit eptL1 s)) gpa ↔ InGicd gpa) ∧
    (¬ Accessible (mmioMapGicc (mmioMapGicd (guestEptInit eptL1 s))) gpa ↔
      InGicd gpa ∨ InGicc gpa) := by
  have hbuilt := built_guestEptInit ha hb s
  have hacc : Accessible (guestEptInit eptL1 s) gpa := .inl (entry_built hbuilt hg).read
  have hd : mmioAreaGicd.toNat = 0x8000000 := rfl
  have hc : mmioAreaGicc.toNat = 0x8010000 := rfl
  obtain ⟨hroot, hgicd⟩ := accessible_mmioMap hb hbuilt.l3Root mmioAreaGicd (by omega)
    (by omega)
  obtain ⟨-, hgicc⟩ := accessible_mmioMap hb hroot mmioAreaGicc (by omega) (by omega)
  have hfirst := hgicd gpa hg
  have hsecond := hgicc gpa hg
  rw [hfirst] at hsecond
  rw [hd] at hfirst
  rw [hd, hc] at hsecond
  unfold mmioMapGicd mmioMapGicc
  rw [hfirst, hsecond, inGicd_iff, inGicc_iff]
  simp only [hacc, true_and]
  omega

/-- The handler does its accesses one after the other. -/
theorem dataAbortHandler_eq (hsr : BitVec 32) (gpa : Word) (ctx : TrapFrame) (g : Gic)
    (dev : Device) : dataAbortHandler hsr gpa ctx g dev =
      (dataAbortAccesses gpa).foldl (fun s a => a.perform hsr gpa s) (ctx, g, dev) := by
  unfold dataAbortHandler dataAbortAccesses
  split
  · rfl
  · split <;> rfl

/-- One trapped access reaches the device that its address belongs to and no other. -/
structure Routed (hsr : BitVec 32) (gpa : Word) (ctx : TrapFrame) (g : Gic) (dev : Device) :
    Prop where
  intc : .intc ∈ dataAbortAccesses gpa ↔ InGicd gpa
  mmio : ∀ a, .mmio a ∈ dataAbortAccesses gpa ↔ InGicc gpa ∧ a = gicvBaseAddr + (gpa - giccBaseAddr)
  other : ¬ InGicd gpa → ¬ InGicc gpa → dataAbortHandler hsr gpa ctx g dev = (ctx, g, dev)
  index : ∀ i, .eptEntry i ∈ dataAbortAccesses gpa → i < lpaeL3Size

section Dispatch

variable (gpa : Word)

/-- The two comparisons of the handler, which include their upper ends. -/
theorem gicd_compare : gicdBaseAddr ≤ gpa ∧ gpa ≤ gicdBaseAddr + 0x10000 ↔
    0x8000000 ≤ gpa.toNat ∧ gpa.toNat ≤ 0x8010000 := by
  have hlo : gicdBaseAddr.toNat = 0x8000000 := rfl
  have hhi : (gicdBaseAddr + 0x10000).toNat = 0x8010000 := rfl
  rw [BitVec.le_def, BitVec.le_def, hlo, hhi]

theorem gicc_compare : giccBaseAddr ≤ gpa ∧ gpa ≤ giccBaseAddr + 0x10000 ↔
    0x8010000 ≤ gpa.toNat ∧ gpa.toNat ≤ 0x8020000 := by
  have hlo : giccBaseAddr.toNat = 0x8010000 := rfl
  have hhi : (giccBaseAddr + 0x10000).toNat = 0x8020000 := rfl
  rw [BitVec.le_def, BitVec.le_def, hlo, hhi]

theorem dataAbortAccesses_eq : dataAbortAccesses gpa =
    .eptEntry (gpa.toNat / 4096) ::
      if 0x8000000 ≤ gpa.toNat ∧ gpa.toNat ≤ 0x8010000 then [.intc]
      else if 0x8010000 ≤ gpa.toNat ∧ gpa.toNat ≤ 0x8020000 then [.mmio (gpa + 0x30000)]
      else [] := by
  unfold dataAbortAccesses
  simp only [gicd_compare, gicc_compare, toNat_pageNum]

theorem intc_mem : .intc ∈ dataAbortAccesses gpa ↔
    0x8000000 ≤ gpa.toNat ∧ gpa.toNat ≤ 0x8010000 := by
  rw [dataAbortAccesses_eq, List.mem_cons]
  split
  · simp only [List.mem_singleton, or_true, true_iff]
    assumption
  · split <;> simp only [List.mem_singleton, List.not_mem_nil, reduceCtorEq, or_false, false_iff] <;>
      assumption

theorem mmio_mem (a : Word) : .mmio a ∈ dataAbortAccesses gpa ↔
    (0x8010000 < gpa.toNat ∧ gpa.toNat ≤ 0x8020000) ∧ a = gpa + 0x30000 := by
  rw [dataAbortAccesses_eq, List.mem_cons]
  split
  · have hd : ¬ (0x8010000 < gpa.toNat ∧ gpa.toNat ≤ 0x8020000) := by omega
    simp only [List.mem_singleton, reduceCtorEq, or_false, hd, false_and]
  · split
    · have hc : 0x8010000 < gpa.toNat ∧ gpa.toNat ≤ 0x8020000 := by omega
      simp only [List.mem_singleton, reduceCtorEq, false_or, hc, and_self, true_and,
        Access.mmio.injEq]
    · have hc : ¬ (0x8010000 < gpa.toNat ∧ gpa.toNat ≤ 0x8020000) := by omega
      simp only [List.not_mem_nil, reduceCtorEq, or_false, hc, false_and]

theorem eptEntry_mem (i : Nat) : .eptEntry i ∈ dataAbortAccesses gpa ↔ i = gpa.toNat / 4096 := by
  rw [dataAbortAccesses_eq]
  split
  · simp
  · split <;> simp

/-- The offset that the handler adds is the distance of the two interfaces. -/
theorem gicv_offset : gpa + 0x30000 = gicvBaseAddr + (gpa - giccBaseAddr) := by
  simp only [gicvBaseAddr, giccBaseAddr]
  bv_omega

/-- Nothing but the table is touched outside the compared ranges. -/
theorem dataAbortHandler_other (hsr : BitVec 32) (ctx : TrapFrame) (g : Gic) (dev : Device)
    (hi : .intc ∉ dataAbortAccesses gpa) (hm : ∀ a, .mmio a ∉ dataAbortAccesses gpa) :
    dataAbortHandler hsr gpa ctx g dev = (ctx, g, dev) := by
  rw [dataAbortHandler_eq]
  have hskip : ∀ a ∈ dataAbortAccesses gpa, a.perform hsr gpa = id := by
    intro a ha
    cases a with
    | eptEntry i => rfl
    | intc => exact absurd ha hi
    | mmio a => exact absurd ha (hm a)
  generalize dataAbortAccesses gpa = as at hskip
  induction as with
  | nil => rfl
  | cons a as ih =>
    rw [List.foldl_cons, hskip a List.mem_cons_self]
    exact ih (fun a' ha' => hskip a' (List.mem_cons_of_mem a ha'))

end Dispatch

/-- The pages taken from the guest are those of the two interfaces, and a trapped
access is routed by them, and looked up within the table, exactly when it is not at
one of the two upper ends that the comparisons include and lies below 4 GiB. -/
theorem routed_iff (eptL1 : Word) (ha : eptL1.toNat % 16384 = 0)
    (hb : eptL1.toNat + tableSize ≤ 2 ^ 48) (s : State) (hsr : BitVec 32) (gpa : Word)
    (ctx : TrapFrame) (g : Gic) (dev : Device) :
    (∀ a : Word, a.toNat < 2 ^ 32 →
      (¬ Accessible (mmioMapGicd (guestEptInit eptL1 s)) a ↔ InGicd a) ∧
      (¬ Accessible (mmioMapGicc (mmioMapGicd (guestEptInit eptL1 s))) a ↔
        InGicd a ∨ InGicc a)) ∧
    (Routed hsr gpa ctx g dev ↔
      gpa ≠ giccBaseAddr ∧ gpa ≠ giccBaseAddr + 0x10000 ∧ gpa.toNat < 2 ^ 32) := by
  refine ⟨fun a h => accessible_iff ha hb s h, ?_⟩
  have hlo : gpa = giccBaseAddr ↔ gpa.toNat = 0x8010000 := BitVec.toNat_inj.symm
  have hhi : gpa = giccBaseAddr + 0x10000 ↔ gpa.toNat = 0x8020000 := BitVec.toNat_inj.symm
  rw [Ne, Ne, hlo, hhi]
  constructor
  · intro h
    have hintc := h.intc
    have hmmio := h.mmio (gpa + 0x30000)
    have hindex := h.index _ ((eptEntry_mem gpa _).mpr rfl)
    rw [intc_mem, inGicd_iff] at hintc
    rw [mmio_mem, inGicc_iff, ← gicv_offset] at hmmio
    simp only [and_true] at hmmio
    simp only [lpaeL3Size, lpaeL2Size, lpaeL1Size, lpaeEntries] at hindex
    omega
  · rintro ⟨hne, hne', hlt⟩
    refine ⟨?_, fun a => ?_, fun hd hc => ?_, fun i hi => ?_⟩
    · rw [intc_mem, inGicd_iff]
      omega
    · rw [mmio_mem, inGicc_iff, gicv_offset]
      refine and_congr_left (fun _ => ?_)
      omega
    · rw [inGicd_iff] at hd
      rw [inGicc_iff] at hc
      apply dataAbortHandler_other
      · rw [intc_mem]
        omega
      · intro a
        rw [mmio_mem]
        omega
    · rw [eptEntry_mem] at hi
      simp only [lpaeL3Size, lpaeL2Size, lpaeL1Size, lpaeEntries]
      omega

/-- The last word of the CPU interface, with the table where the linker puts it. -/
theorem routed_iff_last :
    Routed 0x93820047 0x801fffc (fun _ => 0) ⟨fun _ => 0, fun _ => 0, fun _ => 0⟩ (fun _ => 0) :=
  (routed_iff 0x40020000 (by decide) (by decide) ⟨fun _ => 0, 0, 0, 0, 0⟩ _ _ _ _ _).2.mpr (by decide)

/-- A read of `GICC_CTLR`, the first register of the CPU interface, goes to the
distributor's handler and leaves the guest's register as it was. -/
theorem gicc_ctlr_misrouted :
    ¬ Routed 0x93820007 0x8010000 (fun _ => 7) ⟨fun _ => 0, fun _ => 0, fun _ => 0⟩ (fun _ => 1) := by
  intro h
  have hmem : Access.intc ∈ dataAbortAccesses 0x8010000 := by decide
  exact absurd (h.intc.mp hmem) (by rw [inGicd_iff]; decide)

end Dmos.Proofs.Routing
