import Dmos.Mmu

namespace Dmos.Proofs.AddressSpace
open Lib Mmu

variable {m : WordMemory} {t : Tables} {pxn base table root next va v desc : Word} {i j : Nat}

/-! ### The tables in memory -/

/-- A table is a page of the first 4 GiB of memory. -/
structure Page (base : Word) : Prop where
  aligned : base.toNat % 4096 = 0
  inside : base.toNat + 4096 ≤ 2 ^ 32

structure Placed (t : Tables) : Prop where
  pt0 : Page t.pt0
  pt1 : Page t.pt1
  highPt0 : Page t.highPt0
  highPt1 : Page t.highPt1
  distinct : [t.pt0, t.pt1, t.highPt0, t.highPt1].Nodup

theorem slot_eq_iff (hb : Page base) (ht : Page table) (hi : i < 512) (hj : j < 512) :
    slot base i = slot table j ↔ base = table ∧ i = j := by
  have hinside := hb.inside
  have hinside' := ht.inside
  have haligned := hb.aligned
  have haligned' := ht.aligned
  constructor
  · intro heq
    have hnat := congrArg BitVec.toNat heq
    rw [toNat_slot (by omega), toNat_slot (by omega)] at hnat
    exact ⟨BitVec.eq_of_toNat_eq (by omega), by omega⟩
  · rintro ⟨rfl, rfl⟩
    rfl

theorem read_store (hb : Page base) (ht : Page table) (hi : i < 512) (hj : j < 512) :
    store m table j v (slot base i) = if base = table ∧ i = j then v else m (slot base i) := by
  rw [store, Function.update_apply]
  simp only [slot_eq_iff hb ht hi hj]

theorem read_memset (hb : Page base) (ht : Page table) (hi : i < 512) :
    memset m table (slot base i) = if base = table then 0 else m (slot base i) := by
  have hinside := ht.inside
  split
  · next heq =>
    rw [heq]
    exact filled_memcpy m (fun _ => 0) (by omega) i hi
  · next hne =>
    apply memcpy_frame
    intro j hj heq
    exact hne ((slot_eq_iff hb ht hi hj).mp heq).1

/-- A first-level table with one entry. -/
def Root (m : WordMemory) (root next : Word) : Prop :=
  Filled m root 512 fun i => if i = 0 then next + 0b11 else 0

/-- A second-level table with four blocks. -/
def Blocks (m : WordMemory) (next : Word) (entry : Nat → Word) : Prop :=
  Filled m next 512 fun i => if i < 4 then entry i else 0

/-- The blocks of the lower half. -/
def lowEntry (pxn : Word) : Nat → Word
  | 0 => 0x00000000 ||| pteDeviceMemory
  | 1 => 0x40000000 ||| pteNormalMemory
  | 2 => 0x80000000 ||| pteNormalMemory ||| apEl0 ||| pxn
  | _ => 0xc0000000 ||| pteNormalMemory ||| apEl0 ||| pxn

/-- The blocks of the upper half, which EL0 does not reach. -/
def highEntry : Nat → Word
  | 0 => 0x00000000 ||| pteDeviceMemory
  | 1 => 0x40000000 ||| pteNormalMemory
  | 2 => 0x80000000 ||| pteNormalMemory
  | _ => 0xc0000000 ||| pteNormalMemory

/-- Four entries and zeros, as the stores leave them. -/
theorem four_entries (entry : Nat → Word) (i : Nat) :
    (if i = 3 then entry 3 else if i = 2 then entry 2 else if i = 1 then entry 1
      else if i = 0 then entry 0 else 0) = if i < 4 then entry i else 0 := by
  match i with
  | 0 => rfl
  | 1 => rfl
  | 2 => rfl
  | 3 => rfl
  | i + 4 => rw [if_neg (by omega), if_neg (by omega), if_neg (by omega), if_neg (by omega), if_neg (by omega)]

/-- What `init_page_table` leaves in the four tables. -/
theorem initPageTable_tables (ht : Placed t) (pxn : Word) (m : WordMemory) :
    Root (initPageTable t pxn m) t.pt0 t.pt1 ∧ Blocks (initPageTable t pxn m) t.pt1 (lowEntry pxn) ∧
      Root (initPageTable t pxn m) t.highPt0 t.highPt1 ∧
      Blocks (initPageTable t pxn m) t.highPt1 highEntry := by
  obtain ⟨h0, h1, h2, h3, hd⟩ := ht
  simp only [List.nodup_cons, List.mem_cons, List.not_mem_nil, or_false, not_or, List.nodup_nil, not_false_eq_true,
    and_true] at hd
  obtain ⟨⟨h01, h02, h03⟩, ⟨h12, h13⟩, h23⟩ := hd
  have h10 := Ne.symm h01
  have h20 := Ne.symm h02
  have h30 := Ne.symm h03
  have h21 := Ne.symm h12
  have h31 := Ne.symm h13
  have h32 := Ne.symm h23
  refine ⟨?_, ?_, ?_, ?_⟩ <;> intro i hi <;> simp only [initPageTable]
  · simp (disch := first | assumption | decide) only [read_store, read_memset, h01, h02, h03, false_and,
      if_false, true_and, if_true]
  · simp (disch := first | assumption | decide) only [read_store, read_memset, h10, h12, h13, false_and,
      if_false, true_and, if_true]
    exact four_entries (lowEntry pxn) i
  · simp (disch := first | assumption | decide) only [read_store, read_memset, h20, h21, h23, false_and,
      if_false, true_and, if_true]
  · simp (disch := first | assumption | decide) only [read_store, read_memset, h30, h31, h32, false_and,
      if_false, true_and, if_true]
    exact four_entries highEntry i

/-! ### Walks -/

theorem valid_zero : Pt.valid.get (0 : Word) = 0 := by decide

/-- An entry for the next table. -/
theorem table_entry (hn : Page next) : Pt.valid.get (next + 0b11) = 1 ∧ Pt.table.get (next + 0b11) = 1 ∧
    nextTable (next + 0b11) = next := by
  have hinside := hn.inside
  have haligned := hn.aligned
  have hsum : (next + 0b11).toNat = next.toNat + 3 := by
    rw [BitVec.toNat_add, show (0b11 : Word).toNat = 3 from rfl, Nat.mod_eq_of_lt (by omega)]
  refine ⟨?_, ?_, ?_⟩
  · apply BitVec.eq_of_toNat_eq
    rw [Field.toNat_get, hsum]
    change (next.toNat + 3) / 2 ^ 0 % 2 ^ 1 = 1
    omega
  · apply BitVec.eq_of_toNat_eq
    rw [Field.toNat_get, hsum]
    change (next.toNat + 3) / 2 ^ 1 % 2 ^ 1 = 1
    omega
  · apply BitVec.eq_of_toNat_eq
    rw [nextTable, BitVec.toNat_shiftLeft, BitVec.toNat_setWidth, Field.toNat_get, hsum, Nat.shiftLeft_eq]
    simp only [Pt.base]
    omega

theorem nextTable_root (hr : Page root) : nextTable root = root := by
  have hinside := hr.inside
  have haligned := hr.aligned
  apply BitVec.eq_of_toNat_eq
  rw [nextTable, BitVec.toNat_shiftLeft, BitVec.toNat_setWidth, Field.toNat_get, Nat.shiftLeft_eq]
  simp only [Pt.base]
  omega

/-- The walk through the two tables, for an address of 48 bits. -/
theorem walk_two {entry : Nat → Word} (hr : Root m root next) (hb : Blocks m next entry) (hn : Page next)
    (hentry : ∀ k < 4, Pt.valid.get (entry k) = 1 ∧ Pt.table.get (entry k) = 0) (hva : va.toNat < 2 ^ 48) :
    walk m 32 va 4 root = if va.toNat < 2 ^ 32 then .ok (1, entry (va.toNat / 2 ^ 30))
      else if va.toNat < 2 ^ 39 then .error (.translation 1) else .error (.translation 0) := by
  have hinside := hn.inside
  have hidx0 : ((⟨shift 0, 9⟩ : Field).get va).toNat = va.toNat / 2 ^ 39 := by
    rw [Field.toNat_get]
    exact Nat.mod_eq_of_lt (by simp only [shift]; omega)
  have hdesc0 : m (slot root (va.toNat / 2 ^ 39)) = if va.toNat / 2 ^ 39 = 0 then next + 0b11 else 0 :=
    hr _ (by omega)
  rw [walk]
  simp only [Nat.sub_self, hidx0, hdesc0]
  by_cases h39 : va.toNat < 2 ^ 39
  · obtain ⟨hv, ht, hnext⟩ := table_entry hn
    have hidx1 : ((⟨shift 1, 9⟩ : Field).get va).toNat = va.toNat / 2 ^ 30 := by
      rw [Field.toNat_get]
      exact Nat.mod_eq_of_lt (by simp only [shift]; omega)
    have hdesc1 : m (slot next (va.toNat / 2 ^ 30)) =
        if va.toNat / 2 ^ 30 < 4 then entry (va.toNat / 2 ^ 30) else 0 := hb _ (by omega)
    rw [if_pos (show va.toNat / 2 ^ 39 = 0 by omega), hv, ht, hnext, if_neg (by decide), if_pos rfl,
      if_neg (by decide), if_pos (by omega), walk]
    simp only [show 3 - 2 = 1 from rfl, hidx1, hdesc1]
    by_cases h32 : va.toNat < 2 ^ 32
    · obtain ⟨hv1, ht1⟩ := hentry (va.toNat / 2 ^ 30) (by omega)
      rw [if_pos (show va.toNat / 2 ^ 30 < 4 by omega), hv1, ht1, if_neg (by decide), if_neg (by decide),
        if_pos (.inl trivial), if_pos h32]
    · rw [if_neg (show ¬ va.toNat / 2 ^ 30 < 4 by omega), valid_zero, if_pos rfl, if_neg h32, if_pos h39]
  · rw [if_neg (show va.toNat / 2 ^ 39 ≠ 0 by omega), valid_zero, if_pos rfl, if_neg (by omega), if_neg h39]

/-! ### Blocks -/

/-- The descriptor of a block of 1 GiB: where it is, its attribute index, and who reaches it. -/
@[mk_iff] structure IsBlock (desc : Word) (k ai : Nat) (user pxn : Bool) : Prop where
  valid : Pt.valid.get desc = 1
  table : Pt.table.get desc = 0
  base : ((⟨30, 18⟩ : Field).get desc).toNat = k
  ai : (Pt.ai.get desc).toNat = ai
  sh : Pt.sh.get desc = 3
  user : decide (Pt.user.get desc = 1) = user
  ro : Pt.ro.get desc = 0
  af : Pt.af.get desc = 1
  pxn : decide (Pt.pxn.get desc = 1) = pxn
  xn : Pt.xn.get desc = 0

instance {k ai : Nat} {user pxn : Bool} : Decidable (IsBlock desc k ai user pxn) :=
  decidable_of_iff' _ (isBlock_iff desc k ai user pxn)

/-- The mapping of an address in a block. -/
theorem leaf_block {k ai : Nat} {user pxn : Bool} (h : IsBlock desc k ai user pxn)
    (hva : va.toNat < 2 ^ 32) (hk : va.toNat / 2 ^ 30 = k) :
    leaf 32 mairValue va 1 desc =
      .ok ⟨va, (⟨8 * ai, 8⟩ : Field).get mairValue, 3, user, false, pxn, false⟩ := by
  have hbase : ((⟨shift 1, 48 - shift 1⟩ : Field).get desc).toNat = va.toNat / 2 ^ 30 := h.base.trans hk.symm
  have hlow : ((⟨0, shift 1⟩ : Field).get va).toNat = va.toNat % 2 ^ 30 := by
    rw [Field.toNat_get, Nat.pow_zero, Nat.div_one]
    rfl
  have hpa : ((⟨shift 1, 48 - shift 1⟩ : Field).get desc).setWidth 64 <<< shift 1 |||
      ((⟨0, shift 1⟩ : Field).get va).setWidth 64 = va := by
    apply BitVec.eq_of_toNat_eq
    rw [BitVec.toNat_or, BitVec.toNat_shiftLeft, BitVec.toNat_setWidth, BitVec.toNat_setWidth, hbase, hlow,
      Nat.mod_eq_of_lt (show va.toNat / 2 ^ 30 < 2 ^ 64 by omega),
      Nat.mod_eq_of_lt (show va.toNat % 2 ^ 30 < 2 ^ 64 by omega), show shift 1 = 30 from rfl,
      Nat.mod_eq_of_lt (show (va.toNat / 2 ^ 30) <<< 30 < 2 ^ 64 by rw [Nat.shiftLeft_eq]; omega),
      ← Nat.shiftLeft_add_eq_or_of_lt (Nat.mod_lt _ (by decide)), Nat.shiftLeft_eq]
    omega
  unfold leaf
  simp only [hpa]
  rw [if_neg (by omega), if_neg (by rw [h.af]; decide)]
  congr 2
  · rw [h.ai]
  · exact h.sh
  · exact h.user
  · rw [h.ro]
    rfl
  · exact h.pxn
  · rw [h.xn]
    rfl

/-- The bits that `pxn` may have set: those of a block that the walk does not read, and the one
that it is meant for. -/
def pxnBits : Word := 0x002000003ffff000

theorem get_pxn (hpxn : pxn &&& ~~~ pxnBits = 0) (f : Field) (hf : f.get (~~~ pxnBits) = BitVec.allOnes f.len) :
    f.get pxn = 0 := by
  apply BitVec.eq_of_getLsbD_eq
  intro i hi
  have hset := congrArg (fun w => w.getLsbD i) hf
  have hclear := congrArg (fun w => w.getLsbD (f.lo + i)) hpxn
  simp only [Field.getLsbD_get, hi, decide_true, Bool.true_and, BitVec.getLsbD_allOnes, BitVec.getLsbD_and] at hset hclear
  rw [hset, Bool.and_true] at hclear
  simpa [Field.getLsbD_get] using fun _ => hclear

/-- The attribute index of a gigabyte: the first is device memory. -/
def attrIndex (k : Nat) : Nat := if k = 0 then 0 else 1

/-- A block with `pxn` or-ed in reads as without it, but for the bit it is meant for. -/
theorem IsBlock.or_pxn (hpxn : pxn &&& ~~~ pxnBits = 0) {k ai : Nat} {user : Bool}
    (h : IsBlock desc k ai user false) : IsBlock (desc ||| pxn) k ai user (pxn.getLsbD 53) := by
  have hget : ∀ f : Field, f.get (~~~ pxnBits) = BitVec.allOnes f.len → f.get (desc ||| pxn) = f.get desc := by
    intro f hf
    rw [Field.get_or, get_pxn hpxn f hf]
    exact BitVec.or_zero
  refine ⟨?_, ?_, ?_, ?_, ?_, ?_, ?_, ?_, ?_, ?_⟩
  · rw [hget _ (by decide), h.valid]
  · rw [hget _ (by decide), h.table]
  · rw [hget _ (by decide), h.base]
  · rw [hget _ (by decide), h.ai]
  · rw [hget _ (by decide), h.sh]
  · rw [hget _ (by decide), h.user]
  · rw [hget _ (by decide), h.ro]
  · rw [hget _ (by decide), h.af]
  · have hbit : ∀ w : Word, Pt.pxn.get w = 1 ↔ w.getLsbD 53 = true := by
      intro w
      have hw : (Pt.pxn.get w).getLsbD 0 = w.getLsbD 53 := by
        rw [Field.getLsbD_get]
        rfl
      rw [← hw]
      generalize Pt.pxn.get w = b
      revert b
      decide
    have hdesc : desc.getLsbD 53 = false := by
      have hp := h.pxn
      rw [decide_eq_false_iff_not, hbit] at hp
      simpa using hp
    simp only [hbit, BitVec.getLsbD_or, hdesc, Bool.false_or, Bool.decide_eq_true]
  · rw [hget _ (by decide), h.xn]

theorem isBlock_low (hpxn : pxn &&& ~~~ pxnBits = 0) {k : Nat} (hk : k < 4) :
    IsBlock (lowEntry pxn k) k (attrIndex k) (2 ≤ k) (decide (2 ≤ k) && pxn.getLsbD 53) := by
  match k, hk with
  | 0, _ => exact (by decide : IsBlock (0x00000000 ||| pteDeviceMemory) 0 0 false false)
  | 1, _ => exact (by decide : IsBlock (0x40000000 ||| pteNormalMemory) 1 1 false false)
  | 2, _ => exact (by decide : IsBlock (0x80000000 ||| pteNormalMemory ||| apEl0) 2 1 true false).or_pxn hpxn
  | 3, _ => exact (by decide : IsBlock (0xc0000000 ||| pteNormalMemory ||| apEl0) 3 1 true false).or_pxn hpxn

theorem isBlock_high : ∀ {k}, k < 4 → IsBlock (highEntry k) k (attrIndex k) false false := by decide

/-! ### Regions -/

/-- A map of the first 4 GiB of physical memory onto themselves: device memory first and normal
memory after it, inner shareable, writable, and with the blocks of `user` open to EL0. -/
def mapping (user pxn : Nat → Bool) (pa : Nat) : Mapping where
  pa := BitVec.ofNat 64 pa
  attr := if pa < 2 ^ 30 then 0x00 else 0xff
  sh := 0b11
  user := user (pa / 2 ^ 30)
  ro := false
  pxn := pxn (pa / 2 ^ 30)
  xn := false

/-- What an access at an offset of a region meets. -/
def inRegion (user pxn : Nat → Bool) (offset : Nat) : Except Fault Mapping :=
  if offset < 2 ^ 32 then .ok (mapping user pxn offset)
  else if offset < 2 ^ 39 then .error (.translation 1)
  else .error (.translation 0)

theorem stageOne_region {entry : Nat → Word} {user pxn : Nat → Bool} (hr : Page root) (hn : Page next)
    (hroot : Root m root next) (hblocks : Blocks m next entry)
    (hentry : ∀ k < 4, IsBlock (entry k) k (attrIndex k) (user k) (pxn k)) (va : Word) :
    stageOne m root 16 0 mairValue va = inRegion user pxn (va.toNat % 2 ^ 48) := by
  have hva : (((⟨0, 64 - 16⟩ : Field).get va).setWidth 64).toNat = va.toNat % 2 ^ 48 := by
    rw [BitVec.toNat_setWidth, Field.toNat_get, Nat.pow_zero, Nat.div_one]
    exact Nat.mod_eq_of_lt (Nat.lt_of_lt_of_le (Nat.mod_lt _ (by decide)) (by decide))
  have hlt : (((⟨0, 64 - 16⟩ : Field).get va).setWidth 64).toNat < 2 ^ 48 := by
    rw [hva]
    exact Nat.mod_lt _ (by decide)
  have hwalk := walk_two hroot hblocks hn (fun k hk => ⟨(hentry k hk).valid, (hentry k hk).table⟩) hlt
  unfold stageOne
  simp only [nextTable_root hr, show paBits 0 = 32 from rfl, show levels 16 = 4 from rfl]
  rw [hwalk, inRegion, ← hva]
  generalize ((⟨0, 64 - 16⟩ : Field).get va).setWidth 64 = w
  by_cases h32 : w.toNat < 2 ^ 32
  · rw [if_pos h32, if_pos h32]
    simp only
    rw [leaf_block (hentry _ (by omega)) h32 rfl, mapping, BitVec.ofNat_toNat, BitVec.setWidth_eq]
    congr 2
    rw [attrIndex]
    by_cases h30 : w.toNat < 2 ^ 30
    · rw [if_pos h30, if_pos (by omega)]
      decide
    · rw [if_neg h30, if_neg (by omega)]
      decide
  · rw [if_neg h32, if_neg h32]
    by_cases h39 : w.toNat < 2 ^ 39
    · rw [if_pos h39, if_pos h39]
    · rw [if_neg h39, if_neg h39]

/-- A region of 48 bits with granules of 4 KiB and walks enabled. -/
theorem vaRegion_48 (m : WordMemory) (ttbr mair va : Word) (ps : BitVec 3) :
    vaRegion 0 true m ttbr 16 ps mair va = stageOne m ttbr 16 ps mair va := by
  simp [vaRegion]

/-- `TCR_EL1` gives two such regions, with physical addresses of 32 bits and no tags. -/
theorem translateEl1_eq (t : Tables) (r : Regs) (m : WordMemory) (va : Word) :
    translateEl1 m (enableMmu t r) va =
      if va.toNat < 2 ^ 48 then stageOne m t.pt0 16 0 mairValue va
      else if 2 ^ 64 - 2 ^ 48 ≤ va.toNat then stageOne m t.highPt0 16 0 mairValue va
      else .error (.translation 0) := by
  have htcr : (enableMmu t r).tcrEl1 = tcrEl1 := rfl
  have h0 : ((⟨0, 6⟩ : Field).get tcrEl1).toNat = 16 := by decide
  have hepd0 : (⟨7, 1⟩ : Field).get tcrEl1 = 0 := by decide
  have htg0 : (⟨14, 2⟩ : Field).get tcrEl1 = 0 := by decide
  have h1 : ((⟨16, 6⟩ : Field).get tcrEl1).toNat = 16 := by decide
  have hepd1 : (⟨23, 1⟩ : Field).get tcrEl1 = 0 := by decide
  have htg1 : (⟨30, 2⟩ : Field).get tcrEl1 = 2 := by decide
  have hips : (⟨32, 3⟩ : Field).get tcrEl1 = 0 := by decide
  have htbi0 : (⟨37, 1⟩ : Field).get tcrEl1 = 0 := by decide
  have htbi1 : (⟨38, 1⟩ : Field).get tcrEl1 = 0 := by decide
  unfold translateEl1
  simp only [htcr, h0, hepd0, htg0, h1, hepd1, htg1, hips, htbi0, htbi1, ite_self, untag]
  simp only [decide_true, vaRegion_48]
  rfl

theorem translateEl2_eq (t : Tables) (r : Regs) (m : WordMemory) (va : Word) :
    translateEl2 m (enableMmuEl2 t r) va =
      if va.toNat < 2 ^ 48 then stageOne m t.pt0 16 0 mairValue va else .error (.translation 0) := by
  have htcr : (enableMmuEl2 t r).tcrEl2 = tcrEl2 := rfl
  have h0 : ((⟨0, 6⟩ : Field).get tcrEl2).toNat = 16 := by decide
  have htg0 : (⟨14, 2⟩ : Field).get tcrEl2 = 0 := by decide
  have hps : (⟨16, 3⟩ : Field).get tcrEl2 = 0 := by decide
  have htbi : (⟨20, 1⟩ : Field).get tcrEl2 = 0 := by decide
  unfold translateEl2
  simp only [htcr, h0, htg0, hps, htbi, untag]
  simp only [decide_true, vaRegion_48]
  rfl

/-- What `init_page_table` and `init_mmu` give every address. At EL1 and EL0 the lower half maps
the first 4 GiB onto themselves, the upper half maps them once more, EL0 reaches the upper two
of the lower half only, and every other address faults; EL2 has the lower half. -/
theorem address_space (t : Tables) (ht : Placed t) (pxn : Word) (hpxn : pxn &&& ~~~ pxnBits = 0)
    (m : WordMemory) (r : Regs) :
    (∀ va, translateEl1 (initPageTable t pxn m) (enableMmu t r) va =
      if va.toNat < 2 ^ 48 then
        inRegion (fun k => 2 ≤ k) (fun k => decide (2 ≤ k) && pxn.getLsbD 53) va.toNat
      else if 2 ^ 64 - 2 ^ 48 ≤ va.toNat then
        inRegion (fun _ => false) (fun _ => false) (va.toNat - (2 ^ 64 - 2 ^ 48))
      else .error (.translation 0)) ∧
    (∀ va, translateEl2 (initPageTable t pxn m) (enableMmuEl2 t r) va =
      if va.toNat < 2 ^ 48 then
        inRegion (fun k => 2 ≤ k) (fun k => decide (2 ≤ k) && pxn.getLsbD 53) va.toNat
      else .error (.translation 0)) ∧
    (enableMmu t r).sctlrEl1.getLsbD 0 = true ∧ (enableMmuEl2 t r).sctlrEl2.getLsbD 0 = true := by
  obtain ⟨hroot, hblocks, hroot', hblocks'⟩ := initPageTable_tables ht pxn m
  have hlow := stageOne_region ht.pt0 ht.pt1 hroot hblocks fun k hk => isBlock_low hpxn hk
  have hhigh := stageOne_region ht.highPt0 ht.highPt1 hroot' hblocks' fun k hk => isBlock_high hk
  refine ⟨?_, ?_, ?_, ?_⟩
  · intro va
    have hlt := va.isLt
    rw [translateEl1_eq, hlow, hhigh]
    split
    · next h => rw [Nat.mod_eq_of_lt h]
    · split
      · rw [show va.toNat % 2 ^ 48 = va.toNat - (2 ^ 64 - 2 ^ 48) by omega]
      · rfl
  · intro va
    rw [translateEl2_eq, hlow]
    split
    · next h => rw [Nat.mod_eq_of_lt h]
    · rfl
  · simp [enableMmu, initMmu]
  · simp [enableMmuEl2, initMmuEl2, enableMmuMacro]

/-- Four pages after the kernel. -/
def linkedTables : Tables := ⟨0x40100000, 0x40101000, 0x40102000, 0x40103000⟩

theorem placed_linkedTables : Placed linkedTables :=
  ⟨⟨by decide, by decide⟩, ⟨by decide, by decide⟩, ⟨by decide, by decide⟩, ⟨by decide, by decide⟩, by decide⟩

def resetRegs : Regs := ⟨0, 0, 0, 0, 0, 0, 0, 0, 0⟩

/-- The start of the kernel is the same memory where it was loaded and where it is linked. -/
theorem address_space_kernel :
    translateEl1 (initPageTable linkedTables 0 fun _ => 0) (enableMmu linkedTables resetRegs) 0x40080000 =
      .ok ⟨0x40080000, 0xff, 3, false, false, false, false⟩ ∧
    translateEl1 (initPageTable linkedTables 0 fun _ => 0) (enableMmu linkedTables resetRegs)
      0xffff000040080000 = .ok ⟨0x40080000, 0xff, 3, false, false, false, false⟩ := by
  have hmap := (address_space linkedTables placed_linkedTables 0 (by decide) (fun _ => 0) resetRegs).1
  refine ⟨(hmap 0x40080000).trans ?_, (hmap 0xffff000040080000).trans ?_⟩
  · decide
  · decide

end Dmos.Proofs.AddressSpace
