import Mathlib.Tactic.IntervalCases
import Dmos.Ept

namespace Dmos.Proofs.StageTwo
open Lib Ept

/-- Level 1 page, level 2 tables and level 3 tables, in bytes. -/
def tableSize : Nat := 4096 + 8 * lpaeL2Size + 8 * lpaeL3Size

variable {b : Word}

theorem align_down (x : Word) : (x &&& ~~~ 0xfff#64).toNat = x.toNat / 4096 * 4096 := by
  have hshift : x &&& ~~~ 0xfff#64 = (x >>> 12) <<< 12 := by
    apply BitVec.eq_of_getLsbD_eq
    intro i hi
    interval_cases i <;> simp
  have hlt := x.isLt
  rw [hshift, BitVec.toNat_shiftLeft, BitVec.toNat_ushiftRight, Nat.shiftRight_eq_div_pow,
    Nat.shiftLeft_eq, Nat.mod_eq_of_lt (by omega)]

/-- The align expression gives the page after the one of the level 1 table. -/
theorem l2_root (ha : b.toNat % 16384 = 0) (hb : b.toNat + tableSize ≤ 2 ^ 48) :
    (slot b 4 + (1#64 <<< 12)) &&& ~~~ 0xfff#64 = slot b 512 := by
  apply BitVec.eq_of_toNat_eq
  simp only [tableSize, lpaeL3Size, lpaeL2Size, lpaeL1Size, lpaeEntries] at hb
  have h4 : (slot b 4).toNat = b.toNat + 32 := toNat_slot (by omega)
  have hsum : (slot b 4 + (1#64 <<< 12)).toNat = b.toNat + 32 + 4096 := by
    rw [BitVec.toNat_add, h4]
    simp
    omega
  rw [align_down, hsum, toNat_slot (by omega)]
  omega

/-- The first `r`, `q` and `p` entries of the three levels are in place. Every
slot is written as an index into the one region at `b`. -/
structure Built (b : Word) (s : State) (r q p : Nat) : Prop where
  l2Root : s.eptL2Root = slot b 512
  l3Root : s.eptL3Root = slot b 2560
  gpa : s.gpa = BitVec.ofNat 64 (4096 * p)
  l1 : Filled s.mem b r (fun i => tableEntry (slot b (512 + 512 * i)))
  l2 : Filled s.mem (slot b 512) q (fun i => tableEntry (slot b (2560 + 512 * i)))
  l3 : Filled s.mem (slot b 2560) p (fun i => pageEntry (BitVec.ofNat 64 (4096 * i)))

theorem slot_inj (hb : b.toNat + tableSize ≤ 2 ^ 48) {i j : Nat} (hi : i < 1051136)
    (hj : j < 1051136) (hij : i ≠ j) : slot b i ≠ slot b j := by
  simp only [tableSize, lpaeL3Size, lpaeL2Size, lpaeL1Size, lpaeEntries] at hb
  exact slot_ne (by omega) (by omega) (by omega)

theorem toNat_slot_le (hb : b.toNat + tableSize ≤ 2 ^ 48) {i : Nat} (hi : i < 1051136) :
    (slot b i).toNat = b.toNat + 8 * i := by
  simp only [tableSize, lpaeL3Size, lpaeL2Size, lpaeL1Size, lpaeEntries] at hb
  exact toNat_slot (by omega)

section Build

variable {s : State} {r q p : Nat} (hb : b.toNat + tableSize ≤ 2 ^ 48)
include hb

theorem Built.storeL1 (h : Built b s r q p) (hr : r < 4) (hq : q ≤ 2048) (hp : p ≤ 1048576) :
    Built b (s.store (slot b r) (tableEntry (slot b (512 + 512 * r)))) (r + 1) q p where
  l2Root := h.l2Root
  l3Root := h.l3Root
  gpa := h.gpa
  l1 := h.l1.push (by have := toNat_slot_le hb (i := 0) (by omega); unfold tableSize at hb; omega)
  l2 := h.l2.frame (fun i hi => by
    rw [slot_slot]
    exact slot_inj hb (by omega) (by omega) (by omega))
  l3 := h.l3.frame (fun i hi => by
    rw [slot_slot]
    exact slot_inj hb (by omega) (by omega) (by omega))

theorem Built.storeL2 (h : Built b s r q p) (hr : r ≤ 4) (hq : q < 2048) (hp : p ≤ 1048576) :
    Built b (s.store (slot b (512 + q)) (tableEntry (slot b (2560 + 512 * q)))) r (q + 1) p where
  l2Root := h.l2Root
  l3Root := h.l3Root
  gpa := h.gpa
  l1 := h.l1.frame (fun i hi => slot_inj hb (by omega) (by omega) (by omega))
  l2 := by
    rw [← slot_slot]
    exact h.l2.push (by rw [toNat_slot_le hb (by omega)]; unfold tableSize at hb; omega)
  l3 := h.l3.frame (fun i hi => by
    rw [slot_slot]
    exact slot_inj hb (by omega) (by omega) (by omega))

theorem Built.fillPage (h : Built b s r q p) (hr : r ≤ 4) (hq : q ≤ 2048) (hp : p < 1048576)
    {eptL3 : Word} {i : Nat} (ha : slot eptL3 i = slot b (2560 + p)) :
    Built b (fillPage eptL3 i s) r q (p + 1) where
  l2Root := h.l2Root
  l3Root := h.l3Root
  gpa := by
    have hnext : s.gpa + 4 * 1024 = BitVec.ofNat 64 (4096 * (p + 1)) := by
      rw [h.gpa, Nat.mul_add, BitVec.ofNat_add]
      rfl
    exact hnext
  l1 := by
    show Filled (Function.update s.mem (slot eptL3 i) _) _ _ _
    rw [ha]
    exact h.l1.frame (fun j hj => slot_inj hb (by omega) (by omega) (by omega))
  l2 := by
    show Filled (Function.update s.mem (slot eptL3 i) _) _ _ _
    rw [ha]
    refine h.l2.frame (fun j hj => ?_)
    rw [slot_slot]
    exact slot_inj hb (by omega) (by omega) (by omega)
  l3 := by
    show Filled (Function.update s.mem (slot eptL3 i) (pageEntry s.gpa)) _ _ _
    rw [ha, ← slot_slot, h.gpa]
    exact h.l3.push (by rw [toNat_slot_le hb (by omega)]; unfold tableSize at hb; omega)

theorem Built.fillL2 {i j : Nat} (hi : i < 4) (hj : j < 512)
    (h : Built b s r (512 * i + j) (512 * (512 * i + j))) (hr : r ≤ 4) :
    Built b (fillL2 (slot s.eptL2Root (lpaeEntries * i)) i j s) r (512 * i + j + 1)
      (512 * (512 * i + j + 1)) := by
  have he : lpaeEntries = 512 := rfl
  unfold Ept.fillL2
  simp only [he, h.l2Root, h.l3Root, slot_slot]
  rw [show 512 + 512 * i + j = 512 + (512 * i + j) by omega,
    show 2560 + (512 * 512 * i + 512 * j) = 2560 + 512 * (512 * i + j) by omega]
  have hloop := fold_invariant (I := fun k t => Built b t r (512 * i + j + 1)
    (512 * (512 * i + j) + k)) 512 _ (h.storeL2 hb hr (by omega) (by omega))
    (f := fun k t => Ept.fillPage (slot b (2560 + 512 * (512 * i + j))) k t)
    (fun k hk t ht => ht.fillPage hb hr (by omega) (by omega) (by rw [slot_slot, Nat.add_assoc]))
  exact hloop

theorem Built.fillL1 {i : Nat} (hi : i < 4) (h : Built b s i (512 * i) (512 * (512 * i))) :
    Built b (fillL1 b i s) (i + 1) (512 * (i + 1)) (512 * (512 * (i + 1))) := by
  have he : lpaeEntries = 512 := rfl
  unfold Ept.fillL1
  simp only [he, h.l2Root, slot_slot]
  have hstart := h.storeL1 hb hi (by omega) (by omega)
  have hloop := fold_invariant (I := fun k t => Built b t (i + 1) (512 * i + k)
    (512 * (512 * i + k))) 512 _ hstart
    (f := fun k t => Ept.fillL2 (slot b (512 + 512 * i)) i k t)
    (fun k hk t ht => by
      have := ht.fillL2 hb hi hk (by omega)
      rw [he, ht.l2Root, slot_slot] at this
      exact this)
  exact hloop

end Build

theorem Built.setVttbr {s : State} {r q p : Nat} (h : Built b s r q p) (v : Word) :
    Built b { s with vttbr := v } r q p :=
  ⟨h.l2Root, h.l3Root, h.gpa, h.l1, h.l2, h.l3⟩

/-- All three levels are complete when the builder returns. -/
theorem built_guestEptInit (ha : b.toNat % 16384 = 0) (hb : b.toNat + tableSize ≤ 2 ^ 48)
    (s : State) : Built b (guestEptInit b s) 4 2048 1048576 := by
  have hroot := l2_root ha hb
  let s₀ : State := { s with
    gpa := 0
    eptL2Root := (slot b lpaeL1Size + (1#64 <<< 12)) &&& ~~~ 0xfff#64
    eptL3Root := slot ((slot b lpaeL1Size + (1#64 <<< 12)) &&& ~~~ 0xfff#64) lpaeL2Size }
  have hempty : Built b s₀ 0 (512 * 0) (512 * (512 * 0)) := by
    refine ⟨hroot, ?_, rfl, ?_, ?_, ?_⟩
    · exact (congrArg (slot · lpaeL2Size) hroot).trans (slot_slot b 512 2048)
    all_goals
      intro i hi
      omega
  have hloop := fold_invariant (I := fun k t => Built b t k (512 * k) (512 * (512 * k)))
    4 s₀ hempty (f := fun k t => Ept.fillL1 b k t) (fun k hk t ht => ht.fillL1 hb hk)
  have heq : guestEptInit b s = { Nat.fold 4 (fun k _ t => Ept.fillL1 b k t) s₀ with vttbr := b } :=
    rfl
  rw [heq]
  exact hloop.setVttbr b

theorem tableEntry_eq (a : Word) : tableEntry a = 0x3#64 ||| a := rfl

theorem pageEntry_eq (gpa : Word) :
    pageEntry gpa = (if isInMemory gpa then 0x7ff#64 else 0x00400000000004c7#64) ||| gpa := by
  unfold pageEntry
  cases isInMemory gpa <;> rfl

/-- An aligned address survives being or-ed into an entry and read back from its
`base` field. -/
theorem nextTable_tableEntry {a : Word} (hal : 2 ^ 12 ∣ a.toNat) (hlt : a.toNat < 2 ^ 48) :
    nextTable (tableEntry a) = some a := by
  have hlow : ∀ f : Lib.Field, f.lo + f.len ≤ 12 → f.get (tableEntry a) = f.get 0x3#64 := by
    intro f hf
    rw [tableEntry_eq, Field.get_or, f.get_eq_zero_of_dvd a hal hf]
    exact BitVec.or_zero
  have hvalid : P2m.valid.get (tableEntry a) = 1 := hlow P2m.valid (by decide)
  have htable : P2m.table.get (tableEntry a) = 1 := hlow P2m.table (by decide)
  have hbase : P2m.base.get (tableEntry a) = P2m.base.get a := by
    rw [tableEntry_eq, Field.get_or, P2m.base.get_eq_zero_of_lt 0x3#64 (k := 2) (by decide)
      (by decide)]
    exact BitVec.zero_or
  rw [nextTable, if_pos ⟨hvalid, htable⟩, hbase]
  apply congrArg some
  apply BitVec.eq_of_toNat_eq
  obtain ⟨m, hm⟩ := hal
  rw [BitVec.toNat_shiftLeft, BitVec.toNat_setWidth, Field.toNat_get, Nat.shiftLeft_eq, hm]
  simp only [P2m.base]
  omega

/-- The fields of an entry for a page below 4 GiB. -/
structure MapsPage (e : Word) (page : Nat) (inMemory : Bool) : Prop where
  valid : P2m.valid.get e = 1
  table : P2m.table.get e = 1
  base : (P2m.base.get e).toNat = page
  read : P2m.read.get e = 1
  write : P2m.write.get e = 1
  mattr : P2m.mattr.get e = if inMemory then 0xf else 1
  sh : P2m.sh.get e = if inMemory then 3 else 0
  xn : P2m.xn.get e = if inMemory then 0 else 1

theorem pageEntry_maps {gpa : Word} (hal : 2 ^ 12 ∣ gpa.toNat) (hlt : gpa.toNat < 2 ^ 32) :
    MapsPage (pageEntry gpa) (gpa.toNat / 4096) (isInMemory gpa) := by
  have hfield : ∀ f : Lib.Field, f.get gpa = 0 → f.get (pageEntry gpa) =
      f.get (if isInMemory gpa then 0x7ff#64 else 0x00400000000004c7#64) := by
    intro f hf
    rw [pageEntry_eq, Field.get_or, hf]
    exact BitVec.or_zero
  have hlow : ∀ f : Lib.Field, f.lo + f.len ≤ 12 → f.get (pageEntry gpa) =
      f.get (if isInMemory gpa then 0x7ff#64 else 0x00400000000004c7#64) :=
    fun f hf => hfield f (f.get_eq_zero_of_dvd gpa hal hf)
  have hbase : P2m.base.get (pageEntry gpa) = P2m.base.get gpa := by
    rw [pageEntry_eq, Field.get_or]
    cases isInMemory gpa <;> exact BitVec.zero_or
  refine ⟨?_, ?_, ?_, ?_, ?_, ?_, ?_, ?_⟩
  · rw [hlow P2m.valid (by decide)]
    cases isInMemory gpa <;> rfl
  · rw [hlow P2m.table (by decide)]
    cases isInMemory gpa <;> rfl
  · rw [hbase, Field.toNat_get]
    simp only [P2m.base]
    omega
  · rw [hlow P2m.read (by decide)]
    cases isInMemory gpa <;> rfl
  · rw [hlow P2m.write (by decide)]
    cases isInMemory gpa <;> rfl
  · rw [hlow P2m.mattr (by decide)]
    cases isInMemory gpa <;> rfl
  · rw [hlow P2m.sh (by decide)]
    cases isInMemory gpa <;> rfl
  · rw [hfield P2m.xn (P2m.xn.get_eq_zero_of_lt gpa hlt (by decide))]
    cases isInMemory gpa <;> rfl

theorem isInMemory_eq (gpa : Word) :
    isInMemory gpa = decide (0x40000000 ≤ gpa.toNat ∧ gpa.toNat < 0x80000000) := by
  have hs : guestRamStart.toNat = 0x40000000 := rfl
  have he : guestRamEnd.toNat = 0x80000000 := rfl
  simp only [isInMemory, BitVec.le_def, BitVec.lt_def, hs, he, Bool.decide_and]

section Walk

variable {s : State} (hb : b.toNat + tableSize ≤ 2 ^ 48) (ha : b.toNat % 16384 = 0)
include ha hb

theorem nextTable_slot {i : Nat} (hi : 512 * i < 1051136) :
    nextTable (tableEntry (slot b (512 * i))) = some (slot b (512 * i)) := by
  have hn := toNat_slot_le hb hi
  unfold tableSize lpaeL3Size lpaeL2Size lpaeL1Size lpaeEntries at hb
  apply nextTable_tableEntry
  · rw [hn]
    omega
  · rw [hn]
    omega

/-- The walk reads one entry at each level and reaches the slot of the page. -/
theorem walk_built (h : Built b s 4 2048 1048576) {gpa : Word} (hg : gpa.toNat < 2 ^ 32) :
    walk s.mem b gpa = some (getEptEntry s gpa) := by
  have h1 : ((⟨30, 2⟩ : Lib.Field).get gpa).toNat = gpa.toNat / 2 ^ 30 % 4 := Field.toNat_get _ _
  have h2 : ((⟨21, 9⟩ : Lib.Field).get gpa).toNat = gpa.toNat / 2 ^ 21 % 512 := Field.toNat_get _ _
  have h3 : ((⟨12, 9⟩ : Lib.Field).get gpa).toNat = gpa.toNat / 2 ^ 12 % 512 := Field.toNat_get _ _
  have hp : (gpa >>> 12).toNat = gpa.toNat / 2 ^ 12 := by
    rw [BitVec.toNat_ushiftRight, Nat.shiftRight_eq_div_pow]
  have hl2 : nextTable (s.mem (slot b (gpa.toNat / 2 ^ 30 % 4))) =
      some (slot b (512 * (1 + gpa.toNat / 2 ^ 30 % 4))) := by
    have heq : 512 + 512 * (gpa.toNat / 2 ^ 30 % 4) = 512 * (1 + gpa.toNat / 2 ^ 30 % 4) := by omega
    rw [h.l1 _ (by omega)]
    simp only [heq]
    exact nextTable_slot hb ha (by omega)
  have hl3 : nextTable (s.mem (slot (slot b 512) (gpa.toNat / 2 ^ 21))) =
      some (slot b (512 * (5 + gpa.toNat / 2 ^ 21))) := by
    have heq : 2560 + 512 * (gpa.toNat / 2 ^ 21) = 512 * (5 + gpa.toNat / 2 ^ 21) := by omega
    rw [h.l2 _ (by omega)]
    simp only [heq]
    exact nextTable_slot hb ha (by omega)
  -- the index of a level and those above it make up the flat index
  have hi2 : 512 * (1 + gpa.toNat / 2 ^ 30 % 4) + gpa.toNat / 2 ^ 21 % 512 =
      512 + gpa.toNat / 2 ^ 21 := by omega
  have hi3 : 512 * (5 + gpa.toNat / 2 ^ 21) + gpa.toNat / 2 ^ 12 % 512 =
      2560 + gpa.toNat / 2 ^ 12 := by omega
  unfold walk getEptEntry
  rw [h1, h2, h3, hp, hl2, Option.bind_eq_bind, Option.bind_some, slot_slot, hi2, ← slot_slot, hl3,
    Option.bind_some, slot_slot, hi3, h.l3Root, slot_slot]
  rfl

end Walk

theorem entry_built {s : State} (h : Built b s 4 2048 1048576) {gpa : Word} (hg : gpa.toNat < 2 ^ 32) :
    MapsPage (s.mem (getEptEntry s gpa)) (gpa.toNat / 4096) (isInMemory gpa) := by
  have hp : (gpa >>> 12).toNat = gpa.toNat / 4096 := by
    rw [BitVec.toNat_ushiftRight, Nat.shiftRight_eq_div_pow]
  have hpage : (BitVec.ofNat 64 (4096 * (gpa.toNat / 4096))).toNat = 4096 * (gpa.toNat / 4096) := by
    rw [BitVec.toNat_ofNat, Nat.mod_eq_of_lt (by omega)]
  have hin : isInMemory (BitVec.ofNat 64 (4096 * (gpa.toNat / 4096))) = isInMemory gpa := by
    rw [isInMemory_eq, isInMemory_eq, hpage]
    congr 1
    rw [eq_iff_iff]
    omega
  unfold getEptEntry
  rw [hp, h.l3Root, h.l3 _ (by omega), ← hin]
  have hal : 2 ^ 12 ∣ (BitVec.ofNat 64 (4096 * (gpa.toNat / 4096))).toNat := by
    rw [hpage]
    omega
  have hmaps := pageEntry_maps hal (by rw [hpage]; omega)
  rw [hpage, Nat.mul_div_cancel_left _ (by omega)] at hmaps
  exact hmaps

/-- After `guest_ept_init` the tables do not overlap, and for every guest
physical address below 4 GiB the hardware walk from `VTTBR_EL2` meets valid table
entries and ends at the entry that `get_ept_entry` returns, which maps the page to
itself as memory or as a device. -/
theorem walk_agrees (eptL1 : Word) (ha : eptL1.toNat % 16384 = 0)
    (hb : eptL1.toNat + tableSize ≤ 2 ^ 48) (s : State) :
    Disjoint (region eptL1 lpaeL1Size) (region (guestEptInit eptL1 s).eptL2Root lpaeL2Size) ∧
    Disjoint (region eptL1 lpaeL1Size) (region (guestEptInit eptL1 s).eptL3Root lpaeL3Size) ∧
    Disjoint (region (guestEptInit eptL1 s).eptL2Root lpaeL2Size)
      (region (guestEptInit eptL1 s).eptL3Root lpaeL3Size) ∧
    ∀ gpa : Word, gpa.toNat < 2 ^ 32 →
      walk (guestEptInit eptL1 s).mem (guestEptInit eptL1 s).vttbr gpa =
        some (getEptEntry (guestEptInit eptL1 s) gpa) ∧
      MapsPage ((guestEptInit eptL1 s).mem (getEptEntry (guestEptInit eptL1 s) gpa))
        (gpa.toNat / 4096) (guestRamStart ≤ gpa ∧ gpa < guestRamEnd) := by
  have h := built_guestEptInit ha hb s
  have h2 := toNat_slot_le hb (i := 512) (by omega)
  have h3 := toNat_slot_le hb (i := 2560) (by omega)
  have hl1 : lpaeL1Size = 4 := rfl
  have hl2 : lpaeL2Size = 2048 := rfl
  rw [h.l2Root, h.l3Root, hl1, hl2]
  refine ⟨region_disjoint (by omega), region_disjoint (by omega), region_disjoint (by omega), ?_⟩
  intro gpa hg
  refine ⟨walk_built hb ha h hg, ?_⟩
  have hmaps := entry_built h hg
  rw [isInMemory, ← Bool.decide_and] at hmaps
  exact hmaps

/-- A table at an address that the linker script can give it, and the page of the UART. -/
theorem walk_agrees_uart :
    walk (guestEptInit 0x40020000 ⟨fun _ => 0, 0, 0, 0, 0⟩).mem
      (guestEptInit 0x40020000 ⟨fun _ => 0, 0, 0, 0, 0⟩).vttbr 0x9000018 =
      some (getEptEntry (guestEptInit 0x40020000 ⟨fun _ => 0, 0, 0, 0, 0⟩) 0x9000018) :=
  ((walk_agrees 0x40020000 (by decide) (by decide) ⟨fun _ => 0, 0, 0, 0, 0⟩).2.2.2 0x9000018
    (by decide)).1

end Dmos.Proofs.StageTwo
