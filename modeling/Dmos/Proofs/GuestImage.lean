import Dmos.Load
import Dmos.Proofs.Copies
import Dmos.Proofs.Routing

namespace Dmos.Proofs.GuestImage
open Lib Lib.Memory Ept Load StageTwo Routing Copies

/-! ### The builder writes its tables only -/

section Builder

variable {b : Word} {s t u : State}

/-- `t` differs from `s` in the tables at `b`, which are where they were. -/
structure OnlyTables (b : Word) (s t : State) : Prop where
  l2Root : t.eptL2Root = s.eptL2Root
  l3Root : t.eptL3Root = s.eptL3Root
  mem : ∀ a : Word, (∀ i < 1051136, a ≠ slot b i) → t.mem a = s.mem a

theorem OnlyTables.refl (b : Word) (s : State) : OnlyTables b s s := ⟨rfl, rfl, fun _ _ => rfl⟩

theorem OnlyTables.store (h : OnlyTables b s t) {i : Nat} (hi : i < 1051136) {a : Word}
    (ha : a = slot b i) (v : Word) : OnlyTables b s (t.store a v) := by
  refine ⟨h.l2Root, h.l3Root, fun c hc => ?_⟩
  have hne : c ≠ a := fun heq => hc i hi (heq.trans ha)
  exact (Function.update_of_ne hne v t.mem).trans (h.mem c hc)

theorem OnlyTables.setGpa (h : OnlyTables b s t) (g : Word) : OnlyTables b s { t with gpa := g } :=
  ⟨h.l2Root, h.l3Root, h.mem⟩

theorem OnlyTables.fillL2 (h : OnlyTables b s t) (hroot : s.eptL3Root = slot b 2560) {i j : Nat}
    (hi : i < 4) (hj : j < 512) {eptL2 : Word} (he : eptL2 = slot b (512 + 512 * i)) :
    OnlyTables b s (fillL2 eptL2 i j t) := by
  have hentries : lpaeEntries = 512 := rfl
  unfold Ept.fillL2
  simp only [hentries, h.l3Root, hroot, he, slot_slot]
  refine fold_invariant (I := fun _ u => OnlyTables b s u) 512 _
    (h.store (show 512 + 512 * i + j < 1051136 by omega) rfl _) (fun k hk u hu => ?_)
  refine (hu.store (i := 2560 + (512 * 512 * i + 512 * j) + k) (by omega) ?_ _).setGpa _
  rw [slot_slot]

theorem OnlyTables.fillL1 (h : OnlyTables b s t) (h2 : s.eptL2Root = slot b 512)
    (h3 : s.eptL3Root = slot b 2560) {i : Nat} (hi : i < 4) : OnlyTables b s (fillL1 b i t) := by
  have hentries : lpaeEntries = 512 := rfl
  unfold Ept.fillL1
  simp only [hentries, h.l2Root, h2, slot_slot]
  exact fold_invariant (I := fun _ u => OnlyTables b s u) 512 _
    (h.store (show i < 1051136 by omega) rfl _) (fun k hk u hu => hu.fillL2 h3 hi hk rfl)

theorem guestEptInit_frame (ha : b.toNat % 16384 = 0) (hb : b.toNat + tableSize ≤ 2 ^ 48)
    (s : State) {a : Word} (hout : ∀ i < 1051136, a ≠ slot b i) :
    (guestEptInit b s).mem a = s.mem a := by
  have hroot := l2_root ha hb
  let s₀ : State := { s with
    gpa := 0
    eptL2Root := (slot b lpaeL1Size + (1#64 <<< 12)) &&& ~~~ 0xfff#64
    eptL3Root := slot ((slot b lpaeL1Size + (1#64 <<< 12)) &&& ~~~ 0xfff#64) lpaeL2Size }
  have h3 : s₀.eptL3Root = slot b 2560 :=
    (congrArg (slot · lpaeL2Size) hroot).trans (slot_slot b 512 2048)
  have hloop := fold_invariant (I := fun _ t => OnlyTables b s₀ t) 4 s₀ (.refl b s₀)
    (f := fun k t => Ept.fillL1 b k t) (fun k hk t ht => ht.fillL1 hroot h3 hk)
  have heq : guestEptInit b s = { Nat.fold 4 (fun k _ t => Ept.fillL1 b k t) s₀ with vttbr := b } :=
    rfl
  rw [heq]
  exact hloop.mem a hout

end Builder

/-! ### The tables while the rest of memory changes -/

section Tables

variable {b : Word} {s t : State}

/-- Complete tables stay complete when none of their words changes. -/
theorem built_congr (h : Built b s 4 2048 1048576) (h2 : t.eptL2Root = s.eptL2Root)
    (h3 : t.eptL3Root = s.eptL3Root) (hg : t.gpa = s.gpa)
    (hmem : ∀ i < 1051136, t.mem (slot b i) = s.mem (slot b i)) : Built b t 4 2048 1048576 where
  l2Root := h2.trans h.l2Root
  l3Root := h3.trans h.l3Root
  gpa := hg.trans h.gpa
  l1 := fun i hi => (hmem i (by omega)).trans (h.l1 i hi)
  l2 := fun i hi => by
    have hl2 := h.l2 i hi
    rw [slot_slot] at hl2 ⊢
    exact (hmem _ (by omega)).trans hl2
  l3 := fun i hi => by
    have hl3 := h.l3 i hi
    rw [slot_slot] at hl3 ⊢
    exact (hmem _ (by omega)).trans hl3

/-- The walk reads entries of the first two levels. -/
theorem walk_congr (ha : b.toNat % 16384 = 0) (hb : b.toNat + tableSize ≤ 2 ^ 48)
    (h : Built b s 4 2048 1048576) {m : WordMemory} (hmem : ∀ i < 2560, m (slot b i) = s.mem (slot b i))
    (gpa : Word) : walk m b gpa = walk s.mem b gpa := by
  have h1 : ((⟨30, 2⟩ : Lib.Field).get gpa).toNat < 4 := BitVec.isLt _
  have h2 : ((⟨21, 9⟩ : Lib.Field).get gpa).toNat < 512 := BitVec.isLt _
  generalize hi : ((⟨30, 2⟩ : Lib.Field).get gpa).toNat = i at h1
  generalize hj : ((⟨21, 9⟩ : Lib.Field).get gpa).toNat = j at h2
  have hnext : nextTable (s.mem (slot b i)) = some (slot b (512 * (1 + i))) := by
    have heq : 512 + 512 * i = 512 * (1 + i) := by omega
    rw [h.l1 i h1]
    simp only [heq]
    exact nextTable_slot hb ha (by omega)
  unfold walk
  rw [hi, hj, hmem i (by omega), hnext, Option.bind_eq_bind, Option.bind_some, Option.bind_some,
    slot_slot, hmem _ (by omega)]

/-- Every entry of the table lets the guest through, until its access bits are taken away. -/
theorem af_built (h : Built b s 4 2048 1048576) {gpa : Word} (hg : gpa.toNat < 2 ^ 32) :
    P2m.af.get (s.mem (getEptEntry s gpa)) = 1 := by
  have hpage : (BitVec.ofNat 64 (4096 * (gpa.toNat / 4096))).toNat = 4096 * (gpa.toNat / 4096) := by
    rw [BitVec.toNat_ofNat, Nat.mod_eq_of_lt (by omega)]
  have hlow : P2m.af.get (BitVec.ofNat 64 (4096 * (gpa.toNat / 4096))) = 0 :=
    P2m.af.get_eq_zero_of_dvd (k := 12) _ (by rw [hpage]; omega) (by decide)
  unfold getEptEntry
  rw [toNat_pageNum, h.l3Root, h.l3 _ (by omega)]
  simp only
  rw [pageEntry_eq, Field.get_or, hlow]
  cases isInMemory (BitVec.ofNat 64 (4096 * (gpa.toNat / 4096))) <;> rfl

/-- The pages of `P` have lost their access bits, and nothing else has changed. -/
structure Revoked (b : Word) (s t : State) (P : Nat → Prop) : Prop where
  l3Root : t.eptL3Root = slot b 2560
  vttbr : t.vttbr = s.vttbr
  taken : ∀ p < 1048576, P p → P2m.read.get (t.mem (slot b (2560 + p))) = 0 ∧
    P2m.write.get (t.mem (slot b (2560 + p))) = 0
  kept : ∀ a : Word, (∀ p < 1048576, P p → a ≠ slot b (2560 + p)) → t.mem a = s.mem a

theorem revoked_nothing (h : s.eptL3Root = slot b 2560) : Revoked b s s (fun _ => False) :=
  ⟨h, rfl, fun _ _ h => h.elim, fun _ _ => rfl⟩

theorem Revoked.congr {P Q : Nat → Prop} (h : Revoked b s t P) (hpq : ∀ p, P p ↔ Q p) :
    Revoked b s t Q :=
  ⟨h.l3Root, h.vttbr, fun p hp hq => h.taken p hp ((hpq p).mpr hq),
    fun a ha => h.kept a fun p hp hpp => ha p hp ((hpq p).mp hpp)⟩

theorem Revoked.revoke {P : Nat → Prop} (h : Revoked b s t P) (hb : b.toNat + tableSize ≤ 2 ^ 48)
    {a : Word} (ha : a.toNat < 2 ^ 32) :
    Revoked b s (revoke t (getEptEntry t a)) (fun p => P p ∨ p = a.toNat / 4096) := by
  have hentry : getEptEntry t a = slot b (2560 + a.toNat / 4096) := by
    unfold getEptEntry
    rw [h.l3Root, slot_slot, toNat_pageNum]
  rw [hentry]
  refine ⟨h.l3Root, h.vttbr, fun p hp hor => ?_, fun c hc => ?_⟩
  · by_cases hpa : p = a.toNat / 4096
    · rw [hpa]
      exact revoke_self t _
    · have hne : slot b (2560 + p) ≠ slot b (2560 + a.toNat / 4096) :=
        slot_inj hb (by omega) (by omega) (by omega)
      rw [revoke_of_ne hne]
      exact h.taken p hp (hor.resolve_right hpa)
  · rw [revoke_of_ne (hc _ (by omega) (.inr rfl))]
    exact h.kept c fun p hp hpp => hc p hp (.inl hpp)

/-- The loop over the sixteen pages of a device. -/
theorem Revoked.mmioMap {P : Nat → Prop} (h : Revoked b s t P) (hb : b.toNat + tableSize ≤ 2 ^ 48)
    {area : Word} (hal : area.toNat % 4096 = 0) (ha : area.toNat + 0x10000 ≤ 2 ^ 32) :
    Revoked b s (mmioMap area t)
      (fun p => P p ∨ area.toNat / 4096 ≤ p ∧ p < area.toNat / 4096 + 16) := by
  refine fold_invariant (I := fun k u => Revoked b s u
    (fun p => P p ∨ area.toNat / 4096 ≤ p ∧ p < area.toNat / 4096 + k)) 16 t ?_ (fun k hk u hu => ?_)
  · exact h.congr fun p => (or_iff_left (by omega)).symm
  · have hpage : (area + 0x1000 * BitVec.ofNat 64 k).toNat = area.toNat + 0x1000 * k := by
      have h1000 : (0x1000 : Word).toNat = 0x1000 := rfl
      rw [BitVec.toNat_add, BitVec.toNat_mul, BitVec.toNat_ofNat, h1000]
      omega
    refine (hu.revoke hb (a := area + 0x1000 * BitVec.ofNat 64 k) (by omega)).congr fun p => ?_
    rw [hpage, or_assoc]
    exact or_congr_right (by omega)

end Tables

/-! ### Accesses of the guest -/

section Accesses

variable {t : State} {ipa e : Word}

/-- The frame of a page and the offset in it. -/
theorem joined_page {base : BitVec 36} (h : base.toNat = ipa.toNat / 4096) :
    base.setWidth 64 <<< 12 ||| ((⟨0, 12⟩ : Field).get ipa).setWidth 64 = ipa := by
  have hipa := ipa.isLt
  have hb := base.isLt
  have hbase : (base.setWidth 64).toNat = ipa.toNat / 4096 := by
    rw [BitVec.toNat_setWidth, h, Nat.mod_eq_of_lt (by omega)]
  have hlow : (((⟨0, 12⟩ : Field).get ipa).setWidth 64).toNat = ipa.toNat % 4096 := by
    rw [BitVec.toNat_setWidth, Field.toNat_get]
    simp only [pow_zero, Nat.div_one]
    omega
  apply BitVec.eq_of_toNat_eq
  rw [BitVec.toNat_or, BitVec.toNat_shiftLeft, hbase, hlow, Nat.mod_eq_of_lt
    (by rw [Nat.shiftLeft_eq]; omega), ← Nat.shiftLeft_add_eq_or_of_lt (by omega), Nat.shiftLeft_eq]
  omega

theorem guestAccess_mapped (hg : ipa.toNat < 2 ^ 32) (hwalk : walk t.mem t.vttbr ipa = some e)
    {inMemory : Bool} (hmaps : MapsPage (t.mem e) (ipa.toNat / 4096) inMemory)
    (haf : P2m.af.get (t.mem e) = 1) (direction : Direction) :
    guestAccess vtcrVal t direction ipa = some ipa := by
  have hperm : direction.permitted (t.mem e) = true := by
    cases direction with
    | read => exact decide_eq_true hmaps.read
    | write => exact decide_eq_true hmaps.write
  rw [guestAccess, if_pos ⟨rfl, rfl, rfl, hg⟩, hwalk, Option.bind_eq_bind, Option.bind_some,
    if_pos ⟨hmaps.valid, hmaps.table, haf, hperm⟩]
  exact congrArg some (joined_page hmaps.base)

theorem guestAccess_revoked (hwalk : walk t.mem t.vttbr ipa = some e)
    (hr : P2m.read.get (t.mem e) = 0) (hw : P2m.write.get (t.mem e) = 0) (direction : Direction) :
    guestAccess vtcrVal t direction ipa = none := by
  have hperm : ¬ direction.permitted (t.mem e) = true := by
    cases direction with
    | read => exact fun h => absurd (hr.symm.trans (of_decide_eq_true h)) (by decide)
    | write => exact fun h => absurd (hw.symm.trans (of_decide_eq_true h)) (by decide)
  rw [guestAccess]
  by_cases hcfg : (⟨0, 6⟩ : Field).get vtcrVal = 32 ∧ (⟨6, 2⟩ : Field).get vtcrVal = 1 ∧
      (⟨14, 2⟩ : Field).get vtcrVal = 0 ∧ ipa.toNat < 2 ^ 32
  · rw [if_pos hcfg, hwalk, Option.bind_eq_bind, Option.bind_some, if_neg fun h => hperm h.2.2.2]
  · rw [if_neg hcfg]

end Accesses

/-! ### Images -/

section Images

variable {s : State} {start stop dst top b : Word} {room : Nat}

/-- An image that the linker put below `top`, with room for it at its destination. -/
structure Image (top start stop : Word) (room : Nat) : Prop where
  ordered : start.toNat ≤ stop.toNat
  below : stop.toNat ≤ top.toNat
  fits : stop.toNat - start.toNat ≤ room

theorem Image.size (h : Image top start stop room) :
    (stop - start).toNat = stop.toNat - start.toNat := BitVec.toNat_sub_of_le h.ordered

/-- A byte of an image is below the tables, and its copy within the room for it. -/
theorem Image.bounds (h : Image top start stop room) {i : Nat} (hi : i < (stop - start).toNat) :
    (cell start i).toNat < top.toNat ∧ i < room := by
  have htop := top.isLt
  have hord := h.ordered
  have hbelow := h.below
  have hfits := h.fits
  rw [h.size] at hi
  rw [toNat_cell (by omega)]
  omega

theorem copied_copyImage (h : Image top start stop room) (htop : top.toNat ≤ dst.toNat)
    (hd : dst.toNat + room ≤ 2 ^ 64) :
    Copied s.mem (copyImage start stop dst s).mem dst start (stop - start).toNat := by
  have hsize := h.size
  have hord := h.ordered
  have hbelow := h.below
  have hfits := h.fits
  exact copied_memcpy s.mem (by omega) (by omega)

theorem load_copied (h : Image top start stop room) (htop : top.toNat ≤ dst.toNat)
    (hd : dst.toNat + room ≤ 2 ^ 64) {i : Nat} (hi : i < (stop - start).toNat) :
    load (copyImage start stop dst s).mem (cell dst i) = load s.mem (cell start i) := by
  have hsize := h.size
  have hord := h.ordered
  have hbelow := h.below
  have hfits := h.fits
  rw [(copied_copyImage h htop hd).inside (by omega) hi, origin_of_apart (.inr (by omega)) hi]

theorem load_not_copied (h : Image top start stop room) (hd : dst.toNat + room ≤ 2 ^ 64)
    (htop : top.toNat ≤ dst.toNat) {a : Word}
    (ha : a.toNat < dst.toNat ∨ dst.toNat + room ≤ a.toNat) :
    load (copyImage start stop dst s).mem a = load s.mem a := by
  have hsize := h.size
  have hfits := h.fits
  refine (copied_copyImage h htop hd).outside ?_
  rw [mem_span]
  omega

/-- Tables below the destination stay as they are. -/
theorem built_copyImage (h : Image top start stop room) (hd : dst.toNat + room ≤ 2 ^ 64)
    (htop : top.toNat ≤ dst.toNat) (ha : b.toNat % 16384 = 0)
    (hlow : b.toNat + tableSize ≤ dst.toNat) (hb : b.toNat + tableSize ≤ 2 ^ 48)
    (hbuilt : Built b s 4 2048 1048576) : Built b (copyImage start stop dst s) 4 2048 1048576 := by
  refine built_congr hbuilt rfl rfl rfl fun i hi => ?_
  have hn := toNat_slot_le hb hi
  simp only [tableSize, lpaeL3Size, lpaeL2Size, lpaeL1Size, lpaeEntries] at hlow
  refine word_eq_of_bytes (by omega) fun k hk => ?_
  refine load_not_copied h hd htop (.inl ?_)
  rw [toNat_cell (by omega)]
  omega

end Images

/-! ### The whole of `hyper_main` -/

section HyperMain

variable {l : Symbols} {s : State}

/-- The layout of a hypervisor that ends with its tables below the page of the test, and
images that fit where they go. -/
structure Fits (l : Symbols) : Prop where
  aligned : l.eptL1.toNat % 16384 = 0
  low : l.eptL1.toNat + tableSize ≤ 0x50000000
  dtb : Image l.eptL1 l.gusetDtbStart l.gusetDtbEnd 0x200000
  bin : Image l.eptL1 l.gusetBinStart l.gusetBinEnd 0x7e00000
  fs : Image l.eptL1 l.gusetFsStart l.gusetFsEnd 0x8000000

/-- The pages that trap. -/
def Trapped (p : Nat) : Prop := 0x8000 ≤ p ∧ p < 0x8020 ∨ p = 0x50000

/-- Memory after the three copies. -/
def copied (l : Symbols) (s : State) : State :=
  copyFs l (copyGuest l (copyDtb l (guestEptInit l.eptL1 s)))

theorem built_copied (h : Fits l) (s : State) : Built l.eptL1 (copied l s) 4 2048 1048576 := by
  have hlow := h.low
  have hdtb : guestDtbStart.toNat = 0x70000000 := rfl
  have hbin : guestKernelStart.toNat = 0x70200000 := rfl
  have hfs : guestFsStart.toNat = 0x78000000 := rfl
  have h0 := built_guestEptInit h.aligned (by omega) s
  have h1 : Built l.eptL1 (copyDtb l _) 4 2048 1048576 :=
    built_copyImage h.dtb (by omega) (by omega) h.aligned (by omega) (by omega) h0
  have h2 : Built l.eptL1 (copyGuest l _) 4 2048 1048576 :=
    built_copyImage h.bin (by omega) (by omega) h.aligned (by omega) (by omega) h1
  exact built_copyImage h.fs (by omega) (by omega) h.aligned (by omega) (by omega) h2

theorem revoked_hyperMain (h : Fits l) (s : State) :
    ∃ t, Revoked l.eptL1 (copied l s) t Trapped ∧ hyperMain l s = t.store 0x50000000 0x1234 := by
  have hlow := h.low
  have hd : mmioAreaGicd.toNat = 0x8000000 := rfl
  have hc : mmioAreaGicc.toNat = 0x8010000 := rfl
  have ht : mmioArrea.toNat = 0x50000000 := rfl
  have h0 := revoked_nothing (built_copied h s).l3Root
  have h1 : Revoked l.eptL1 (copied l s) (mmioMapGicd (copied l s)) _ :=
    h0.mmioMap (by omega) (by omega) (by omega)
  have h2 : Revoked l.eptL1 (copied l s) (mmioMapGicc (mmioMapGicd (copied l s))) _ :=
    h1.mmioMap (by omega) (by omega) (by omega)
  have h3 := h2.revoke (by omega) (a := mmioArrea) (by omega)
  refine ⟨_, h3.congr fun p => ?_, rfl⟩
  simp only [hd, hc, ht, Trapped, false_or]
  omega

/-- The last store hits neither a table nor what was copied. -/
theorem hyperMain_word {t : State} (ht : hyperMain l s = t.store 0x50000000 0x1234) {a : Word}
    (ha : a.toNat ≠ 0x50000000) : (hyperMain l s).mem a = t.mem a := by
  have hne : a ≠ 0x50000000 := fun heq => ha (congrArg BitVec.toNat heq)
  rw [ht]
  exact Function.update_of_ne hne _ _

theorem walk_hyperMain (h : Fits l) (s : State) {ipa : Word} (hg : ipa.toNat < 2 ^ 32) :
    walk (hyperMain l s).mem (hyperMain l s).vttbr ipa =
      some (slot l.eptL1 (2560 + ipa.toNat / 4096)) := by
  have hlow := h.low
  have hb : l.eptL1.toNat + tableSize ≤ 2 ^ 48 := by omega
  obtain ⟨t, hrev, ht⟩ := revoked_hyperMain h s
  have hbuilt := built_copied h s
  have hroot : (hyperMain l s).vttbr = l.eptL1 := by
    rw [ht]
    exact hrev.vttbr
  have hsame : ∀ i < 2560, (hyperMain l s).mem (slot l.eptL1 i) = (copied l s).mem (slot l.eptL1 i) := by
    intro i hi
    have hn := toNat_slot_le hb (i := i) (by omega)
    unfold tableSize lpaeL3Size lpaeL2Size lpaeL1Size lpaeEntries at hlow
    rw [hyperMain_word ht (by omega)]
    exact hrev.kept _ fun p hp _ => slot_inj hb (by omega) (by omega) (by omega)
  rw [hroot, walk_congr h.aligned hb hbuilt hsame, walk_built hb h.aligned hbuilt hg]
  unfold getEptEntry
  rw [hbuilt.l3Root, slot_slot, toNat_pageNum]

/-- The two kinds of entries that the guest meets. -/
theorem entry_hyperMain (h : Fits l) (s : State) {ipa : Word} (hg : ipa.toNat < 2 ^ 32) :
    (Trapped (ipa.toNat / 4096) →
      P2m.read.get ((hyperMain l s).mem (slot l.eptL1 (2560 + ipa.toNat / 4096))) = 0 ∧
      P2m.write.get ((hyperMain l s).mem (slot l.eptL1 (2560 + ipa.toNat / 4096))) = 0) ∧
    (¬ Trapped (ipa.toNat / 4096) →
      MapsPage ((hyperMain l s).mem (slot l.eptL1 (2560 + ipa.toNat / 4096))) (ipa.toNat / 4096)
        (isInMemory ipa) ∧
      P2m.af.get ((hyperMain l s).mem (slot l.eptL1 (2560 + ipa.toNat / 4096))) = 1) := by
  have hlow := h.low
  have hb : l.eptL1.toNat + tableSize ≤ 2 ^ 48 := by omega
  obtain ⟨t, hrev, ht⟩ := revoked_hyperMain h s
  have hbuilt := built_copied h s
  have hn := toNat_slot_le hb (i := 2560 + ipa.toNat / 4096) (by omega)
  have hentry : getEptEntry (copied l s) ipa = slot l.eptL1 (2560 + ipa.toNat / 4096) := by
    unfold getEptEntry
    rw [hbuilt.l3Root, slot_slot, toNat_pageNum]
  unfold tableSize lpaeL3Size lpaeL2Size lpaeL1Size lpaeEntries at hlow
  rw [hyperMain_word ht (by omega)]
  refine ⟨fun htrap => hrev.taken _ (by omega) htrap, fun htrap => ?_⟩
  have hkept : t.mem (slot l.eptL1 (2560 + ipa.toNat / 4096)) =
      (copied l s).mem (getEptEntry (copied l s) ipa) := by
    rw [hentry]
    refine hrev.kept _ fun p hp hpt => slot_inj hb (by omega) (by omega) ?_
    intro heq
    exact htrap (by rwa [show ipa.toNat / 4096 = p by omega])
  rw [hkept]
  exact ⟨entry_built hbuilt hg, af_built hbuilt hg⟩

/-- What the copies put above the tables is still there. -/
theorem load_hyperMain (h : Fits l) (s : State) {a : Word} (ha : 0x70000000 ≤ a.toNat) :
    load (hyperMain l s).mem a = load (copied l s).mem a := by
  have hlow := h.low
  have hb : l.eptL1.toNat + tableSize ≤ 2 ^ 48 := by omega
  obtain ⟨t, hrev, ht⟩ := revoked_hyperMain h s
  have hw := toNat_wordAt a
  refine congrArg (byteField a).get ?_
  rw [hyperMain_word ht (by omega)]
  refine hrev.kept _ fun p hp _ heq => ?_
  have hn := toNat_slot_le hb (i := 2560 + p) (by omega)
  unfold tableSize lpaeL3Size lpaeL2Size lpaeL1Size lpaeEntries at hlow
  rw [← heq] at hn
  omega

/-- The images are below the tables, so the builder leaves them. -/
theorem load_guestEptInit (h : Fits l) (s : State) {a : Word} (ha : a.toNat < l.eptL1.toNat) :
    load (guestEptInit l.eptL1 s).mem a = load s.mem a := by
  have hlow := h.low
  have hb : l.eptL1.toNat + tableSize ≤ 2 ^ 48 := by omega
  have hw := toNat_wordAt a
  refine congrArg (byteField a).get (guestEptInit_frame h.aligned hb s fun i hi heq => ?_)
  have hn := toNat_slot_le hb hi
  rw [← heq] at hn
  omega

section Load

variable (h : Fits l) (s : State)
include h

theorem dtb_copied {i : Nat} (hi : i < (l.gusetDtbEnd - l.gusetDtbStart).toNat) :
    load (copied l s).mem (cell guestDtbStart i) = load s.mem (cell l.gusetDtbStart i) := by
  have hlow := h.low
  obtain ⟨hsrc, hroom⟩ := h.dtb.bounds hi
  have hdtb : guestDtbStart.toNat = 0x70000000 := rfl
  have hbin : guestKernelStart.toNat = 0x70200000 := rfl
  have hfs : guestFsStart.toNat = 0x78000000 := rfl
  have ha := toNat_cell (a := guestDtbStart) (i := i) (by omega)
  calc load (copied l s).mem (cell guestDtbStart i)
      = load (copyGuest l (copyDtb l (guestEptInit l.eptL1 s))).mem (cell guestDtbStart i) :=
        load_not_copied h.fs (by omega) (by omega) (.inl (by omega))
    _ = load (copyDtb l (guestEptInit l.eptL1 s)).mem (cell guestDtbStart i) :=
        load_not_copied h.bin (by omega) (by omega) (.inl (by omega))
    _ = load (guestEptInit l.eptL1 s).mem (cell l.gusetDtbStart i) :=
        load_copied h.dtb (by omega) (by omega) hi
    _ = load s.mem (cell l.gusetDtbStart i) := load_guestEptInit h s (by omega)

theorem kernel_copied {i : Nat} (hi : i < (l.gusetBinEnd - l.gusetBinStart).toNat) :
    load (copied l s).mem (cell guestKernelStart i) = load s.mem (cell l.gusetBinStart i) := by
  have hlow := h.low
  obtain ⟨hsrc, hroom⟩ := h.bin.bounds hi
  have hdtb : guestDtbStart.toNat = 0x70000000 := rfl
  have hbin : guestKernelStart.toNat = 0x70200000 := rfl
  have hfs : guestFsStart.toNat = 0x78000000 := rfl
  have ha := toNat_cell (a := guestKernelStart) (i := i) (by omega)
  calc load (copied l s).mem (cell guestKernelStart i)
      = load (copyGuest l (copyDtb l (guestEptInit l.eptL1 s))).mem (cell guestKernelStart i) :=
        load_not_copied h.fs (by omega) (by omega) (.inl (by omega))
    _ = load (copyDtb l (guestEptInit l.eptL1 s)).mem (cell l.gusetBinStart i) :=
        load_copied h.bin (by omega) (by omega) hi
    _ = load (guestEptInit l.eptL1 s).mem (cell l.gusetBinStart i) :=
        load_not_copied h.dtb (by omega) (by omega) (.inl (by omega))
    _ = load s.mem (cell l.gusetBinStart i) := load_guestEptInit h s (by omega)

theorem fs_copied {i : Nat} (hi : i < (l.gusetFsEnd - l.gusetFsStart).toNat) :
    load (copied l s).mem (cell guestFsStart i) = load s.mem (cell l.gusetFsStart i) := by
  have hlow := h.low
  obtain ⟨hsrc, -⟩ := h.fs.bounds hi
  have hdtb : guestDtbStart.toNat = 0x70000000 := rfl
  have hbin : guestKernelStart.toNat = 0x70200000 := rfl
  have hfs : guestFsStart.toNat = 0x78000000 := rfl
  calc load (copied l s).mem (cell guestFsStart i)
      = load (copyGuest l (copyDtb l (guestEptInit l.eptL1 s))).mem (cell l.gusetFsStart i) :=
        load_copied h.fs (by omega) (by omega) hi
    _ = load (copyDtb l (guestEptInit l.eptL1 s)).mem (cell l.gusetFsStart i) :=
        load_not_copied h.bin (by omega) (by omega) (.inl (by omega))
    _ = load (guestEptInit l.eptL1 s).mem (cell l.gusetFsStart i) :=
        load_not_copied h.dtb (by omega) (by omega) (.inl (by omega))
    _ = load s.mem (cell l.gusetFsStart i) := load_guestEptInit h s (by omega)

/-- Below 4 GiB the guest reaches every address except those of the pages that trap, and
reaches itself there. -/
theorem guestAccess_hyperMain {ipa : Word} (hg : ipa.toNat < 2 ^ 32) (direction : Direction) :
    (Trapped (ipa.toNat / 4096) → guestAccess vtcrVal (hyperMain l s) direction ipa = none) ∧
    (¬ Trapped (ipa.toNat / 4096) →
      guestAccess vtcrVal (hyperMain l s) direction ipa = some ipa) := by
  have hwalk := walk_hyperMain h s hg
  obtain ⟨htrap, hmap⟩ := entry_hyperMain h s hg
  refine ⟨fun ht => ?_, fun ht => ?_⟩
  · obtain ⟨hr, hw⟩ := htrap ht
    exact guestAccess_revoked hwalk hr hw direction
  · obtain ⟨hmaps, haf⟩ := hmap ht
    exact guestAccess_mapped hg hwalk hmaps haf direction

/-- The guest's loads of what was copied for it. -/
theorem guestLoad_hyperMain {a : Word} (ha : 0x70000000 ≤ a.toNat) (hg : a.toNat < 2 ^ 32) {v : BitVec 8}
    (hv : load (copied l s).mem a = v) : guestLoad (hyperMain l s) a = some v := by
  have hfree : ¬ Trapped (a.toNat / 4096) := by
    unfold Trapped
    omega
  unfold guestLoad
  rw [(guestAccess_hyperMain h s hg .read).2 hfree, Option.map_some, load_hyperMain h s ha, hv]

end Load

end HyperMain

/-- After the set-up of `hyper_main`, a guest that loads from the addresses of its kernel, its
device tree and its file system through the stage-2 tables gets the bytes of the images as they
were linked, from memory that it may also execute; its accesses below 4 GiB trap exactly in
the pages of the interrupt controller and in the test page, and go to the same address
elsewhere. -/
theorem guest_sees_images (l : Symbols) (h : Fits l) (s : State) :
    (∀ i < (l.gusetBinEnd - l.gusetBinStart).toNat,
      guestLoad (hyperMain l s) (cell guestKernelStart i) =
        some (load s.mem (cell l.gusetBinStart i))) ∧
    (∀ i < (l.gusetDtbEnd - l.gusetDtbStart).toNat,
      guestLoad (hyperMain l s) (cell guestDtbStart i) =
        some (load s.mem (cell l.gusetDtbStart i))) ∧
    (∀ i < (l.gusetFsEnd - l.gusetFsStart).toNat,
      guestLoad (hyperMain l s) (cell guestFsStart i) =
        some (load s.mem (cell l.gusetFsStart i))) ∧
    (∀ ipa : Word, guestRamStart ≤ ipa → ipa < guestRamEnd → ipa.toNat / 4096 ≠ 0x50000 →
      ∃ e, walk (hyperMain l s).mem (hyperMain l s).vttbr ipa = some e ∧
        MapsPage ((hyperMain l s).mem e) (ipa.toNat / 4096) true) ∧
    (∀ (ipa : Word) (direction : Direction), ipa.toNat < 2 ^ 32 →
      (guestAccess vtcrVal (hyperMain l s) direction ipa = none ↔
        InGicd ipa ∨ InGicc ipa ∨ ipa.toNat / 4096 = 0x50000) ∧
      ∀ pa, guestAccess vtcrVal (hyperMain l s) direction ipa = some pa → pa = ipa) := by
  have hdtb : guestDtbStart.toNat = 0x70000000 := rfl
  have hbin : guestKernelStart.toNat = 0x70200000 := rfl
  have hfs : guestFsStart.toNat = 0x78000000 := rfl
  refine ⟨fun i hi => ?_, fun i hi => ?_, fun i hi => ?_, fun ipa hlo hhi hpage => ?_,
    fun ipa direction hg => ?_⟩
  · obtain ⟨-, hroom⟩ := h.bin.bounds hi
    have ha := toNat_cell (a := guestKernelStart) (i := i) (by omega)
    exact guestLoad_hyperMain h s (by omega) (by omega) (kernel_copied h s hi)
  · obtain ⟨-, hroom⟩ := h.dtb.bounds hi
    have ha := toNat_cell (a := guestDtbStart) (i := i) (by omega)
    exact guestLoad_hyperMain h s (by omega) (by omega) (dtb_copied h s hi)
  · obtain ⟨-, hroom⟩ := h.fs.bounds hi
    have ha := toNat_cell (a := guestFsStart) (i := i) (by omega)
    exact guestLoad_hyperMain h s (by omega) (by omega) (fs_copied h s hi)
  · have hlo' : 0x40000000 ≤ ipa.toNat := hlo
    have hhi' : ipa.toNat < 0x80000000 := hhi
    have hfree : ¬ Trapped (ipa.toNat / 4096) := by
      unfold Trapped
      omega
    have hin : isInMemory ipa = true := by
      rw [isInMemory_eq]
      exact decide_eq_true ⟨hlo', hhi'⟩
    have hentry := ((entry_hyperMain h s (by omega)).2 hfree).1
    rw [hin] at hentry
    exact ⟨_, walk_hyperMain h s (by omega), hentry⟩
  · obtain ⟨htrap, hmap⟩ := guestAccess_hyperMain h s hg direction
    have hiff : InGicd ipa ∨ InGicc ipa ∨ ipa.toNat / 4096 = 0x50000 ↔
        Trapped (ipa.toNat / 4096) := by
      rw [inGicd_iff, inGicc_iff, Trapped]
      omega
    rw [hiff]
    by_cases ht : Trapped (ipa.toNat / 4096)
    · rw [htrap ht]
      exact ⟨iff_of_true rfl ht, fun pa hpa => nomatch hpa⟩
    · rw [hmap ht]
      exact ⟨iff_of_false (Option.some_ne_none ipa) ht, fun pa hpa => (Option.some.inj hpa).symm⟩

/-- The files of the repository behind a kernel of 16 MiB, in a memory where each word is its
own address. -/
theorem guest_sees_images_linux :
    let l : Symbols := ⟨0x40090000, 0x41090000, 0x41090000, 0x41091ddb, 0x41092000, 0x41143688, 0x41180000⟩
    guestLoad (hyperMain l ⟨fun a => a, 0, 0, 0, 0⟩) (cell guestKernelStart 2) = some 0x09 := by
  intro l
  have hfits : Fits l := by
    refine ⟨by decide, by decide, ⟨by decide, by decide, by decide⟩,
      ⟨by decide, by decide, by decide⟩, ⟨by decide, by decide, by decide⟩⟩
  have hbyte := (guest_sees_images l hfits ⟨fun a => a, 0, 0, 0, 0⟩).1 2 (by decide)
  exact hbyte.trans (by decide)

end Dmos.Proofs.GuestImage
