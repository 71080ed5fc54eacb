import Dmos.Frame
import Dmos.Lib.BitField
import Dmos.Lib.Table

namespace Dmos.Mmu
open Lib

/-! ### `mem/mmu.h` and `sys/tcr.h` -/

def pteAidxDevice : Word := 0#64 <<< 2
def pteAidxMemory : Word := 1#64 <<< 2
def apEl0 : Word := 1#64 <<< 6
def pteSh : Word := 0b11#64 <<< 8
def pteRw : Word := 0#64 <<< 7
def af : Word := 1#64 <<< 10
def mmTypeBlock : Word := 0b01

def pteNormalMemory : Word := mmTypeBlock ||| pteAidxMemory ||| pteSh ||| af ||| pteRw
def pteDeviceMemory : Word := mmTypeBlock ||| pteAidxDevice ||| pteSh ||| af ||| pteRw

def mairValue : Word := (0x00#64 <<< (8 * 0)) ||| (0xff#64 <<< (8 * 1)) ||| (0x44#64 <<< (8 * 2))

/-- `TCR_EL1`: regions of 48 bits and granules of 4 KiB on both sides. -/
def tcrEl1 : Word := (16#64 &&& 0x3f) ||| ((16#64 &&& 0x3f) <<< 16) ||| ((0#64 &&& 3) <<< 14) |||
  ((2#64 &&& 3) <<< 30)

def tcrEl2 : Word := (16#64 &&& 0x3f) ||| ((0#64 &&& 3) <<< 14)

/-! ### `mem/page.c` -/

/-- The addresses of the four tables. -/
structure Tables where
  pt0 : Word
  pt1 : Word
  highPt0 : Word
  highPt1 : Word

/-- `memset` of a table to zero. -/
def memset (m : WordMemory) (dst : Word) : WordMemory := memcpy m dst 512 fun _ => 0

def store (m : WordMemory) (table : Word) (i : Nat) (v : Word) : WordMemory :=
  Function.update m (slot table i) v

/-- `PXN` is `1 << 53`, a shift of an `int` by more than its width, so `pxn` stands for what
the compiler makes of it. -/
def initPageTable (t : Tables) (pxn : Word) (m : WordMemory) : WordMemory :=
  let m := memset m t.pt0
  let m := memset m t.pt1
  let m := memset m t.highPt0
  let m := memset m t.highPt1
  let m := store m t.pt0 0 (t.pt1 + 0b11)
  let m := store m t.pt1 0 (0x00000000 ||| pteDeviceMemory)
  let m := store m t.pt1 1 (0x40000000 ||| pteNormalMemory)
  let m := store m t.pt1 2 (0x80000000 ||| pteNormalMemory ||| apEl0 ||| pxn)
  let m := store m t.pt1 3 (0xc0000000 ||| pteNormalMemory ||| apEl0 ||| pxn)
  let m := store m t.highPt0 0 (t.highPt1 + 0b11)
  let m := store m t.highPt1 0 (0x00000000 ||| pteDeviceMemory)
  let m := store m t.highPt1 1 (0x40000000 ||| pteNormalMemory)
  let m := store m t.highPt1 2 (0x80000000 ||| pteNormalMemory)
  store m t.highPt1 3 (0xc0000000 ||| pteNormalMemory)

structure Regs where
  ttbr0El1 : Word
  ttbr1El1 : Word
  tcrEl1 : Word
  mairEl1 : Word
  sctlrEl1 : Word
  ttbr0El2 : Word
  tcrEl2 : Word
  mairEl2 : Word
  sctlrEl2 : Word

def initMmu (x0 x1 : Word) (r : Regs) : Regs :=
  let r := { r with ttbr0El1 := x0, ttbr1El1 := x1 }
  let r := { r with tcrEl1 := tcrEl1 }
  let r := { r with mairEl1 := mairValue }
  { r with sctlrEl1 := r.sctlrEl1 ||| (1#64 <<< 0) }

/-- The macro `enable_mmu`: M, nAA, C and I on, and A, SA0 and SA off. -/
def enableMmuMacro (sctlr : Word) : Word :=
  let tmp := sctlr ||| (1#64 <<< 0)
  let tmp := tmp &&& ~~~ (1#64 <<< 1)
  let tmp := tmp &&& ~~~ (1#64 <<< 4)
  let tmp := tmp &&& ~~~ (1#64 <<< 3)
  let tmp := tmp ||| (1#64 <<< 6)
  let tmp := tmp ||| (1#64 <<< 2)
  tmp ||| (1#64 <<< 12)

def initMmuEl2 (x0 : Word) (r : Regs) : Regs :=
  let r := { r with ttbr0El2 := x0 }
  let r := { r with tcrEl2 := tcrEl2 }
  let r := { r with mairEl2 := mairValue }
  { r with sctlrEl2 := enableMmuMacro r.sctlrEl2 }

def enableMmu (t : Tables) : Regs → Regs := initMmu t.pt0 t.highPt0

def enableMmuEl2 (t : Tables) : Regs → Regs := initMmuEl2 t.pt0

/-! ### The translation that the architecture makes of it -/

namespace Pt
/-! The bit fields of `lpae_pt_t` that a walk reads. -/

def valid : Field := ⟨0, 1⟩
def table : Field := ⟨1, 1⟩
def ai : Field := ⟨2, 3⟩
def user : Field := ⟨6, 1⟩
def ro : Field := ⟨7, 1⟩
def sh : Field := ⟨8, 2⟩
def af : Field := ⟨10, 1⟩
def base : Field := ⟨12, 36⟩
def pxn : Field := ⟨53, 1⟩
def xn : Field := ⟨54, 1⟩

end Pt

inductive Fault where
  | translation (level : Nat)
  | addressSize (level : Nat)
  | accessFlag (level : Nat)
  /-- No fault of the architecture: a granule or a size of the region that `stageOne` is not
  the translation of. -/
  | unsupported
  deriving DecidableEq, Repr

/-- What an access through a mapping meets: the address, the attribute byte that `MAIR`
gives it, and the permissions. -/
structure Mapping where
  pa : Word
  attr : BitVec 8
  sh : BitVec 2
  user : Bool
  ro : Bool
  pxn : Bool
  xn : Bool
  deriving DecidableEq, Repr

/-- The size of a physical address, by `IPS` or `PS`. -/
def paBits (ps : BitVec 3) : Nat :=
  match ps.toNat with
  | 0 => 32
  | 1 => 36
  | 2 => 40
  | 3 => 42
  | 4 => 44
  | _ => 48

/-- The lowest bit that a level of the walk translates. -/
def shift (level : Nat) : Nat := 39 - 9 * level

def nextTable (desc : Word) : Word := (Pt.base.get desc).setWidth 64 <<< 12

/-- The walk over the levels that are left: the level of the last descriptor, and the
descriptor. A table descriptor of the last level is a page. -/
def walk (m : WordMemory) (bits : Nat) (va : Word) : Nat → Word → Except Fault (Nat × Word)
  | 0, _ => .error (.translation 3)
  | n + 1, base =>
    let level := 3 - n
    let desc := m (slot base ((⟨shift level, 9⟩ : Field).get va).toNat)
    if Pt.valid.get desc = 0 then .error (.translation level)
    else if Pt.table.get desc = 1 then
      if level = 3 then .ok (level, desc)
      else if (nextTable desc).toNat < 2 ^ bits then walk m bits va n (nextTable desc)
      else .error (.addressSize level)
    else if level = 1 ∨ level = 2 then .ok (level, desc)
    else .error (.translation level)

def leaf (bits : Nat) (mair va : Word) (level : Nat) (desc : Word) : Except Fault Mapping :=
  let pa : Word := ((⟨shift level, 48 - shift level⟩ : Field).get desc).setWidth 64 <<< shift level |||
    ((⟨0, shift level⟩ : Field).get va).setWidth 64
  if 2 ^ bits ≤ pa.toNat then .error (.addressSize level)
  else if Pt.af.get desc = 0 then .error (.accessFlag level)
  else .ok
    { pa := pa
      attr := (⟨8 * (Pt.ai.get desc).toNat, 8⟩ : Field).get mair
      sh := Pt.sh.get desc
      user := Pt.user.get desc = 1
      ro := Pt.ro.get desc = 1
      pxn := Pt.pxn.get desc = 1
      xn := Pt.xn.get desc = 1 }

/-- The levels that a region of this size takes with granules of 4 KiB. -/
def levels (tsz : Nat) : Nat := if tsz < 25 then 4 else if tsz < 34 then 3 else 2

/-- Stage 1 in one region: the address is taken without its upper bits. -/
def stageOne (m : WordMemory) (ttbr : Word) (tsz : Nat) (ps : BitVec 3) (mair va : Word) :
    Except Fault Mapping :=
  let va := ((⟨0, 64 - tsz⟩ : Field).get va).setWidth 64
  match walk m (paBits ps) va (levels tsz) (nextTable ttbr) with
  | .error f => .error f
  | .ok (level, desc) => leaf (paBits ps) mair va level desc

/-- What `TCR` says of a region: whether walks are disabled, and whether the granule is 4 KiB. -/
def vaRegion (epd : BitVec 1) (granule : Bool) (m : WordMemory) (ttbr : Word) (tsz : Nat)
    (ps : BitVec 3) (mair va : Word) : Except Fault Mapping :=
  if epd = 1 then .error (.translation 0)
  else if granule ∧ 16 ≤ tsz ∧ tsz ≤ 39 then stageOne m ttbr tsz ps mair va
  else .error .unsupported

/-- With `TBI` the top byte is no part of the address; bit 55 takes its place. -/
def untag (tbi : BitVec 1) (va : Word) : Word :=
  if tbi = 1 then (va.setWidth 56).signExtend 64 else va

/-- EL1 and EL0: `TCR_EL1` has the size, the granule and the enable bit of each region. -/
def translateEl1 (m : WordMemory) (r : Regs) (va : Word) : Except Fault Mapping :=
  let tcr := r.tcrEl1
  let t0sz := ((⟨0, 6⟩ : Field).get tcr).toNat
  let epd0 := (⟨7, 1⟩ : Field).get tcr
  let tg0 := (⟨14, 2⟩ : Field).get tcr
  let t1sz := ((⟨16, 6⟩ : Field).get tcr).toNat
  let epd1 := (⟨23, 1⟩ : Field).get tcr
  let tg1 := (⟨30, 2⟩ : Field).get tcr
  let ips := (⟨32, 3⟩ : Field).get tcr
  let tbi0 := (⟨37, 1⟩ : Field).get tcr
  let tbi1 := (⟨38, 1⟩ : Field).get tcr
  let va := untag (if va.getLsbD 55 then tbi1 else tbi0) va
  if va.toNat < 2 ^ (64 - t0sz) then vaRegion epd0 (tg0 = 0) m r.ttbr0El1 t0sz ips r.mairEl1 va
  else if 2 ^ 64 - 2 ^ (64 - t1sz) ≤ va.toNat then
    vaRegion epd1 (tg1 = 2) m r.ttbr1El1 t1sz ips r.mairEl1 va
  else .error (.translation 0)

/-- EL2 has one region, whose walks cannot be disabled. -/
def translateEl2 (m : WordMemory) (r : Regs) (va : Word) : Except Fault Mapping :=
  let tcr := r.tcrEl2
  let t0sz := ((⟨0, 6⟩ : Field).get tcr).toNat
  let tg0 := (⟨14, 2⟩ : Field).get tcr
  let ps := (⟨16, 3⟩ : Field).get tcr
  let va := untag ((⟨20, 1⟩ : Field).get tcr) va
  if va.toNat < 2 ^ (64 - t0sz) then vaRegion 0 (tg0 = 0) m r.ttbr0El2 t0sz ps r.mairEl2 va
  else .error (.translation 0)

end Dmos.Mmu
