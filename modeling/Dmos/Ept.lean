import Dmos.Frame
import Dmos.Lib.BitField
import Dmos.Lib.Table

namespace Dmos.Ept
open Lib

def lpaeEntries : Nat := 1 <<< 9
def lpaeL1Size : Nat := 4
def lpaeL2Size : Nat := lpaeL1Size * lpaeEntries
def lpaeL3Size : Nat := lpaeL2Size * lpaeEntries

def guestRamStart : Word := 0x40000000
def guestRamEnd : Word := guestRamStart + 0x40000000

namespace P2m
/-! The bit fields of `lpae_p2m_t` that the builder sets or a walk reads. -/

def valid : Field := ⟨0, 1⟩
def table : Field := ⟨1, 1⟩
def mattr : Field := ⟨2, 4⟩
def read : Field := ⟨6, 1⟩
def write : Field := ⟨7, 1⟩
def sh : Field := ⟨8, 2⟩
def af : Field := ⟨10, 1⟩
def base : Field := ⟨12, 36⟩
def xn : Field := ⟨54, 1⟩

end P2m

def isInMemory (gpa : Word) : Bool := guestRamStart ≤ gpa && gpa < guestRamEnd

/-- Memory, the two globals, and the running `gpa` of the builder. -/
structure State where
  mem : WordMemory
  eptL2Root : Word
  eptL3Root : Word
  gpa : Word
  vttbr : Word

def State.store (s : State) (a v : Word) : State := { s with mem := Function.update s.mem a v }

/-- A level 1 or level 2 entry. The address is or-ed in, not put into `base`. -/
def tableEntry (next : Word) : Word :=
  let bits : Word := 0
  let bits := P2m.valid.set bits 1
  let bits := P2m.table.set bits 1
  bits ||| next

def pageEntry (gpa : Word) : Word :=
  let bits : Word := 0
  let bits := P2m.valid.set bits 1
  let bits := P2m.table.set bits 1
  let bits := P2m.af.set bits 1
  let bits := P2m.read.set bits 1
  let bits := P2m.write.set bits 1
  let bits := P2m.mattr.set bits 0xf
  let bits := P2m.sh.set bits 3
  let bits := P2m.xn.set bits 0
  let bits :=
    if isInMemory gpa then P2m.mattr.set (P2m.sh.set bits 3) 0xf
    else P2m.xn.set (P2m.sh.set (P2m.mattr.set bits 1) 0) 1
  bits ||| gpa

/-- One iteration of the innermost loop: a page entry at the running `gpa`. -/
def fillPage (eptL3 : Word) (indexL3 : Nat) (s : State) : State :=
  { s.store (slot eptL3 indexL3) (pageEntry s.gpa) with gpa := s.gpa + 4 * 1024 }

def fillL2 (eptL2 : Word) (indexL1 indexL2 : Nat) (s : State) : State :=
  let eptL3 := slot s.eptL3Root (lpaeEntries * lpaeEntries * indexL1 + lpaeEntries * indexL2)
  let s := s.store (slot eptL2 indexL2) (tableEntry eptL3)
  Nat.fold lpaeEntries (fun indexL3 _ s => fillPage eptL3 indexL3 s) s

def fillL1 (eptL1 : Word) (indexL1 : Nat) (s : State) : State :=
  let eptL2 := slot s.eptL2Root (lpaeEntries * indexL1)
  let s := s.store (slot eptL1 indexL1) (tableEntry eptL2)
  Nat.fold lpaeEntries (fun indexL2 _ s => fillL2 eptL2 indexL1 indexL2 s) s

/-- `guest_ept_init`, with `eptL1` the address that the linker gave the table.
The cache and TLB maintenance of `apply_ept` leaves memory as it is. -/
def guestEptInit (eptL1 : Word) (s : State) : State :=
  let eptL1Root := slot eptL1 lpaeL1Size
  let l2 := (eptL1Root + (1#64 <<< 12)) &&& ~~~ 0xfff#64
  let s := { s with gpa := 0, eptL2Root := l2, eptL3Root := slot l2 lpaeL2Size }
  let s := Nat.fold lpaeL1Size (fun indexL1 _ s => fillL1 eptL1 indexL1 s) s
  { s with vttbr := eptL1 }

def getEptEntry (s : State) (gpa : Word) : Word := slot s.eptL3Root (gpa >>> 12).toNat

/-- `PAR_F` -/
def parF : Word := 1#64 <<< 0
/-- `PADDR_MASK` -/
def paddrMask : Word := (1#64 <<< 40) - 1
/-- `PAGE_MASK`, an `int`. -/
def pageMask : BitVec 32 := 1#32 <<< 12

/-- `gva_to_ipa_par`: the result of the translation, and `PAR_EL1` afterwards. `ats1e1r`
is what the instruction leaves in `PAR_EL1`. -/
def gvaToIpaPar (ats1e1r : Word → Word) (parEl1 va : Word) : Word × Word :=
  let tmp := parEl1
  let parEl1 := ats1e1r va
  let par := parEl1
  let parEl1 := tmp
  (par, parEl1)

/-- `gva_to_ipa`: its result, `*paddr` and `PAR_EL1`. The two masks are converted to 64
bits as `int`s are. -/
def gvaToIpa (ats1e1r : Word → Word) (parEl1 va paddr : Word) : BitVec 32 × Word × Word :=
  let (par, parEl1) := gvaToIpaPar ats1e1r parEl1 va
  if par &&& parF ≠ 0 then (-1, paddr, parEl1)
  else
    (0, (par &&& paddrMask &&& pageMask.signExtend 64) ||| (va &&& (~~~ pageMask).signExtend 64),
      parEl1)

def mmioAreaGicd : Word := 0x8000000
def mmioAreaGicc : Word := 0x8010000

/-- `avr_entry->p2m.read = 0; avr_entry->p2m.write = 0` -/
def revoke (s : State) (entry : Word) : State :=
  let s := s.store entry (P2m.read.set (s.mem entry) 0)
  s.store entry (P2m.write.set (s.mem entry) 0)

/-- The loop of `mmio_map_gicd` and of `mmio_map_gicc`. -/
def mmioMap (area : Word) (s : State) : State :=
  Nat.fold 16 (fun i _ s => revoke s (getEptEntry s (area + 0x1000 * BitVec.ofNat 64 i))) s

def mmioMapGicd : State → State := mmioMap mmioAreaGicd
def mmioMapGicc : State → State := mmioMap mmioAreaGicc

/-- The guest may read or write the page of `gpa`. -/
def Accessible (s : State) (gpa : Word) : Prop :=
  P2m.read.get (s.mem (getEptEntry s gpa)) = 1 ∨ P2m.write.get (s.mem (getEptEntry s gpa)) = 1

/-- The next-level table of a valid table entry. -/
def nextTable (entry : Word) : Option Word :=
  if P2m.valid.get entry = 1 ∧ P2m.table.get entry = 1 then
    some ((P2m.base.get entry).setWidth 64 <<< 12)
  else none

/-- The architectural stage-2 walk from level 1: the address of the level 3
entry that translates `gpa`, or nothing on a translation fault before it. -/
def walk (m : WordMemory) (root gpa : Word) : Option Word := do
  let l2 ← nextTable (m (slot root ((⟨30, 2⟩ : Field).get gpa).toNat))
  let l3 ← nextTable (m (slot l2 ((⟨21, 9⟩ : Field).get gpa).toNat))
  return slot l3 ((⟨12, 9⟩ : Field).get gpa).toNat

end Dmos.Ept
