import Dmos.Ept
import Dmos.Strings

namespace Dmos.Load
open Lib Ept

def guestKernelStart : Word := 0x70200000
def guestDtbStart : Word := 0x70000000
def guestFsStart : Word := 0x78000000
def mmioArrea : Word := 0x50000000

/-- The symbols of `link_hyper.lds` that `hyper_main` and its functions use. -/
structure Symbols where
  gusetBinStart : Word
  gusetBinEnd : Word
  gusetDtbStart : Word
  gusetDtbEnd : Word
  gusetFsStart : Word
  gusetFsEnd : Word
  eptL1 : Word

/-- What `copy_guest`, `copy_dtb` and `copy_fs` do besides printing. EL2 translates an
address below 4 GiB to itself. -/
def copyImage (start stop dst : Word) (s : State) : State :=
  { s with mem := Strings.memcpy s.mem dst start (stop - start) }

def copyGuest (l : Symbols) : State → State :=
  copyImage l.gusetBinStart l.gusetBinEnd guestKernelStart

def copyDtb (l : Symbols) : State → State :=
  copyImage l.gusetDtbStart l.gusetDtbEnd guestDtbStart

def copyFs (l : Symbols) : State → State :=
  copyImage l.gusetFsStart l.gusetFsEnd guestFsStart

/-- What `vtcr_init` writes to `VTCR_EL2`. -/
def vtcrVal : Word :=
  let vtcr : Word := (0#64 <<< 19) ||| (0b001#64 <<< 16) ||| (0#64 <<< 14) ||| (3#64 <<< 12) |||
    (1#64 <<< 10) ||| (1#64 <<< 8)
  let vtcr := vtcr ||| ((64 - 32) <<< 0)
  vtcr ||| (1#64 <<< 6)

/-- `hyper_main` up to `schedule_init`: what it does to the memory of the guest and to the
tables, in its order. -/
def hyperMain (l : Symbols) (s : State) : State :=
  let s := guestEptInit l.eptL1 s
  let s := copyDtb l s
  let s := copyGuest l s
  let s := copyFs l s
  let s := mmioMapGicd s
  let s := mmioMapGicc s
  let s := revoke s (getEptEntry s mmioArrea)
  s.store 0x50000000 0x1234

/-! ### What the guest meets -/

inductive Direction where
  | read
  | write
  deriving DecidableEq, Repr

def Direction.permitted : Direction → Word → Bool
  | .read, entry => P2m.read.get entry = 1
  | .write, entry => P2m.write.get entry = 1

/-- The address that an access of the guest reaches; `none` when it traps. The walk is the one
of intermediate addresses of 32 bits that starts at level 1, with granules of 4 KiB. -/
def guestAccess (vtcr : Word) (s : State) (direction : Direction) (ipa : Word) : Option Word := do
  let t0sz := (⟨0, 6⟩ : Field).get vtcr
  let sl0 := (⟨6, 2⟩ : Field).get vtcr
  let tg0 := (⟨14, 2⟩ : Field).get vtcr
  if t0sz = 32 ∧ sl0 = 1 ∧ tg0 = 0 ∧ ipa.toNat < 2 ^ 32 then
    let entry := s.mem (← walk s.mem s.vttbr ipa)
    if P2m.valid.get entry = 1 ∧ P2m.table.get entry = 1 ∧ P2m.af.get entry = 1 ∧
        direction.permitted entry then
      some ((P2m.base.get entry).setWidth 64 <<< 12 ||| ((⟨0, 12⟩ : Field).get ipa).setWidth 64)
    else none
  else none

/-- The byte that the guest loads. -/
def guestLoad (s : State) (ipa : Word) : Option (BitVec 8) :=
  (guestAccess vtcrVal s .read ipa).map (Memory.load s.mem)

end Dmos.Load
