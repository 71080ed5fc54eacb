import Dmos.Frame
import Dmos.Lib.BitField

namespace Dmos.Cache
open Lib

def ctrEl0CwgMask : Word := 0xff

/-- The source names the field `CWG`; the shift is by 0. -/
def getCacheLineSize (ctrEl0 : Word) : BitVec 32 := ((ctrEl0 >>> 0) &&& ctrEl0CwgMask).setWidth 32

/-- The value of `cacheline_bytes`. -/
def setupCache (ctrEl0 : Word) : Word := (getCacheLineSize ctrEl0).setWidth 64

/-- `for (; p < end; p += cacheline_bytes)` with the addresses given to `dc civac`, in
order; `none` while the loop still runs after `fuel` tests. -/
def cleanLoop : Nat → Word → Word → Word → Option (List Word)
  | 0, _, _, _ => none
  | fuel + 1, cachelineBytes, p, e =>
    if p < e then (cleanLoop fuel cachelineBytes (p + cachelineBytes) e).map (p :: ·) else some []

def cleanAndInvalidateDcacheVaRange (fuel : Nat) (cachelineBytes p size : Word) :
    Option (List Word) :=
  cleanLoop fuel cachelineBytes p (p + size)

/-- The field `DminLine` of `CTR_EL0`. -/
def dminLine : Field := ⟨16, 4⟩

/-- The bytes of the smallest data cache line: `4 << CTR_EL0[19:16]`. -/
def lineBytes (ctrEl0 : Word) : Nat := 4 <<< (dminLine.get ctrEl0).toNat

end Dmos.Cache
