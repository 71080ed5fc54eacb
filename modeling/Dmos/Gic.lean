import Mathlib.Logic.Function.Basic
import Mathlib.Data.Fin.Basic
import Mathlib.Data.List.FinRange

namespace Dmos

def gichLrNum : Nat := 4

/-- The registers of the interrupt controller that the hypervisor writes:
the distributor's enable words and priority bytes, and the list registers of
the virtual interface. -/
structure Gic where
  isenabler : Nat → BitVec 32
  ipriorityr : Nat → BitVec 8
  lr : Fin 4 → BitVec 32

namespace Gic

/-- A word write to `GICD_IPRIORITYR(n)` sets the priorities of four interrupts. -/
def gicSetIpriority (g : Gic) (n : Nat) (value : BitVec 32) : Gic :=
  { g with ipriorityr := fun i =>
      if i / 4 = n then (value >>> (8 * (i % 4))).setWidth 8 else g.ipriorityr i }

/-- A word write to `GICD_ISENABLER(reg)`: ones set those bits and zeros do
nothing. From word 32 on the address is that of `GICD_ICENABLER(reg - 32)`,
where ones clear. -/
def writeIsenabler (g : Gic) (reg : Nat) (mask : BitVec 32) : Gic :=
  if reg < 32 then
    { g with isenabler := Function.update g.isenabler reg (g.isenabler reg ||| mask) }
  else if reg < 64 then
    { g with isenabler :=
        Function.update g.isenabler (reg - 32) (g.isenabler (reg - 32) &&& ~~~ mask) }
  else g

/-- A word write to `GICD_ICENABLER(reg)`: ones clear those bits. -/
def writeIcenabler (g : Gic) (reg : Nat) (mask : BitVec 32) : Gic :=
  if reg < 32 then
    { g with isenabler := Function.update g.isenabler reg (g.isenabler reg &&& ~~~ mask) }
  else g

/-- A byte write to `GICD_IPRIORITYR`; the targets registers follow its 1024 bytes. -/
def writeIpriority (g : Gic) (vector : Nat) (value : BitVec 8) : Gic :=
  if vector < 1024 then { g with ipriorityr := Function.update g.ipriorityr vector value } else g

def gicEnableInt (g : Gic) (vector : Nat) (pri : BitVec 32) : Gic :=
  (g.writeIsenabler (vector >>> 5) (1#32 <<< (vector % 32))).writeIpriority vector
    (((pri <<< 3) ||| (1#32 <<< 7)).setWidth 8)

def gicDisableInt (g : Gic) (vector : Nat) : Gic :=
  g.writeIcenabler (vector >>> 5) (1#32 <<< (vector % 32))

/-- `val & mask != 0`: the comparison binds tighter than the `&`. -/
def gicGetEnable (g : Gic) (vector : Nat) : BitVec 32 :=
  let mask : BitVec 32 := 1#32 <<< (vector % 32)
  g.isenabler (vector >>> 5) &&& (if mask ≠ 0 then 1 else 0)

def gicSetIsenabler (g : Gic) (n : Nat) (value : BitVec 32) : Gic := g.writeIsenabler n value

def gicSetIcenabler (g : Gic) (n : Nat) (value : BitVec 32) : Gic := g.writeIcenabler n value

/-- Interrupt `vector` is enabled: its bit of the enable words is set. -/
def enabled (g : Gic) (vector : Nat) : Bool := (g.isenabler (vector / 32)).getLsbD (vector % 32)

def gicdTyperIrqs (typer : BitVec 32) : BitVec 32 := ((typer &&& 0x1f#32) + 1) * 32

/-- `_gicv2.irq_nr` after `gic_init`, from the distributor's type register. -/
def irqNr (typer : BitVec 32) : BitVec 32 :=
  if gicdTyperIrqs typer > 1020 then 1020 else gicdTyperIrqs typer

def gicIarIrqnr (iar : BitVec 32) : BitVec 32 := iar &&& 0x3ff#32

def gicMakeVirtualHardwareInterrupt (vector pintvec pri : BitVec 32) (grp1 : Bool) : BitVec 32 :=
  0x90000000#32 ||| (((pri &&& 0xf8#32) <<< 20) ||| (vector &&& 0x1ff#32) ||| ((pintvec &&& 0x1ff#32) <<< 10) |||
    ((BitVec.ofBool grp1).setWidth 32 <<< 30))

def gicMakeVirtualSoftwareInterrupt (vector pri : BitVec 32) (grp1 : Bool) : BitVec 32 :=
  0x10000000#32 ||| (((pri &&& 0xf8#32) <<< 20) ||| (vector &&& 0x1ff#32) |||
    ((BitVec.ofBool grp1).setWidth 32 <<< 30))

def gicMakeVirtualSoftwareSgi (vector cpuId pri : BitVec 32) (grp1 : Bool) : BitVec 32 :=
  0x10000000#32 ||| (((pri &&& 0xf8#32) <<< 20) ||| (vector &&& 0x1ff#32) |||
    ((BitVec.ofBool grp1).setWidth 32 <<< 30) ||| (cpuId <<< 10))

def gicLrReadPri (lrValue : BitVec 32) : BitVec 32 := (lrValue &&& 0x0f800000#32) >>> 20

def gicLrReadVid (lrValue : BitVec 32) : BitVec 32 := lrValue &&& 0x1ff#32

/-- Bits 29:28 of a list register: neither pending nor active. -/
def lrEmpty (lrValue : BitVec 32) : Bool := lrValue &&& 0x30000000#32 == 0#32

/-- The word with bit `i` set where `b i`. -/
def statusWord (b : Fin 4 → Bool) : BitVec 32 :=
  (List.finRange 4).foldl (fun w i => if b i then w ||| (1#32 <<< i.val) else w) 0

/-- `GICH_ELSR0`: bit `i` is 1 exactly when list register `i` is empty. -/
def gicElsr0 (g : Gic) : BitVec 32 := statusWord (fun i => lrEmpty (g.lr i))

def gicReadLr (g : Gic) (n : Fin 4) : BitVec 32 := g.lr n

def gicWriteLr (g : Gic) (n : Fin 4) (mask : BitVec 32) : Gic :=
  { g with lr := Function.update g.lr n mask }

end Gic

end Dmos
