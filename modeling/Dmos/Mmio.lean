import Dmos.Frame
import Dmos.Gic
import Dmos.Lib.BitField
import Dmos.Lib.Bytes

namespace Dmos
open Lib

def gicdBaseAddr : Word := 0x8000000
def giccBaseAddr : Word := 0x8010000
def gicvBaseAddr : Word := 0x8040000

def gicdIsenabler (x : Word) : Word := gicdBaseAddr + (0x100 + 4 * x)
def gicdIcenabler (x : Word) : Word := gicdBaseAddr + (0x180 + 4 * x)

namespace Hsr
/-! The bit fields of `union hsr` that the handlers read. -/

def ec : Field := ⟨26, 6⟩
def len : Field := ⟨25, 1⟩
def write : Field := ⟨6, 1⟩
def reg : Field := ⟨16, 5⟩
def sign : Field := ⟨21, 1⟩
def size : Field := ⟨22, 2⟩

end Hsr

/-- Device registers as bytes at physical addresses. -/
abbrev Device := Word → BitVec 8

namespace Device

/-- A 64-bit little-endian load. -/
def read64 (d : Device) (a : Word) : Word :=
  (List.range 8).foldl (fun v i => v ||| ((d (a + BitVec.ofNat 64 i)).setWidth 64 <<< (8 * i))) 0

def write64 (d : Device) (a v : Word) : Device := fun b =>
  if b - a < 8 then (v >>> (8 * (b - a).toNat)).setWidth 8 else d b

end Device

/-- `&el2_ctx->r[reg]` as a doubleword of the frame. The array has 31 elements,
so register number 31 is the doubleword after it, `usp`. -/
def frameSlot (hsr : BitVec 32) : Fin 34 := ⟨(Hsr.reg.get hsr).toNat, by
  have := (Hsr.reg.get hsr).isLt
  simp only [Hsr.reg] at this ⊢
  omega⟩

/-- `handle_mmio`. The access size is computed there and not used: both
directions move a doubleword. -/
def handleMmio (hsr : BitVec 32) (gpa : Word) (ctx : TrapFrame) (dev : Device) :
    TrapFrame × Device :=
  let regNum := frameSlot hsr
  if Hsr.write.get hsr = 1 then
    if regNum ≠ 30 then (ctx, dev.write64 gpa (ctx regNum)) else (ctx, dev)
  else
    let dat := dev.read64 gpa
    if regNum ≠ 30 then (Function.update ctx regNum dat, dev) else (ctx, dev)

/-- The byte stores that `handle_mmio` makes to the device. -/
def handleMmioStores (hsr : BitVec 32) (gpa : Word) (ctx : TrapFrame) : List (Word × BitVec 8) :=
  if Hsr.write.get hsr = 1 ∧ frameSlot hsr ≠ 30 then Bytes.stores gpa 8 (ctx (frameSlot hsr)) else []

/-- The register of the trapped instruction, as the guest knows it: number 31 is the
zero register. -/
def trappedReg (hsr : BitVec 32) (ctx : TrapFrame) : Word :=
  if frameSlot hsr = 31 then 0 else ctx (frameSlot hsr)

/-- `while (_val >>= 1) _i++` -/
def highestBitLoop : Nat → Word → Nat → Nat
  | 0, _, i => i
  | fuel + 1, val, i =>
    let val := val >>> 1
    if val = 0 then i else highestBitLoop fuel val (i + 1)

def highestBitPosition (x : Word) : Nat := highestBitLoop 64 x 0

/-- `intc_handler`. All branches but the two writes to the set-enable registers
only print; the guest's value passes through an `int`. -/
def intcHandler (hsr : BitVec 32) (gpa : Word) (ctx : TrapFrame) (g : Gic) : Gic :=
  if Hsr.write.get hsr = 1 then
    let r : Word := ((ctx (frameSlot hsr)).setWidth 32).signExtend 64
    if gpa = gicdIsenabler 0 then g.gicEnableInt (highestBitPosition r) 0
    else if gicdIsenabler 1 ≤ gpa ∧ gpa < gicdIcenabler 0 then
      let id := (gpa.toNat - (gicdIsenabler 0).toNat) / 4 * 32
      g.gicEnableInt (highestBitPosition r + id) 0
    else g
  else g

/-- The vectors for which `intc_handler` calls `gic_enable_int`, with priority 0. -/
def intcEnables (hsr : BitVec 32) (gpa : Word) (ctx : TrapFrame) : List Nat :=
  if Hsr.write.get hsr = 1 then
    let r : Word := ((ctx (frameSlot hsr)).setWidth 32).signExtend 64
    if gpa = gicdIsenabler 0 then [highestBitPosition r]
    else if gicdIsenabler 1 ≤ gpa ∧ gpa < gicdIcenabler 0 then
      [highestBitPosition r + (gpa.toNat - (gicdIsenabler 0).toNat) / 4 * 32]
    else []
  else []

/-- `data_abort_handler`: distributor accesses are emulated, accesses to the CPU
interface are made on the virtual one. -/
def dataAbortHandler (hsr : BitVec 32) (gpa : Word) (ctx : TrapFrame) (g : Gic) (dev : Device) :
    TrapFrame × Gic × Device :=
  if gicdBaseAddr ≤ gpa ∧ gpa ≤ gicdBaseAddr + 0x10000 then (ctx, intcHandler hsr gpa ctx g, dev)
  else if giccBaseAddr ≤ gpa ∧ gpa ≤ giccBaseAddr + 0x10000 then
    let (ctx, dev) := handleMmio hsr (gpa + 0x30000) ctx dev
    (ctx, g, dev)
  else (ctx, g, dev)

/-- What `data_abort_handler` touches. -/
inductive Access where
  /-- The load of `ept->bits` from `ept_L3_root[pageNum]`. -/
  | eptEntry (pageNum : Nat)
  /-- The call of `intc_handler`. -/
  | intc
  /-- The call of `handle_mmio` on the device at `gpa`. -/
  | mmio (gpa : Word)
  deriving DecidableEq

/-- The accesses of one call of `data_abort_handler`, in order. The table is read
before the address is compared with anything. -/
def dataAbortAccesses (gpa : Word) : List Access :=
  .eptEntry (gpa >>> 12).toNat ::
    if gicdBaseAddr ≤ gpa ∧ gpa ≤ gicdBaseAddr + 0x10000 then [.intc]
    else if giccBaseAddr ≤ gpa ∧ gpa ≤ giccBaseAddr + 0x10000 then [.mmio (gpa + 0x30000)]
    else []

def Access.perform (hsr : BitVec 32) (gpa : Word) :
    Access → TrapFrame × Gic × Device → TrapFrame × Gic × Device
  | .eptEntry _, s => s
  | .intc, (ctx, g, dev) => (ctx, intcHandler hsr gpa ctx g, dev)
  | .mmio a, (ctx, g, dev) =>
    let (ctx, dev) := handleMmio hsr a ctx dev
    (ctx, g, dev)

/-- `advance_pc` -/
def advancePc (hsr : BitVec 32) (ctx : TrapFrame) : TrapFrame :=
  ctx.setElr (ctx.elr + if Hsr.len.get hsr = 1 then 4 else 2)

end Dmos
