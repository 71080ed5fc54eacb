import Mathlib.Data.Fintype.Basic
import Dmos.Gic
import Dmos.Lib.Run

namespace Dmos.Vgic
open Gic

/-- The `for` loop of `vgic_inject` over the list registers that are left.
`isEmpty` was read once, before the loop. -/
def injectLoop (isEmpty : BitVec 32) : List (Fin 4) → Gic → BitVec 32 → BitVec 32 → Gic
  | [], g, _, _ => g
  | i :: is, g, mask, pri =>
    if isEmpty &&& (1#32 <<< i.val) ≠ 0#32 then g.gicWriteLr i mask
    else
      let prevLr := g.gicReadLr i
      let prevPri : BitVec 8 := (gicLrReadPri prevLr).setWidth 8
      if prevPri.setWidth 32 > pri then
        injectLoop isEmpty is (g.gicWriteLr i mask) prevLr (prevPri.setWidth 32)
      else injectLoop isEmpty is g mask pri

/-- `vgic_inject`; `is_active` and `irq_no` are read there and never used. -/
def vgicInject (g : Gic) (vector : BitVec 32) : Gic :=
  let mask := gicMakeVirtualHardwareInterrupt vector vector 0 false
  let g := g.gicSetIpriority 6 0xf8000000
  let g := g.gicSetIpriority 8 0x0000f800
  injectLoop g.gicElsr0 (List.finRange gichLrNum) g mask (gicLrReadPri mask)

/-- `vgic_inject` when `GICH_ELSR0` reads as `elsr0`. Only its bits of the four list
registers are defined by their contents. -/
def injectAt (elsr0 : BitVec 32) (g : Gic) (vector : BitVec 32) : Gic :=
  let mask := gicMakeVirtualHardwareInterrupt vector vector 0 false
  let g := g.gicSetIpriority 6 0xf8000000
  let g := g.gicSetIpriority 8 0x0000f800
  injectLoop elsr0 (List.finRange gichLrNum) g mask (gicLrReadPri mask)

def hvTimerVector : BitVec 32 := 27
def pl011Int : BitVec 32 := 33
def timerVector : BitVec 32 := 30

def vTimerHandler (g : Gic) : Gic := vgicInject g hvTimerVector

def fakeConsole (g : Gic) : Gic := vgicInject g pl011Int

/-- The end of `handle_timer_interrupt`, which lets the host see the passed-through
interrupts again. -/
def raisePriorities (g : Gic) : Gic :=
  (g.gicSetIpriority 6 0xf0000000).gicSetIpriority 8 0x0000f000

inductive Handler where
  | vTimerHandler
  | fakeConsole
  | handleTimerInterrupt
  deriving DecidableEq, Repr

/-- `g_handler_vec` after `timer_init` and `vm_init`. -/
def gHandlerVec (vector : BitVec 32) : Option Handler :=
  if vector = hvTimerVector then some .vTimerHandler
  else if vector = pl011Int then some .fakeConsole
  else if vector = timerVector then some .handleTimerInterrupt
  else none

/-- What `handle_irq_exception_el2` does to the controller. The physical
interrupt is acknowledged and deactivated at once, so it may fire again
whatever the guest does. A null handler is a fault. -/
def handleIrqExceptionEl2 (g : Gic) (iar : BitVec 32) : Option Gic :=
  (gHandlerVec (gicIarIrqnr iar)).map (fun
    | .vTimerHandler => vTimerHandler g
    | .fakeConsole => fakeConsole g
    | .handleTimerInterrupt => raisePriorities g)

/-- The guest ends the interrupt of list register `i`. -/
def complete (g : Gic) (i : Fin 4) : Gic := g.gicWriteLr i (g.lr i &&& 0xcfffffff#32)

inductive Event where
  /-- A physical interrupt taken at EL2. -/
  | irq (iar : BitVec 32)
  | inject (vector : BitVec 32)
  | complete (i : Fin 4)
  deriving DecidableEq

def step (g : Gic) : Event → Option Gic
  | .irq iar => handleIrqExceptionEl2 g iar
  | .inject vector => some (vgicInject g vector)
  | .complete i => some (complete g i)

/-- Some list register holds the virtual interrupt. -/
def Held (g : Gic) (vector : BitVec 32) : Prop :=
  ∃ i, lrEmpty (g.lr i) = false ∧ gicLrReadVid (g.lr i) = vector

/-- The occupied list registers' contents. -/
def entries (g : Gic) : Multiset (BitVec 32) :=
  (Finset.univ.filter (fun i => lrEmpty (g.lr i) = false)).val.map g.lr

/-- No two occupied list registers hold one virtual interrupt. -/
def Unique (g : Gic) : Prop :=
  ∀ i j, lrEmpty (g.lr i) = false → lrEmpty (g.lr j) = false →
    gicLrReadVid (g.lr i) = gicLrReadVid (g.lr j) → i = j

end Dmos.Vgic
