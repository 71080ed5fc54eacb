import Dmos.Frame
import Dmos.Lib.BitField

namespace Dmos

open Dmos.Lib

/-- `bitmap_t`: the address of its bytes, and its size in bits. -/
structure Bitmap where
  bits : Word
  size : Word
  deriving DecidableEq, Repr

/-- Memory, by the byte. -/
abbrev Bytes := Word → BitVec 8

namespace Bitmap

/-- The loop of `bitmap_init`, from `i` on. -/
def initLoop (buffer size : Word) (m : Bytes) (i : Word) : Bytes :=
  if i < (size + 7) / 8 then initLoop buffer size (Function.update m (buffer + i) 0) (i + 1) else m
termination_by ((size + 7) / 8).toNat - i.toNat
decreasing_by
  rename_i h
  have hi : i.toNat < ((size + 7) / 8).toNat := h
  rw [toNat_succ_of_lt h]
  omega

def bitmapInit (buffer size : Word) (m : Bytes) : Bitmap × Bytes :=
  (⟨buffer, size⟩, initLoop buffer size m 0)

/-- `1 << (index % 8)`, which is an `int`. -/
def bit (index : Word) : BitVec 32 := 1#32 <<< (index % 8)

/-- The byte is promoted to `int` before a mask is applied to it, and the result
narrowed to a byte again. -/
def bitmapSet (b : Bitmap) (m : Bytes) (index : Word) : Bytes :=
  if index < b.size then
    let a := b.bits + index / 8
    Function.update m a (((m a).setWidth 32 ||| bit index).setWidth 8)
  else m

def bitmapClear (b : Bitmap) (m : Bytes) (index : Word) : Bytes :=
  if index < b.size then
    let a := b.bits + index / 8
    Function.update m a (((m a).setWidth 32 &&& ~~~ bit index).setWidth 8)
  else m

def bitmapTest (b : Bitmap) (m : Bytes) (index : Word) : BitVec 8 :=
  if index < b.size then
    if (m (b.bits + index / 8)).setWidth 32 &&& bit index ≠ 0 then 1 else 0
  else 0

/-- The loop of `bitmap_find_first_free`, from `i` on. -/
def findFirstFreeFrom (b : Bitmap) (m : Bytes) (i : Word) : Word :=
  if i < b.size then
    if b.bitmapTest m i = 0 then i else b.findFirstFreeFrom m (i + 1)
  else -1
termination_by b.size.toNat - i.toNat
decreasing_by
  rename_i h _
  have hi : i.toNat < b.size.toNat := h
  rw [toNat_succ_of_lt h]
  omega

def bitmapFindFirstFree (b : Bitmap) (m : Bytes) : Word := b.findFirstFreeFrom m 0

/-- The inner loop of `bitmap_find_contiguous_free`, from `j` on; what is left in `j`. -/
def freeRunFrom (b : Bitmap) (m : Bytes) (i count j : Word) : Word :=
  if j < count then
    if b.bitmapTest m (i + j) ≠ 0 then j else b.freeRunFrom m i count (j + 1)
  else j
termination_by count.toNat - j.toNat
decreasing_by
  rename_i h _
  have hj : j.toNat < count.toNat := h
  rw [toNat_succ_of_lt h]
  omega

/-- The outer loop, from `i` on, for a number of iterations. The bound is a
`size_t`: it wraps when `count` is larger, and no `i` is above the largest one. -/
def findContiguousFreeFrom (b : Bitmap) (m : Bytes) (count : Word) : Nat → Word → Option Word
  | 0, _ => none
  | fuel + 1, i =>
    if i ≤ b.size - count then
      if b.freeRunFrom m i count 0 = count then some i
      else b.findContiguousFreeFrom m count fuel (i + 1)
    else some (-1)

def bitmapFindContiguousFree (fuel : Nat) (b : Bitmap) (m : Bytes) (count : Word) : Option Word :=
  b.findContiguousFreeFrom m count fuel 0

end Bitmap

end Dmos
