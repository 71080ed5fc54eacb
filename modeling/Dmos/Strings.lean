import Dmos.Frame
import Dmos.Lib.ByteMemory

/-! `mem/string.c`. A plain `char` has no sign on this target. A function that returns its
first argument is given by the memory it leaves. -/

namespace Dmos.Strings
open Lib Lib.Memory

variable {μ : Type} [Memory μ]

/-- `while (*buf++) ++len` -/
def strlenLoop (m : μ) : Nat → Word → Word → Option Word
  | 0, _, _ => none
  | fuel + 1, buf, len =>
    if load m buf ≠ 0 then strlenLoop m fuel (buf + 1) (len + 1) else some len

def strlen (fuel : Nat) (m : μ) (buf : Word) : Option Word := strlenLoop m fuel buf 0

/-- `while (*p) ++p` -/
def findEnd (m : μ) : Nat → Word → Option Word
  | 0, _ => none
  | fuel + 1, p => if load m p ≠ 0 then findEnd m fuel (p + 1) else some p

/-- `while ((*p++ = *src++) != 0)` -/
def copyLoop : Nat → Word → Word → μ → Option μ
  | 0, _, _, _ => none
  | fuel + 1, p, src, m =>
    let c := load m src
    let m := store m p c
    if c ≠ 0 then copyLoop fuel (p + 1) (src + 1) m else some m

def strcat (fuel : Nat) (m : μ) (dest src : Word) : Option μ := do
  let p ← findEnd m fuel dest
  copyLoop fuel p src m

def strcpy (fuel : Nat) (m : μ) (dest src : Word) : Option μ :=
  let m := store m dest 0
  strcat fuel m dest src

/-- Two bytes as `int`s. -/
def difference (a b : BitVec 8) : Int := a.toNat - b.toNat

def strncmpLoop (m : μ) : Nat → Word → Word → Int
  | 0, _, _ => 0
  | n + 1, a, b =>
    if load m a ≠ load m b ∨ load m a = 0 then difference (load m a) (load m b)
    else strncmpLoop m n (a + 1) (b + 1)

def strncmp (m : μ) (a b n : Word) : Int := strncmpLoop m n.toNat a b

def sizeMax : Word := 9223372036854775807

def strcmp (m : μ) (a b : Word) : Int := strncmp m a b sizeMax

/-- `some none` is a `NULL` result. -/
def strchr (m : μ) (c : BitVec 32) : Nat → Word → Option (Option Word)
  | 0, _ => none
  | fuel + 1, s =>
    if load m s ≠ c.setWidth 8 then
      if load m s = 0 then some none else strchr m c fuel (s + 1)
    else some (some s)

def memcmpLoop (m : μ) : Nat → Word → Word → Int
  | 0, _, _ => 0
  | n + 1, a, b =>
    let ret := difference (load m a) (load m b)
    if ret ≠ 0 then ret else memcmpLoop m n (a + 1) (b + 1)

def memcmp (m : μ) (s1 s2 n : Word) : Int := memcmpLoop m n.toNat s1 s2

/-- The loop of `strstr` by what is left of `l1`; `l2` is not zero. -/
def strstrLoop (m : μ) (s2 l2 : Word) : Nat → Word → Option Word
  | 0, _ => none
  | l1 + 1, s1 =>
    if l2.toNat ≤ l1 + 1 then
      if memcmp m s1 s2 l2 = 0 then some s1 else strstrLoop m s2 l2 l1 (s1 + 1)
    else none

def strstr (fuel : Nat) (m : μ) (s1 s2 : Word) : Option (Option Word) := do
  let l2 ← strlen fuel m s2
  if l2 = 0 then some (some s1)
  else
    let l1 ← strlen fuel m s1
    some (strstrLoop m s2 l2 l1.toNat s1)

def memset (m : μ) (s : Word) (c : BitVec 32) (n : Word) : μ :=
  Nat.fold n.toNat (fun i _ m => store m (cell s i) (c.setWidth 8)) m

def memcpy (m : μ) (dest src n : Word) : μ :=
  Nat.fold n.toNat (fun i _ m => store m (cell dest i) (load m (cell src i))) m

/-- `while (n--) *d++ = *s++` -/
def moveUp : Nat → Word → Word → μ → μ
  | 0, _, _, m => m
  | n + 1, d, s, m => moveUp n (d + 1) (s + 1) (store m d (load m s))

/-- `while (n--) *--d = *--s` -/
def moveDown : Nat → Word → Word → μ → μ
  | 0, _, _, m => m
  | n + 1, d, s, m => moveDown n (d - 1) (s - 1) (store m (d - 1) (load m (s - 1)))

def memmove (m : μ) (dest src n : Word) : μ :=
  if dest ≤ src then moveUp n.toNat dest src m
  else moveDown n.toNat (dest + n) (src + n) m

def memchrLoop (m : μ) (chr : BitVec 8) : Nat → Word → Option Word
  | 0, _ => none
  | n + 1, str => if load m str = chr then some str else memchrLoop m chr n (str + 1)

def memchr (m : μ) (s : Word) (c : BitVec 32) (n : Word) : Option Word :=
  memchrLoop m (c.setWidth 8) n.toNat s

end Dmos.Strings
