import Mathlib.Data.List.Basic
import Dmos.Frame

namespace Dmos.Printf

abbrev Byte := BitVec 8

/-- A character constant. -/
def ch (c : Char) : Byte := BitVec.ofNat 8 c.toNat

/-- What stands before the terminator of a string. -/
structure CString where
  bytes : List Byte
  nonzero : 0 ∉ bytes

/-- A read of the object a pointer points into, at an offset; `none` outside it. -/
abbrev Reader := Nat → Option Byte

/-- The terminator is the last byte that can be read. -/
def CString.read (s : CString) : Reader := fun i =>
  if i < s.bytes.length then s.bytes[i]? else if i = s.bytes.length then some 0 else none

def isDigit (c : Byte) : Bool := ch '0' ≤ c && c ≤ ch '9'

/-- `while (pred(*s)) s++`, the offset where it stops. -/
def skip (rd : Reader) (pred : Byte → Bool) : Nat → Nat → Option Nat
  | 0, _ => none
  | fuel + 1, s => (rd s).bind fun c => if pred c then skip rd pred fuel (s + 1) else some s

/-- The last loop of `atol`; `acc` is a `long` that wraps. -/
def atolDigits (rd : Reader) : Nat → Nat → Word → Option Word
  | 0, _, _ => none
  | fuel + 1, s, acc => (rd s).bind fun c =>
    if c = 0 then some acc
    else if isDigit c then atolDigits rd fuel (s + 1) (acc * 10 + (c - ch '0').setWidth 64)
    else some acc

def atol (rd : Reader) (fuel ptr : Nat) : Option Word :=
  (skip rd (fun c => c = ch ' ' || c = ch '\t') fuel ptr).bind fun s =>
  (rd s).bind fun c =>
    if c = ch '-' then (atolDigits rd fuel (s + 1) 0).map fun acc => - acc
    else if c = ch '+' then atolDigits rd fuel (s + 1) 0
    else atolDigits rd fuel s 0

/-- The number at the cursor and the cursor after it. The length and the value are found
by two scans. `len` is an `int`, so a longer run of digits overflows it: `none`. -/
def fmtnum (rd : Reader) (fuel fmt : Nat) : Option (BitVec 32 × Nat) :=
  (rd fmt).bind fun c =>
  (skip rd isDigit fuel (if c = ch '-' then fmt + 1 else fmt)).bind fun f =>
  (atol rd fuel fmt).bind fun num =>
    if f - fmt < 2 ^ 31 then some (num.setWidth 32, f) else none

structure Strprops where
  pad : Byte
  npad : BitVec 32
  alternate : Bool

/-- What the formatter finds in memory: the bytes around the table `digits`, the strings
of `%s` arguments, and the words that `%p` arguments point to. -/
structure Env where
  around : Int → Byte
  strAt : Word → CString
  word : Word → BitVec 32

def digitTable : List Byte :=
  ['0', '1', '2', '3', '4', '5', '6', '7', '8', '9', 'a', 'b', 'c', 'd', 'e', 'f'].map ch

/-- `digits[i]`, also for an index outside the table. -/
def Env.digits (env : Env) (i : Int) : Byte :=
  if 0 ≤ i ∧ i < 16 then digitTable.getD i.toNat 0 else env.around i

/-- The bytes of a local buffer before its first zero. -/
def cstring (buf : List Byte) : List Byte := buf.takeWhile (· ≠ 0)

/-- `while (n) { *p++ = digits[n % base]; n /= base; }`. 64 passes are enough for a `long`. -/
def digitLoop (digits : Int → Byte) (base : Int) : Nat → Int → List Byte
  | 0, _ => []
  | fuel + 1, n =>
    if n = 0 then [] else digits (n.tmod base) :: digitLoop digits base fuel (n.tdiv base)

/-- One pass of the reversal: `buf[i]` and `p[-1 - i]` change places. -/
def swapEnds (buf : List Byte) (i : Nat) : List Byte :=
  (buf.set i (buf.getD (buf.length - 1 - i) 0)).set (buf.length - 1 - i) (buf.getD i 0)

def reverseLoop (buf : List Byte) : List Byte :=
  (List.range (buf.length / 2)).foldl swapEnds buf

section Stream

/-! The functions that print take their stream as a parameter; `addchar` below is the
one of the source. -/

variable {σ : Type} (add : σ → Byte → σ)

/-- `while (n > 0) { addchar(p, pad); --n; }`. -/
def padLoop (pad : Byte) : Nat → σ → σ
  | 0, p => p
  | n + 1, p => padLoop pad n (add p pad)

/-- `s` is the string without its terminator. -/
def printStr (p : σ) (s : List Byte) (props : Strprops) : σ :=
  let strlen : BitVec 32 := BitVec.ofNat 32 s.length
  let left := 0 < props.npad.toInt
  let npad := if left then props.npad - strlen else props.npad
  let p := if left then padLoop add props.pad npad.toInt.toNat p else p
  let p := s.foldl add p
  if npad.toInt < 0 then padLoop add (ch ' ') (- (npad + strlen).toInt).toNat p else p

/-- `- n` wraps at the least `long`. -/
def printInt (digits : Int → Byte) (p : σ) (n : Word) (base : Int) (props : Strprops) : σ :=
  let s := n.toInt < 0
  let n := if s then - n else n
  let buf := digitLoop digits base 64 n.toInt
  let buf := if s then buf ++ [ch '-'] else buf
  let buf := if buf = [] then [ch '0'] else buf
  printStr add p (cstring (reverseLoop buf)) props

def printUnsigned (digits : Int → Byte) (p : σ) (n : BitVec 32) (base : Int) (props : Strprops) :
    σ :=
  let buf := digitLoop digits base 64 n.toNat
  if buf = [] then printStr add p (cstring (reverseLoop [ch '0'])) props
  else if props.alternate && base == 16 then
    if props.pad = ch '0' then
      let npad := if 0 < props.npad.toInt then
          if 0 < (props.npad - 2).toInt then props.npad - 2 else 0
        else props.npad
      printStr add (add (add p (ch '0')) (ch 'x')) (cstring (reverseLoop buf))
        { props with npad := npad }
    else printStr add p (cstring (reverseLoop (buf ++ [ch 'x', ch '0']))) props
  else printStr add p (cstring (reverseLoop buf)) props

end Stream

/-- The labels of `switch (f)`. -/
inductive Label where
  | percent | char | terminator | alternate | zero | number | long | size
  | signed | unsigned | hex | pointer | string | other
  deriving DecidableEq

def Label.ofByte (f : Byte) : Label :=
  if f = ch '%' then .percent
  else if f = ch 'c' then .char
  else if f = 0 then .terminator
  else if f = ch '#' then .alternate
  else if f = ch '0' then .zero
  else if ch '1' ≤ f && f ≤ ch '9' || f = ch '-' then .number
  else if f = ch 'l' then .long
  else if f = ch 't' || f = ch 'z' then .size
  else if f = ch 'd' then .signed
  else if f = ch 'u' then .unsigned
  else if f = ch 'x' then .hex
  else if f = ch 'p' then .pointer
  else if f = ch 's' then .string
  else .other

/-- The two pointers of `vsnprintf` into its arguments, and the argument pointers it
has read through. -/
structure Cursor where
  fmt : Nat
  va : Nat
  reads : List Word

/-- Where the body of the loop stands: at its head, or at the label `morefmt`. -/
inductive Mode where
  | text
  | morefmt (nlong : BitVec 32) (props : Strprops)

section Format

variable {σ : Type} (add : σ → Byte → σ) (env : Env) (fmt : CString) (va : Nat → Word)

/-- `va_arg` takes the next slot of eight bytes. -/
def Cursor.next (c : Cursor) : Cursor := { c with va := c.va + 1 }

/-- `va_arg(va, uint32_t)` and `va_arg(va, unsigned)`. -/
def vaUnsigned (c : Cursor) : BitVec 32 := (va c.va).setWidth 32

/-- `va_arg` of the signed type that `nlong` selects, as a `long`. -/
def vaSigned (nlong : BitVec 32) (c : Cursor) : Word :=
  if nlong = 0 then ((va c.va).setWidth 32).signExtend 64 else va c.va

/-- The labels that end a directive: what is printed, and the arguments taken. -/
def convert (f : Byte) (label : Label) (nlong : BitVec 32) (props : Strprops) (p : σ) (c : Cursor) :
    σ × Cursor :=
  match label with
  | .percent => (add p (ch '%'), c)
  | .char => (add p ((va c.va).setWidth 8), c.next)
  | .signed => (printInt add env.digits p (vaSigned va nlong c) 10 props, c.next)
  | .unsigned => (printUnsigned add env.digits p (vaUnsigned va c) 10 props, c.next)
  | .hex => (printUnsigned add env.digits p (vaUnsigned va c) 16 props, c.next)
  | .pointer =>
    (printUnsigned add env.digits p (env.word (va c.va)) 16 { props with alternate := true },
      { c.next with reads := c.reads ++ [va c.va] })
  | .string =>
    (printStr add p (env.strAt (va c.va)).bytes props,
      { c.next with reads := c.reads ++ [va c.va] })
  | _ => (add p f, c)

/-- The label `number`: step back, read the width, go to `morefmt`. -/
def width (nlong : BitVec 32) (props : Strprops) (p : σ) (c : Cursor) :
    Option (σ × Cursor × Option Mode) :=
  (fmtnum fmt.read (fmt.bytes.length + 1) (c.fmt - 1)).map fun (num, f) =>
    (p, { c with fmt := f }, some (.morefmt nlong { props with npad := num }))

/-- One pass from the loop's head or from `morefmt`. No mode: the loop is over. -/
def body (mode : Mode) (p : σ) (c : Cursor) : Option (σ × Cursor × Option Mode) :=
  (fmt.read c.fmt).bind fun f =>
  let c' := { c with fmt := c.fmt + 1 }
  match mode with
  | .text =>
    if f = 0 then some (p, c, none)
    else if f ≠ ch '%' then some (add p f, c', some .text)
    else some (p, c', some (.morefmt 0 ⟨ch ' ', 0, false⟩))
  | .morefmt nlong props =>
    match Label.ofByte f with
    | .terminator => some (p, { c' with fmt := c'.fmt - 1 }, some .text)
    | .alternate => some (p, c', some (.morefmt nlong { props with alternate := true }))
    -- steps forward first, and falls through
    | .zero => width fmt nlong { props with pad := ch '0' } p { c' with fmt := c'.fmt + 1 }
    | .number => width fmt nlong props p c'
    | .long => some (p, c', some (.morefmt (nlong + 1) props))
    | .size => some (p, c', some (.morefmt 1 props))
    | label =>
      let (p, c') := convert add env va f label nlong props p c'
      some (p, c', some .text)

def formatLoop : Nat → Mode → σ → Cursor → Option (σ × Cursor)
  | 0, _, _, _ => none
  | fuel + 1, mode, p, c => (body add env fmt va mode p c).bind fun (p, c, next) =>
    match next with
    | none => some (p, c)
    | some mode => formatLoop fuel mode p c

/-- Every pass takes a character, up to two at the terminator. -/
def format (p : σ) : Option (σ × Cursor) :=
  formatLoop add env fmt va (fmt.bytes.length + 2) .text p ⟨0, 0, []⟩

end Format

/-- `buffer` is the offset of the next store; `stores` has the stores made. -/
structure Pstream where
  buffer : Nat
  remain : BitVec 32
  added : BitVec 32
  stores : List (Nat × Byte)

def addchar (p : Pstream) (c : Byte) : Pstream :=
  let p := if p.remain ≠ 0 then
      { p with buffer := p.buffer + 1, remain := p.remain - 1, stores := p.stores ++ [(p.buffer, c)] }
    else p
  { p with added := p.added + 1 }

/-- What a call leaves: its return value, its stores into the buffer, and the argument
pointers it read through. -/
structure Result where
  ret : BitVec 32
  stores : List (Nat × Byte)
  reads : List Word

def vsnprintf (env : Env) (size : BitVec 32) (fmt : CString) (va : Nat → Word) : Option Result :=
  (format addchar env fmt va ⟨0, size - 1, 0, []⟩).map fun (s, c) =>
    ⟨s.added, s.stores ++ [(s.buffer, 0)], c.reads⟩

/-- The byte at an offset of the buffer after the stores. -/
def Result.held (r : Result) : Reader := fun i =>
  r.stores.foldl (fun m st => if st.1 = i then some st.2 else m) none

end Dmos.Printf
