import Dmos.Lib.Bytes
import Dmos.Strings

namespace Dmos.ThreadInfo
open Lib

/-- `STACK_SIZE` -/
def stackSize : Word := 1#64 <<< 14
/-- `THREAD_SIZE` -/
def threadSize : Word := 1#64 <<< 14

/-- `struct thread_info` -/
structure Info where
  cpu : BitVec 32
  flags : BitVec 32
  pgtable : Word
  currentThread : Word
  deriving DecidableEq, Repr

/-- `sizeof(struct thread_info)` -/
def infoSize : Word := 24

abbrev Mem := Word → BitVec 8

def store32 (m : Mem) (a : Word) (v : BitVec 32) : Mem := Bytes.perform m (Bytes.stores a 4 (v.setWidth 64))
def store64 (m : Mem) (a v : Word) : Mem := Bytes.perform m (Bytes.stores a 8 v)

/-- The structure at an address. -/
def readInfo (m : Mem) (ti : Word) : Info where
  cpu := (Bytes.load m (cell ti 0) 4).setWidth 32
  flags := (Bytes.load m (cell ti 4) 4).setWidth 32
  pgtable := Bytes.load m (cell ti 8) 8
  currentThread := Bytes.load m (cell ti 16) 8

def threadInfoSp (sp : Word) : Word := sp &&& ~~~ (threadSize - 1)

def threadInfoInit (m : Mem) (ti : Word) (flags id : BitVec 32) : Mem :=
  let m := Strings.memset m ti 0 infoSize
  let m := store32 m (cell ti 0) id
  store32 m (cell ti 4) flags

/-- The symbols of `boot.S` that `start_secondary_cpus` uses. -/
structure Stacks where
  stackTop : Word
  stackTopSecond : Word

namespace Stacks

/-- The argument of `thread_info_init` for core `i`. -/
def info (st : Stacks) (i : Nat) : Word :=
  if i = 0 then st.stackTop - stackSize else st.stackTopSecond - stackSize * BitVec.ofNat 64 i

/-- The stack pointer that core `i` starts with: what `primary_entry` loads, or the context
argument of the `hvc_call`. -/
def start (st : Stacks) (i : Nat) : Word :=
  if i = 0 then st.stackTop else st.stackTopSecond - stackSize * BitVec.ofNat 64 (i - 1)

/-- The core runs on its stack: something has been pushed, and the stack has not overflowed. -/
def InStack (st : Stacks) (c : Nat) (sp : Word) : Prop :=
  (st.start c).toNat - stackSize.toNat ≤ sp.toNat ∧ sp.toNat < (st.start c).toNat

/-- The section of the stacks in `boot.S`: 16 KiB and above it 64 KiB, aligned to 16 KiB,
with all the stacks of `smp` cores above address zero. -/
structure Linked (st : Stacks) (smp : Nat) : Prop where
  aligned : st.stackTop.toNat % 0x4000 = 0
  second : st.stackTopSecond.toNat = st.stackTop.toNat + 4 * 0x4000
  primary : 0x4000 ≤ st.stackTop.toNat
  room : 0x4000 * smp ≤ st.stackTopSecond.toNat

end Stacks

/-- Accesses to a `thread_info`: the call of `thread_info_init` for a core, and a store to
`current_thread_info()->current_thread` by a core. -/
inductive Op where
  | init (i : Nat)
  | setCurrent (c : Nat) (sp thread : Word)

def Op.Valid (st : Stacks) (smp : Nat) : Op → Prop
  | .init i => i < smp
  | .setCurrent c sp _ => c < smp ∧ st.InStack c sp

def exec (st : Stacks) (m : Mem) : Op → Mem
  | .init i => threadInfoInit m (st.info i) 0 (BitVec.ofNat 32 i)
  | .setCurrent _ sp thread => store64 m (cell (threadInfoSp sp) 16) thread

/-- What the accesses are for: a record of its own for each core. -/
def execInfos (infos : Nat → Info) : Op → Nat → Info
  | .init i => Function.update infos i ⟨BitVec.ofNat 32 i, 0, 0, 0⟩
  | .setCurrent c _ thread => Function.update infos c { infos c with currentThread := thread }

end Dmos.ThreadInfo
