import Mathlib.Algebra.GroupWithZero.Nat
import Dmos.Queue

namespace Dmos

def kernelRamStart : Nat := 0
def kernelRamEnd : Nat := 0x40000000 * 4

/-- How many `list_node_t` objects the kernel's memory can hold: one is two
pointers. -/
def nodeCells : Nat := (kernelRamEnd - kernelRamStart) / 16

instance neZero_nodeCells : NeZero nodeCells := ⟨by decide⟩

/-- A `list_node_t`, as one of the objects that there can be. -/
abbrev NodeId := Fin nodeCells

structure ListNode where
  pre : Option NodeId
  next : Option NodeId
  deriving DecidableEq, Repr

/-- A `list_t`, with the links of all nodes that may be put in it. -/
structure ListT where
  first : Option NodeId
  last : Option NodeId
  count : BitVec 32
  links : NodeId → ListNode

namespace ListT

def setPre (t : ListT) (node : NodeId) (p : Option NodeId) : ListT :=
  { t with links := Function.update t.links node { t.links node with pre := p } }

def setNext (t : ListT) (node : NodeId) (p : Option NodeId) : ListT :=
  { t with links := Function.update t.links node { t.links node with next := p } }

def listIsEmpty (t : ListT) : Bool := t.count = 0
def listCount (t : ListT) : BitVec 32 := t.count
def listFirst (t : ListT) : Option NodeId := t.first
def listLast (t : ListT) : Option NodeId := t.last

def listInit (t : ListT) : ListT := { t with last := none, first := none, count := 0 }

def listInsertFirst (t : ListT) (node : NodeId) : Except Fault ListT := do
  let t := t.setNext node t.first
  let t := t.setPre node none
  let t ← if t.listIsEmpty then pure { t with first := some node, last := some node }
    else do
      let first ← deref t.first
      let t := t.setPre first (some node)
      pure { t with first := some node }
  return { t with count := t.count + 1 }

def listInsertLast (t : ListT) (node : NodeId) : Except Fault ListT := do
  let t := t.setPre node t.last
  let t := t.setNext node none
  let t ← if t.listIsEmpty then pure { t with last := some node, first := some node }
    else do
      let last ← deref t.last
      let t := t.setNext last (some node)
      pure { t with last := some node }
  return { t with count := t.count + 1 }

def listDeleteFirst (t : ListT) : Except Fault (Option NodeId × ListT) := do
  if t.listIsEmpty then return (none, t)
  let removeNode ← deref t.first
  let t := { t with first := (t.links removeNode).next }
  let t ← if t.first = none then pure { t with last := none }
    else do
      let next ← deref (t.links removeNode).next
      pure (t.setPre next none)
  let t := (t.setNext removeNode none).setPre removeNode none
  return (some removeNode, { t with count := t.count - 1 })

/-- `if (p) p->next = n` -/
def setNextOf (t : ListT) (p n : Option NodeId) : ListT :=
  match p with
  | some p => t.setNext p n
  | none => t

/-- `if (p) p->pre = n` -/
def setPreOf (t : ListT) (p n : Option NodeId) : ListT :=
  match p with
  | some p => t.setPre p n
  | none => t

def listDelete (t : ListT) (node : NodeId) : NodeId × ListT :=
  let t := { t with first := if some node = t.first then (t.links node).next else t.first }
  let t := { t with last := if some node = t.last then (t.links node).pre else t.last }
  let t := t.setNextOf (t.links node).pre (t.links node).next
  let t := t.setPreOf (t.links node).next (t.links node).pre
  let t := (t.setNext node none).setPre node none
  (node, { t with count := t.count - 1 })

end ListT

end Dmos
