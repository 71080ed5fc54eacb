import Mathlib.Logic.Function.Basic

namespace Dmos

/-- How an operation on linked structures goes wrong. -/
inductive Fault where
  /-- A null pointer is dereferenced. -/
  | null
  /-- A pointer is used as one to something it does not point to. -/
  | wild
  /-- `tv_abort`, which does not return. -/
  | abort
  /-- A loop does not end within the fuel it was given. -/
  | loop
  deriving DecidableEq, Repr

def deref {α : Type} : Option α → Except Fault α
  | some a => .ok a
  | none => .error .null

@[simp] theorem deref_some {α : Type} (a : α) : deref (some a) = .ok a := rfl

@[simp] theorem ok_bind {α β : Type} (a : α) (f : α → Except Fault β) :
    (Except.ok a >>= f) = f a := rfl

theorem bind_eq_ok {α β : Type} {x : Except Fault α} {f : α → Except Fault β} {r : β}
    (h : x >>= f = .ok r) : ∃ a, x = .ok a ∧ f a = .ok r := by
  cases x with
  | error e => cases h
  | ok a => exact ⟨a, rfl, h⟩

/-- What a `queue_node_t *` can point to: the sentinels of the queue, or the node
embedded in element `i` of the pool. -/
inductive QueueRef where
  | head
  | tail
  | node (i : Nat)
  deriving DecidableEq, Repr

structure QueueNode where
  prev : Option QueueRef
  next : Option QueueRef
  deriving DecidableEq, Repr

/-- The links of a `queue_t` and of all nodes that may be put in it. -/
abbrev Queue := QueueRef → QueueNode

namespace Queue

def setPrev (q : Queue) (r : QueueRef) (p : Option QueueRef) : Queue :=
  Function.update q r { q r with prev := p }

def setNext (q : Queue) (r : QueueRef) (p : Option QueueRef) : Queue :=
  Function.update q r { q r with next := p }

def queueRemove (q : Queue) (que : QueueRef) : Except Fault Queue := do
  let prev ← deref (q que).prev
  let q := q.setNext prev (q que).next
  let next ← deref (q que).next
  let q := q.setPrev next (q que).prev
  return (q.setPrev que none).setNext que none

/-- `queue_insert`; null arguments are reported and ignored. -/
def queueInsert (q : Queue) (que prev : Option QueueRef) : Except Fault Queue :=
  match que, prev with
  | some que, some prev => do
    let q := q.setNext que (q prev).next
    let next ← deref (q que).next
    let q := q.setPrev next (some que)
    let q := q.setPrev que (some prev)
    return q.setNext prev (some que)
  | _, _ => return q

def queueInsertPrev (q : Queue) (que next : Option QueueRef) : Except Fault Queue :=
  match que, next with
  | some que, some next => do
    let q := q.setPrev que (q next).prev
    let prev ← deref (q que).prev
    let q := q.setNext prev (some que)
    let q := q.setNext que (some next)
    return q.setPrev next (some que)
  | _, _ => return q

def queueListInit (q : Queue) : Queue :=
  let q := q.setPrev .head none
  let q := q.setNext .head (some .tail)
  let q := q.setPrev .tail (some .head)
  q.setNext .tail none

def queueListEnque (q : Queue) (que : Option QueueRef) : Except Fault Queue :=
  q.queueInsert que (q .tail).prev

def queueListIsEmpty (q : Queue) : Except Fault Bool := do
  let first ← deref (q .head).next
  return (q first).next = none

def queueListTop (q : Queue) : Except Fault (Option QueueRef) := do
  if ← q.queueListIsEmpty then return none
  return (q .head).next

def queueListPop (q : Queue) : Except Fault (Option QueueRef × Queue) := do
  if ← q.queueListIsEmpty then return (none, q)
  let que ← deref (q .head).next
  let q ← q.queueRemove que
  return (some que, q)

/-- The loop of `queue_list_check`, from `tmp` on. -/
def checkLoop (q : Queue) : Nat → QueueRef → Except Fault Bool
  | 0, _ => .error .loop
  | fuel + 1, tmp =>
    match (q tmp).next with
    | none => return tmp = .tail
    | some next => do
      if (q next).prev ≠ some tmp then return false
      let prev ← deref (q next).prev
      if (q prev).next ≠ some next then return false
      q.checkLoop fuel next

def queueListCheck (fuel : Nat) (q : Queue) : Except Fault Bool :=
  if (q .head).prev ≠ none then return false
  else if (q .tail).next ≠ none then return false
  else q.checkLoop fuel .head

/-- The loop of `queue_list_find`. The pointers are compared before `tmp` is
dereferenced. -/
def findLoop (q : Queue) (que : Option QueueRef) : Nat → Option QueueRef → Except Fault Bool
  | 0, _ => .error .loop
  | fuel + 1, tmp =>
    if tmp = some .tail then return false
    else if tmp = que then return true
    else do
      let tmp ← deref tmp
      q.findLoop que fuel (q tmp).next

def queueListFind (fuel : Nat) (q : Queue) (que : Option QueueRef) : Except Fault Bool :=
  q.findLoop que fuel (q .head).next

end Queue

end Dmos
