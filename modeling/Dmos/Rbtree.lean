import Dmos.Queue
import Dmos.Lib.ColorTree

namespace Dmos.Rbtree

open Dmos.Lib

def rbtreeNodePoolNum : Nat := 1024

/-- `rbnode_t`. A pointer is the index of its node in `node_pool`. The source
writes each half of a symmetric case out with `left` and `right` exchanged; those
halves are one definition here, over a `Side`. -/
structure RbNode (K V : Type) where
  key : K
  val : V
  par : Option Nat
  left : Option Nat
  right : Option Nat
  color : Color

namespace RbNode

variable {K V : Type}

def child (n : RbNode K V) : Side → Option Nat
  | .left => n.left
  | .right => n.right

def setChild (n : RbNode K V) (s : Side) (p : Option Nat) : RbNode K V :=
  match s with
  | .left => { n with left := p }
  | .right => { n with right := p }

def setEntry (n : RbNode K V) (k : K) (v : V) : RbNode K V := { n with key := k, val := v }

def setPar (n : RbNode K V) (p : Option Nat) : RbNode K V := { n with par := p }

def setColor (n : RbNode K V) (c : Color) : RbNode K V := { n with color := c }

end RbNode

abbrev Heap (K V : Type) := Nat → RbNode K V

variable {K V : Type}

namespace Heap

def mod (h : Heap K V) (i : Nat) (f : RbNode K V → RbNode K V) : Heap K V :=
  fun j => if j = i then f (h j) else h j

def setEntry (h : Heap K V) (i : Nat) (k : K) (v : V) : Heap K V :=
  h.mod i (fun n => n.setEntry k v)

def setPar (h : Heap K V) (i : Nat) (p : Option Nat) : Heap K V := h.mod i (fun n => n.setPar p)

def setChild (h : Heap K V) (i : Nat) (s : Side) (p : Option Nat) : Heap K V :=
  h.mod i (fun n => n.setChild s p)

def setColor (h : Heap K V) (i : Nat) (c : Color) : Heap K V := h.mod i (fun n => n.setColor c)

/-- `if (p) p->par = q` -/
def linkPar (h : Heap K V) (p q : Option Nat) : Heap K V :=
  fun j => if p = some j then (h j).setPar q else h j

/-- `p != NULL && p->color == NODE_RED` -/
def isRed (h : Heap K V) : Option Nat → Bool
  | none => false
  | some i => (h i).color = .red

end Heap

/-- `rotate` when `par` and `tar` are left children: the only case that moves
another node to the top. -/
def rotateLeftLeft (h : Heap K V) (par gpar : Nat) : Heap K V :=
  let top := (h gpar).par
  let h := h.setPar par top
  let h := match top with
    | none => h
    | some g =>
      if (h g).left = some gpar then h.setChild g .left (some par)
      else h.setChild g .right (some par)
  let h := h.setPar gpar (some par)
  let h := h.setChild gpar .left (h par).right
  let h := h.linkPar (h par).right (some gpar)
  h.setChild par .right (some gpar)

/-- `rotate` when `par` and `tar` are right children: the keys move and `gpar`
stays on top. -/
def rotateRightRight (h : Heap K V) (tar par gpar : Nat) : Heap K V :=
  let gkey := (h gpar).key
  let gval := (h gpar).val
  let h := h.setEntry gpar (h par).key (h par).val
  let h := h.setEntry par (h tar).key (h tar).val
  let h := h.setEntry tar gkey gval
  let h := h.setChild par .right (h tar).right
  let h := h.linkPar (h par).right (some par)
  let h := h.setChild tar .right (h par).left
  let h := h.linkPar (h tar).right (some tar)
  let h := h.setChild par .left (h tar).left
  let h := h.linkPar (h par).left (some par)
  let h := h.setChild tar .left (h gpar).left
  let h := h.linkPar (h tar).left (some tar)
  let h := h.setChild gpar .left (some tar)
  let h := h.setPar tar (some gpar)
  let h := h.setColor gpar .black
  h.setColor par .red

/-- `rotate` when `par` is on side `s` of `gpar` and `tar` on the other side of
`par`. -/
def rotateZigzag (s : Side) (h : Heap K V) (tar par gpar : Nat) : Heap K V :=
  let h := h.setColor tar .black
  let gkey := (h gpar).key
  let gval := (h gpar).val
  let h := h.setEntry gpar (h tar).key (h tar).val
  let h := h.setEntry tar gkey gval
  let h := h.setChild par s.other ((h tar).child s)
  let h := h.linkPar ((h par).child s.other) (some par)
  let h := h.setChild tar s ((h tar).child s.other)
  let h := h.setChild tar s.other ((h gpar).child s.other)
  let h := h.linkPar ((h tar).child s.other) (some tar)
  let h := h.setChild gpar s.other (some tar)
  h.setPar tar (some gpar)

/-- `rotate`; returns the node that is on top afterwards. -/
def rotate (h : Heap K V) (tar : Nat) : Except Fault (Heap K V × Nat) := do
  let par ← deref (h tar).par
  let gpar ← deref (h par).par
  if (h gpar).left = some par then
    if (h par).left = some tar then return (rotateLeftLeft h par gpar, par)
    else return (rotateZigzag .left h tar par gpar, gpar)
  else
    if (h par).right = some tar then return (rotateRightRight h tar par gpar, gpar)
    else return (rotateZigzag .right h tar par gpar, gpar)

/-- The free queue, the nodes, and how many of them were ever handed out. -/
structure Pool (K V : Type) where
  heap : Heap K V
  ls : Queue
  poolCount : Nat

/-- `rbtree_init` -/
def rbtreeInit (p : Pool K V) : Pool K V := { p with ls := p.ls.queueListInit }

def rbtreeNodeAlloc (p : Pool K V) : Except Fault (Nat × Pool K V) := do
  if ← p.ls.queueListIsEmpty then
    if p.poolCount ≥ rbtreeNodePoolNum then throw .abort
    else return (p.poolCount, { p with poolCount := p.poolCount + 1 })
  else
    match ← p.ls.queueListPop with
    | (some (.node i), q) => return (i, { p with ls := q })
    | _ => throw .wild

def rbtreeNodeFree (p : Pool K V) (node : Nat) : Except Fault (Pool K V) := do
  let h := match (p.heap node).par with
    | none => p.heap
    | some par =>
      if (p.heap par).left = some node then p.heap.setChild par .left none
      else p.heap.setChild par .right none
  let q ← p.ls.queueListEnque (some (.node node))
  return { p with heap := h, ls := q }

section Operations

variable (comp : K → K → Int)

/-- The first loop of `rbtree_insert`: down to a free place, where `tar` is hung. -/
def insertDescend (tar : Nat) : Nat → Heap K V → Nat → Except Fault (Heap K V)
  | 0, _, _ => .error .loop
  | fuel + 1, h, tmp =>
    let s : Side := if comp (h tmp).key (h tar).key > 0 then .right else .left
    match (h tmp).child s with
    | none => .ok ((h.setPar tar (some tmp)).setChild tmp s (some tar))
    | some next => insertDescend tar fuel h next

/-- The body of the second loop of `rbtree_insert`, up to the test for the root. -/
def insertFixStep (h : Heap K V) (tar : Nat) : Except Fault (Heap K V × Nat) := do
  let par ← deref (h tar).par
  let h := h.setColor par .black
  let gpar ← deref (h par).par
  let h := h.setColor gpar .red
  let s : Side := if (h gpar).left = some par then .left else .right
  match (h gpar).child s.other with
  | some uncle =>
    if (h uncle).color = .red then return (h.setColor uncle .black, gpar) else rotate h tar
  | none => rotate h tar

def insertFix : Nat → Heap K V → Option Nat → Nat → Except Fault (Heap K V × Option Nat)
  | 0, _, _, _ => .error .loop
  | fuel + 1, h, head, tar =>
    if (h tar).color = .red then do
      let par ← deref (h tar).par
      if (h par).color = .red then
        let (h, tar) ← insertFixStep h tar
        if (h tar).par = none then return (h.setColor tar .black, some tar)
        else insertFix fuel h head tar
      else return (h, head)
    else return (h, head)

def rbtreeInsert (fuel : Nat) (p : Pool K V) (head : Option Nat) (key : K) (val : V) :
    Except Fault (Pool K V × Option Nat) := do
  let (tar, p) ← rbtreeNodeAlloc p
  let h := p.heap.setEntry tar key val
  let h := (h.setChild tar .left none).setChild tar .right none
  let h := h.setColor tar .red
  match head with
  | none =>
    let h := (h.setPar tar none).setColor tar .black
    return ({ p with heap := h }, some tar)
  | some tmp =>
    let h ← insertDescend comp tar fuel h tmp
    let (h, head) ← insertFix fuel h head tar
    return ({ p with heap := h }, head)

def rbtreeSearch : Nat → Heap K V → Option Nat → K → Except Fault (Option Nat)
  | 0, _, _, _ => .error .loop
  | _ + 1, _, none, _ => .ok none
  | fuel + 1, h, some tar, val =>
    let cmp := comp (h tar).key val
    if cmp = 0 then .ok (some tar)
    else if cmp > 0 then rbtreeSearch fuel h (h tar).right val
    else rbtreeSearch fuel h (h tar).left val

/-- `while (max_node->right != NULL)` -/
def maxNode : Nat → Heap K V → Nat → Except Fault Nat
  | 0, _, _ => .error .loop
  | fuel + 1, h, m =>
    match (h m).right with
    | none => .ok m
    | some r => maxNode fuel h r

/-- The substitution part of `rbtree_delete`: the heap, `tree->head` and
`del_tar`. -/
def deleteSelect (fuel : Nat) (h : Heap K V) (head : Option Nat) (tar : Nat) :
    Except Fault (Heap K V × Option Nat × Nat) :=
  match (h tar).left with
  | none =>
    match (h tar).right with
    | none => .ok (h, if head = some tar then none else head, tar)
    | some r => .ok (h.setEntry tar (h r).key (h r).val, head, r)
  | some m => do
    let m ← maxNode fuel h m
    -- only the key is copied here; the value of `tar` stays
    let h := h.setEntry tar (h m).key (h tar).val
    match (h m).left with
    | some l => return (h.setEntry m (h l).key (h l).val, head, l)
    | none => return (h, head, m)

/-- The sibling `v` is black and its child `w` on the side of `tar` is red. -/
def deleteInner (s : Side) (h : Heap K V) (tmp v w : Nat) : Except Fault (Heap K V) := do
  let tkey := (h tmp).key
  let tval := (h tmp).val
  let h := h.setEntry tmp (h w).key (h w).val
  let h := h.setChild v s ((h w).child s.other)
  let h := h.linkPar ((h w).child s.other) (some v)
  let h := h.setChild w s.other ((h w).child s)
  let h := h.setChild w s ((h tmp).child s)
  let x ← deref ((h w).child s)
  let h := h.setPar x (some w)
  let h := h.setPar w (some tmp)
  let h := h.setChild tmp s (some w)
  let h := h.setEntry w tkey tval
  return h.setColor w .black

/-- The sibling `v` is black and only its child `w` on the far side is red. -/
def deleteOuter (s : Side) (h : Heap K V) (tmp v w : Nat) : Except Fault (Heap K V) := do
  let tkey := (h tmp).key
  let tval := (h tmp).val
  let h := h.setEntry tmp (h v).key (h v).val
  let h := h.setPar w (some tmp)
  let h := h.setChild tmp s.other (some w)
  let h := h.setChild v s.other ((h v).child s)
  let h := h.setChild v s ((h tmp).child s)
  let x ← deref ((h v).child s)
  let h := h.setPar x (some v)
  let h := h.setEntry v tkey tval
  let h := h.setChild tmp s (some v)
  let h := h.setPar v (some tmp)
  return h.setColor w .black

/-- The sibling `v` is red: it is rotated to the side of `tar`, and the loop goes
on with `tar` one level further down. -/
def deleteRedSibling (s : Side) (h : Heap K V) (tmp v : Nat) : Except Fault (Heap K V) := do
  let tkey := (h tmp).key
  let tval := (h tmp).val
  let h := h.setEntry tmp (h v).key (h v).val
  let h := h.setEntry v tkey tval
  let h := h.setChild tmp s.other ((h v).child s.other)
  let y ← deref ((h tmp).child s.other)
  let h := h.setPar y (some tmp)
  let h := h.setChild v s.other ((h v).child s)
  let h := h.setChild v s ((h tmp).child s)
  let x ← deref ((h v).child s)
  let h := h.setPar x (some v)
  let h := h.setChild tmp s (some v)
  return h.setPar v (some tmp)

/-- One iteration of the fix-up loop of `rbtree_delete`, `tmp` being the parent of
`tar`: the heap, `flag` and `tar`. -/
def deleteFixStep (h : Heap K V) (tar tmp : Nat) : Except Fault (Heap K V × Bool × Nat) := do
  let s : Side := if (h tmp).left = some tar then .left else .right
  let v ← deref ((h tmp).child s.other)
  if (h v).color = .black then
    match (h v).child s, (h v).child s.other with
    | near, far =>
      if h.isRed near then
        let w ← deref near
        return (← deleteInner s h tmp v w, false, tmp)
      else if h.isRed far then
        let w ← deref far
        return (← deleteOuter s h tmp v w, false, tmp)
      else
        let h := h.setColor v .red
        let flag : Bool := (h tmp).color = .black
        return (h.setColor tmp .black, flag, tmp)
  else return (← deleteRedSibling s h tmp v, true, tar)

def deleteFix : Nat → Heap K V → Bool → Nat → Except Fault (Heap K V)
  | 0, _, _, _ => .error .loop
  | fuel + 1, h, flag, tar =>
    match flag, (h tar).par with
    | true, some tmp => do
      let (h, flag, tar) ← deleteFixStep h tar tmp
      deleteFix fuel h flag tar
    | _, _ => .ok h

def rbtreeDelete (fuel : Nat) (p : Pool K V) (head : Option Nat) (val : K) :
    Except Fault (Pool K V × Option Nat) := do
  let tar ← deref (← rbtreeSearch comp fuel p.heap head val)
  let (h, head, delTar) ← deleteSelect fuel p.heap head tar
  let h ← deleteFix fuel h ((h delTar).color = .black) delTar
  let p ← rbtreeNodeFree { p with heap := h } delTar
  return (p, head)

end Operations

/-- `rbtree_t` -/
structure RbtreeT (K : Type) where
  head : Option Nat
  comp : K → K → Int

/-- The statics of `rbtree.c`: the nodes, and the part of `tree_pool` that
`tree_count` covers. -/
structure State (K V : Type) where
  pool : Pool K V
  trees : List (RbtreeT K)

def treePoolNum : Nat := 16

/-- `rbtree_alloc`; the tree after the last one of `tree_pool` is not there. -/
def rbtreeAlloc (s : State K V) (comp : K → K → Int) : Except Fault (State K V) :=
  if s.trees.length < treePoolNum then .ok { s with trees := s.trees ++ [⟨none, comp⟩] }
  else .error .wild

/-- What a client calls; trees are named by their index in `tree_pool`. -/
inductive Op (K V : Type) where
  | alloc (comp : K → K → Int)
  | insert (t : Nat) (k : K) (v : V)
  | delete (t : Nat) (k : K)

/-- An operation on tree `t`, which also works on the shared node pool. -/
def State.onTree (s : State K V) (t : Nat)
    (f : (K → K → Int) → Pool K V → Option Nat → Except Fault (Pool K V × Option Nat)) :
    Except Fault (State K V) :=
  match s.trees[t]? with
  | none => .error .wild
  | some tree => do
    let (p, head) ← f tree.comp s.pool tree.head
    return ⟨p, s.trees.set t { tree with head := head }⟩

def State.step (fuel : Nat) (s : State K V) : Op K V → Except Fault (State K V)
  | .alloc comp => rbtreeAlloc s comp
  | .insert t k v => s.onTree t (fun comp p head => rbtreeInsert comp fuel p head k v)
  | .delete t k => s.onTree t (fun comp p head => rbtreeDelete comp fuel p head k)

/-- The state after `rbtree_init`, whatever the nodes and the queue links hold. -/
def State.init (h : Heap K V) (q : Queue) : State K V := ⟨rbtreeInit ⟨h, q, 0⟩, []⟩

end Dmos.Rbtree
