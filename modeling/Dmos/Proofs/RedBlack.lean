import Dmos.Lib.Run
import Dmos.Proofs.SharedPool

namespace Dmos.Proofs.RedBlack

open Dmos.Lib Dmos.Rbtree Dmos.Proofs.TreeShape Dmos.Proofs.Delete Dmos.Proofs.SharedPool Tree

variable {K V : Type}

/-- The keys and values in the nodes that are reached from a node, in order. -/
def inorder (h : Heap K V) : Nat → Option Nat → List (K × V)
  | 0, _ => []
  | _ + 1, none => []
  | n + 1, some i => inorder h n (h i).left ++ ((h i).key, (h i).val) :: inorder h n (h i).right

theorem inorder_repr {h : Heap K V} {q : Option Nat} {t : Tree Nat K V} {n : Nat}
    (hr : Repr h q t) (hn : t.ids.length ≤ n) : inorder h n t.root = t.entries := by
  induction t generalizing q n with
  | nil => cases n <;> rfl
  | node id c l k v r ihl ihr =>
    obtain ⟨hid, hl, hr⟩ := hr
    simp only [ids, List.length_cons, List.length_append] at hn
    obtain ⟨n, rfl⟩ : ∃ m, n = m + 1 := ⟨n - 1, by omega⟩
    simp only [root_node, inorder, hid, ihl hl (show l.ids.length ≤ n by omega),
      ihr hr (show r.ids.length ≤ n by omega), entries]

/-- What is stored in a tree. -/
def contents (s : State K V) (tree : RbtreeT K) : List (K × V) :=
  inorder s.pool.heap rbtreeNodePoolNum tree.head

def step (fuel : Nat) (s : State K V) (op : Op K V) : Option (State K V) :=
  (s.step fuel op).toOption

/-- The calls that a client may make: comparators are total preorders and trees
exist, an insertion finds a node in the pool, and a deletion is of a stored key. -/
def Admissible (s : State K V) : Op K V → Prop
  | .alloc comp => TotalPreorder comp ∧ s.trees.length < treePoolNum
  | .insert t _ _ => t < s.trees.length ∧ rbtreeNodeAlloc s.pool ≠ .error .abort
  | .delete t k => ∃ tree, s.trees[t]? = some tree ∧
      ∃ e ∈ contents s tree, tree.comp e.1 k = 0

variable {s : State K V} {T : Nat → Tree Nat K V} {fl : List Nat} {fuel : Nat}

theorem contents_forest (hF : Forest s T fl) {t : Nat} {tree : RbtreeT K}
    (ht : s.trees[t]? = some tree) : contents s tree = (T t).entries := by
  have hs := hF.sound t tree ht
  rw [contents, ← hs.head]
  exact inorder_repr hs.shape.repr (hF.length_le t)

theorem step_forest (hf : rbtreeNodePoolNum + 2 ≤ fuel) (op : Op K V) (hF : Forest s T fl)
    (ha : Admissible s op) : ∃ s', step fuel s op = some s' ∧ ∃ T' fl', Forest s' T' fl' := by
  cases op with
  | alloc comp =>
    obtain ⟨hok, hF'⟩ := hF.alloc ha.1 ha.2 fuel
    exact ⟨_, by rw [step, hok]; rfl, _, _, hF'⟩
  | insert t k v =>
    obtain ⟨hlt, he⟩ := ha
    have ht : s.trees[t]? = some s.trees[t] := List.getElem?_eq_getElem hlt
    obtain ⟨p, T', fl', hok, hF', -⟩ := hF.insert (k := k) (v := v) ht he hf
    exact ⟨_, by rw [step, hok]; rfl, _, _, hF'⟩
  | delete t k =>
    obtain ⟨tree, ht, hk⟩ := ha
    rw [contents_forest hF ht] at hk
    obtain ⟨p, T', fl', hok, hF', -⟩ := hF.delete ht hk hf
    exact ⟨_, by rw [step, hok]; rfl, _, _, hF'⟩

/-- Every run of admissible calls goes through, and keeps the invariant. -/
theorem run_forest (hf : rbtreeNodePoolNum + 2 ≤ fuel) (h : Heap K V) (q : Queue)
    (ops : List (Op K V)) (ha : Along (step fuel) Admissible (State.init h q) ops) :
    ∃ s, run (step fuel) (State.init h q) ops = some s ∧ ∃ T fl, Forest s T fl :=
  run_invariant (fun _ op hF ha => by
    obtain ⟨T, fl, hF⟩ := hF
    exact step_forest hf op hF ha) ops _ ⟨_, _, init_forest h q⟩ ha

/-- After every run, each tree is a red-black search tree. That the run has a
result says that no call met a null pointer, a wild pointer or an endless loop. -/
theorem red_black_after_run (hf : rbtreeNodePoolNum + 2 ≤ fuel) (h : Heap K V) (q : Queue)
    (ops : List (Op K V)) (ha : Along (step fuel) Admissible (State.init h q) ops) :
    ∃ s, run (step fuel) (State.init h q) ops = some s ∧
      ∀ (t : Nat) tree, s.trees[t]? = some tree → ∃ T, Sound s.pool.heap tree T := by
  obtain ⟨s, hrun, T, fl, hF⟩ := run_forest hf h q ops ha
  exact ⟨s, hrun, fun t tree ht => ⟨T t, hF.sound t tree ht⟩⟩

/-- The order of the numbers, as a comparison function. -/
def natOrder (a b : Nat) : Int := b - a

theorem natOrder_total : TotalPreorder natOrder :=
  ⟨fun a b => by unfold natOrder; omega, fun a b c => by unfold natOrder; omega⟩

def blankHeap : Heap Nat Nat := fun _ => ⟨0, 0, none, none, none, .red⟩

def blankQueue : Queue := fun _ => ⟨none, none⟩

/-- Insertions and a deletion into the one tree of a fresh pool. -/
def sampleOps : List (Op Nat Nat) :=
  [.insert 0 4 40, .insert 0 2 20, .insert 0 6 60, .delete 0 4]

/-- `Admissible` for operations on trees that are there, computed. -/
def ready (s : State K V) : Op K V → Bool
  | .alloc _ => false
  | .insert t _ _ => decide (t < s.trees.length) && (rbtreeNodeAlloc s.pool).toBool
  | .delete t k => s.trees[t]?.any
      (fun tree => (contents s tree).any (fun e => tree.comp e.1 k == 0))

theorem ready_admissible (s : State K V) (op : Op K V) (h : ready s op = true) :
    Admissible s op := by
  cases op with
  | alloc comp => cases h
  | insert t k v =>
    simp only [ready, Bool.and_eq_true, decide_eq_true_eq] at h
    refine ⟨h.1, fun he => ?_⟩
    rw [he] at h
    cases h.2
  | delete t k =>
    obtain ⟨tree, ht, he⟩ := (Option.any_eq_true _ _).mp h
    obtain ⟨e, he, h0⟩ := List.any_eq_true.mp he
    exact ⟨tree, ht, e, he, by simpa using h0⟩

theorem sample_admissible (ops : List (Op Nat Nat))
    (h : alongB (step 1026) ready ⟨rbtreeInit ⟨blankHeap, blankQueue, 0⟩, [⟨none, natOrder⟩]⟩ ops =
      true) :
    Along (step 1026) Admissible (State.init blankHeap blankQueue) (.alloc natOrder :: ops) := by
  refine ⟨⟨natOrder_total, by decide⟩, fun s' hs => ?_⟩
  obtain rfl := Option.some.inj hs
  exact .of_alongB ready_admissible ops _ h

theorem red_black_after_run_sample :
    Along (step 1026) Admissible (State.init blankHeap blankQueue) (.alloc natOrder :: sampleOps) ∧
    ∃ s, run (step 1026) (State.init blankHeap blankQueue) (.alloc natOrder :: sampleOps) = some s ∧
      ∀ (t : Nat) tree, s.trees[t]? = some tree → ∃ T, Sound s.pool.heap tree T := by
  have ha := sample_admissible sampleOps (by decide +kernel)
  exact ⟨ha, red_black_after_run (by decide) _ _ _ ha⟩

end Dmos.Proofs.RedBlack
