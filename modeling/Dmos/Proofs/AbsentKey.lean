import Dmos.Proofs.NodePool

namespace Dmos.Proofs.AbsentKey

open Dmos.Lib Dmos.Rbtree Dmos.Proofs.Descent Dmos.Proofs.SharedPool Dmos.Proofs.RedBlack
open Dmos.Proofs.NodePool Tree

variable {K V : Type} {s s' : State K V} {T : Nat → Tree Nat K V} {fl : List Nat} {fuel : Nat}

/-- The search ends, at a node with an equivalent key or at the null pointer. -/
theorem search_ends (hf : rbtreeNodePoolNum + 2 ≤ fuel) (hP : Pooled s T fl) {t : Nat}
    {tree : RbtreeT K} (ht : s.trees[t]? = some tree) (k : K) :
    ∃ res, rbtreeSearch tree.comp fuel s.pool.heap tree.head k = .ok res ∧
      Found tree.comp k (T t) res := by
  have hL := hP.linked t tree ht
  have hlen := hP.length_le t
  rw [← hL.head]
  exact search_spec (p := []) hL.shape nofun (show (T t).ids.length < fuel by omega)

/-- Without an equivalent key the search reports its absence, whatever the order. -/
theorem search_absent (hf : rbtreeNodePoolNum + 2 ≤ fuel) (hP : Pooled s T fl) {t : Nat}
    {tree : RbtreeT K} (ht : s.trees[t]? = some tree) {k : K}
    (hk : ∀ e ∈ contents s tree, tree.comp e.1 k ≠ 0) :
    rbtreeSearch tree.comp fuel s.pool.heap tree.head k = .ok none := by
  obtain ⟨res, hsearch, hfound⟩ := search_ends hf hP ht k
  cases res with
  | none => exact hsearch
  | some i =>
    obtain ⟨p, c, l, r, k', v, heq, h0⟩ := hfound
    refine absurd h0 (hk (k', v) ?_)
    rw [contents_pooled hP ht, ← heq]
    simp [Path.entries_plug, entries]

/-- What `rbtree_delete` does with the null pointer that the search returned. -/
theorem delete_null {t : Nat} {tree : RbtreeT K} (ht : s.trees[t]? = some tree) {k : K}
    (hsearch : rbtreeSearch tree.comp fuel s.pool.heap tree.head k = .ok none) :
    s.step fuel (.delete t k) = .error .null := by
  simp only [State.step, State.onTree, ht, rbtreeDelete, hsearch]
  rfl

/-- A call that returns is one of those named in `Returns`. -/
theorem returns_of_ok (hf : rbtreeNodePoolNum + 2 ≤ fuel) (hP : Pooled s T fl) {op : Op K V}
    (hok : s.step fuel op = .ok s') : Returns fuel s op := by
  cases op with
  | alloc comp =>
    simp only [State.step, rbtreeAlloc] at hok
    split at hok
    · assumption
    · cases hok
  | insert t k v =>
    have hlt : t < s.trees.length := by
      by_contra hge
      simp only [State.step, State.onTree, List.getElem?_eq_none (Nat.le_of_not_lt hge)] at hok
      cases hok
    refine ⟨hlt, ?_⟩
    have hlen := (pool_perm hP).length_eq
    rw [List.length_append, List.length_range] at hlen
    have hbound := hP.bound
    have hne : (live s).length ≠ rbtreeNodePoolNum := by
      intro hfull
      rw [(insert_abort_iff hf hP hlt k v).mpr hfull] at hok
      cases hok
    omega
  | delete t k =>
    cases ht : s.trees[t]? with
    | none =>
      simp only [State.step, State.onTree, ht] at hok
      cases hok
    | some tree =>
      obtain ⟨res, hsearch, -⟩ := search_ends hf hP ht k
      cases res with
      | none =>
        rw [delete_null ht hsearch] at hok
        cases hok
      | some i => exact ⟨tree, ht, .inl ⟨i, hsearch⟩⟩

theorem step_reached (hf : rbtreeNodePoolNum + 2 ≤ fuel) (op : Op K V) (hK : Kept s)
    (hs : step fuel s op = some s') : Kept s' := by
  have hok := ok_of_step hs
  obtain ⟨T, fl, hP, hsorted⟩ := hK
  obtain ⟨s₁, hok₁, hK₁, -⟩ := step_kept hf ⟨T, fl, hP, hsorted⟩ (returns_of_ok hf hP hok)
  obtain rfl : s₁ = s' := Except.ok.inj (hok₁.symm.trans hok)
  exact hK₁

/-- The invariant holds in every state that is reached. -/
theorem run_kept (hf : rbtreeNodePoolNum + 2 ≤ fuel) {h : Heap K V} {q : Queue}
    {ops : List (Op K V)} (hrun : run (step fuel) (State.init h q) ops = some s) : Kept s :=
  run_always (fun _ op _ hK hs => step_reached hf op hK hs) ops _ s (init_kept h q) hrun

/-- The deletion returns and leaves the trees, the nodes and the free queue as they
were. -/
def Harmless (fuel : Nat) (s : State K V) (t : Nat) (k : K) : Prop := s.step fuel (.delete t k) = .ok s

/-- In every state that insertions and deletions reach, the deletion of a key that is
not stored goes through a null pointer. -/
theorem absent_delete_faults (hf : rbtreeNodePoolNum + 2 ≤ fuel) (h : Heap K V) (q : Queue)
    (ops : List (Op K V)) (s : State K V) (hrun : run (step fuel) (State.init h q) ops = some s)
    (t : Nat) (tree : RbtreeT K) (ht : s.trees[t]? = some tree) (k : K)
    (hk : ∀ e ∈ contents s tree, tree.comp e.1 k ≠ 0) :
    s.step fuel (.delete t k) = .error .null ∧ ¬ Harmless fuel s t k := by
  obtain ⟨T, fl, hP, -⟩ := run_kept hf hrun
  have hnull := delete_null ht (search_absent hf hP ht hk)
  refine ⟨hnull, fun hok => ?_⟩
  rw [Harmless, hnull] at hok
  cases hok

/-- A key is deleted twice. -/
def deletedOnce : List (Op Nat Nat) := [.alloc natOrder, .insert 0 4 40, .insert 0 2 20, .delete 0 4]

theorem absent_delete_faults_twice :
    ∃ s, run (step 1026) (State.init blankHeap blankQueue) deletedOnce = some s ∧
      s.step 1026 (.delete 0 4) = .error .null := by
  let s := (run (step 1026) (State.init blankHeap blankQueue) deletedOnce).get (by decide +kernel)
  have hrun : run (step 1026) (State.init blankHeap blankQueue) deletedOnce = some s :=
    (Option.some_get _).symm
  let tree := s.trees.head (by decide +kernel)
  exact ⟨s, hrun, (absent_delete_faults (by decide) blankHeap blankQueue deletedOnce s hrun 0 tree
    (List.head?_eq_some_head _ ▸ List.head?_eq_getElem?.symm) 4 (by decide +kernel)).1⟩

/-- The first deletion from an empty tree. -/
theorem empty_tree_delete_faults :
    ∃ s, run (step 1026) (State.init blankHeap blankQueue) [.alloc natOrder] = some s ∧
      ¬ Harmless 1026 s 0 5 := by
  refine ⟨_, rfl, fun h => ?_⟩
  cases h

end Dmos.Proofs.AbsentKey
