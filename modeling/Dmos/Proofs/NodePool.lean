import Mathlib.Data.List.Nodup
import Mathlib.Data.List.Dedup
import Dmos.Lib.TreeHeight
import Dmos.Proofs.RedBlack

namespace Dmos.Proofs.NodePool

open Dmos.Lib Dmos.Rbtree Dmos.Proofs.TreeShape Dmos.Proofs.QueueChain Dmos.Proofs.Insert
open Dmos.Proofs.SharedPool Dmos.Proofs.RedBlack Tree

variable {K V : Type}

/-- The nodes that are reached from a node by its child links. -/
def preorder (h : Heap K V) : Nat → Option Nat → List Nat
  | 0, _ => []
  | _ + 1, none => []
  | n + 1, some i => i :: (preorder h n (h i).left ++ preorder h n (h i).right)

/-- The nodes linked in a tree. -/
def members (s : State K V) (tree : RbtreeT K) : List Nat :=
  preorder s.pool.heap rbtreeNodePoolNum tree.head

/-- The nodes linked in the trees, tree after tree. -/
def live (s : State K V) : List Nat := s.trees.flatMap (members s)

/-- The key is stored. A comparison function that is no order has no equivalent keys;
there it is the search that says so. -/
def Present (fuel : Nat) (s : State K V) (tree : RbtreeT K) (k : K) : Prop :=
  (∃ i, rbtreeSearch tree.comp fuel s.pool.heap tree.head k = .ok (some i)) ∨
    (TotalPreorder tree.comp ∧ ∃ e ∈ contents s tree, tree.comp e.1 k = 0)

/-- The calls that a client may make: there is no bound on the number of trees. An
insertion is into a tree that exists while the pool has a node, a deletion of a key
that is there. -/
def Legal (fuel : Nat) (s : State K V) : Op K V → Prop
  | .alloc _ => True
  | .insert t _ _ => t < s.trees.length ∧ (live s).length < rbtreeNodePoolNum
  | .delete t k => ∃ tree, s.trees[t]? = some tree ∧ Present fuel s tree k

/-- The calls that return: an allocation while `tree_pool` has a tree, an insertion
while the pool has a node, and a deletion of a key that is there. -/
def Returns (fuel : Nat) (s : State K V) : Op K V → Prop
  | .alloc _ => s.trees.length < treePoolNum
  | .insert t _ _ => t < s.trees.length ∧ (live s).length < rbtreeNodePoolNum
  | .delete t k => ∃ tree, s.trees[t]? = some tree ∧ Present fuel s tree k

def isAlloc : Op K V → Bool
  | .alloc _ => true
  | _ => false

def isInsert : Op K V → Bool
  | .insert .. => true
  | _ => false

def isDelete : Op K V → Bool
  | .delete .. => true
  | _ => false

/-- The tree that an operation is on. -/
def target : Op K V → Option Nat
  | .alloc _ => none
  | .insert t _ _ => some t
  | .delete t _ => some t

theorem preorder_repr {h : Heap K V} {q : Option Nat} {t : Tree Nat K V} {n : Nat}
    (hr : Repr h q t) (hn : t.ids.length ≤ n) : preorder h n t.root = t.ids := by
  induction t generalizing q n with
  | nil => cases n <;> rfl
  | node id c l k v r ihl ihr =>
    obtain ⟨hid, hl, hr⟩ := hr
    simp only [ids, List.length_cons, List.length_append] at hn
    obtain ⟨n, rfl⟩ : ∃ m, n = m + 1 := ⟨n - 1, by omega⟩
    simp only [root_node, preorder, hid, ihl hl (show l.ids.length ≤ n by omega),
      ihr hr (show r.ids.length ≤ n by omega), ids]

variable {s : State K V} {T : Nat → Tree Nat K V} {fl : List Nat} {fuel : Nat}

theorem members_pooled (hP : Pooled s T fl) {t : Nat} {tree : RbtreeT K}
    (ht : s.trees[t]? = some tree) : members s tree = (T t).ids := by
  have hL := hP.linked t tree ht
  rw [members, ← hL.head]
  exact preorder_repr hL.shape.repr (hP.length_le t)

theorem contents_pooled (hP : Pooled s T fl) {t : Nat} {tree : RbtreeT K}
    (ht : s.trees[t]? = some tree) : contents s tree = (T t).entries := by
  have hL := hP.linked t tree ht
  rw [contents, ← hL.head]
  exact inorder_repr hL.shape.repr (hP.length_le t)

theorem live_pooled (hP : Pooled s T fl) :
    live s = (List.range s.trees.length).flatMap (fun i => (T i).ids) := by
  have hlist : s.trees.map (members s) = (List.range s.trees.length).map (fun i => (T i).ids) := by
    apply List.ext_getElem
    · simp
    · intro i hi hi'
      rw [List.getElem_map, List.getElem_map, List.getElem_range]
      exact members_pooled hP (List.getElem?_eq_getElem (by simpa using hi))
  rw [live, List.flatMap_def, List.flatMap_def, hlist]

theorem mem_live (hP : Pooled s T fl) {m : Nat} : m ∈ live s ↔ ∃ i, m ∈ (T i).ids := by
  rw [live_pooled hP, List.mem_flatMap]
  constructor
  · rintro ⟨i, -, hm⟩
    exact ⟨i, hm⟩
  · rintro ⟨i, hm⟩
    refine ⟨i, List.mem_range.mpr ?_, hm⟩
    by_contra hge
    rw [hP.empty i (by omega)] at hm
    cases hm

/-- Live and free nodes are each listed once, and are those below `pool_count`. -/
theorem pool_perm (hP : Pooled s T fl) :
    (live s ++ fl).Perm (List.range s.pool.poolCount) := by
  have hnd : (live s ++ fl).Nodup := by
    refine List.nodup_append'.mpr ⟨?_, hP.queue.nodup, ?_⟩
    · rw [live_pooled hP, List.nodup_flatMap]
      refine ⟨fun i _ => hP.nodup i, ?_⟩
      exact List.nodup_range.imp (fun hij => hP.apart _ _ hij)
    · intro m hm hmf
      obtain ⟨i, hmi⟩ := (mem_live hP).mp hm
      exact hP.free i hmi hmf
  refine (List.perm_ext_iff_of_nodup hnd List.nodup_range).mpr (fun m => ?_)
  rw [List.mem_append, List.mem_range, mem_live hP, hP.pool, or_comm]

/-- `rbtree_node_alloc` gives up exactly when every node of the pool is live. -/
theorem alloc_abort_iff (hP : Pooled s T fl) :
    rbtreeNodeAlloc s.pool = .error .abort ↔ (live s).length = rbtreeNodePoolNum := by
  have hlen := (pool_perm hP).length_eq
  rw [List.length_append, List.length_range] at hlen
  have hbound := hP.bound
  constructor
  · intro he
    cases hfl : fl with
    | nil =>
      by_contra hne
      have hlt : ¬ s.pool.poolCount ≥ rbtreeNodePoolNum := by
        rw [hfl, List.length_nil] at hlen
        omega
      have hq := hP.queue
      rw [hfl] at hq
      simp only [rbtreeNodeAlloc, is_empty_holds hq, ok_bind, hlt] at he
      cases he
    | cons i fl' =>
      have hq := hP.queue
      rw [hfl] at hq
      obtain ⟨ls', hok, -⟩ := pop_holds hq
      simp only [rbtreeNodeAlloc, is_empty_holds hq, ok_bind, hok] at he
      cases he
  · intro hfull
    by_contra hne
    obtain ⟨tar, ls', n', fl', -, ha⟩ := alloc_spec hP.queue hne
    rcases ha.source with ⟨rfl, -⟩ | ⟨rfl, -, -, -, hlt⟩
    · rw [List.length_cons] at hlen
      omega
    · have hroom : s.pool.poolCount < rbtreeNodePoolNum := hlt
      rw [List.length_nil] at hlen
      omega

/-- What an operation leaves of a tree that it is not on: the handle, and every field
of its nodes. -/
def Untouched (s s' : State K V) (op : Op K V) : Prop :=
  ∀ (j : Nat) tree, target op ≠ some j → s.trees[j]? = some tree →
    s'.trees[j]? = some tree ∧ members s' tree = members s tree ∧
      contents s' tree = contents s tree ∧ ∀ m ∈ members s tree, s'.pool.heap m = s.pool.heap m

theorem untouched_of_frame (hP : Pooled s T fl) {s' : State K V} {T' : Nat → Tree Nat K V}
    {fl' : List Nat} (hP' : Pooled s' T' fl') {op : Op K V}
    (htrees : ∀ (j : Nat) tree, target op ≠ some j → s.trees[j]? = some tree →
      s'.trees[j]? = some tree ∧ T' j = T j)
    (hheap : ∀ j, target op ≠ some j → ∀ m ∈ (T j).ids, s'.pool.heap m = s.pool.heap m) :
    Untouched s s' op := by
  intro j tree hj ht
  obtain ⟨ht', hT⟩ := htrees j tree hj ht
  rw [members_pooled hP' ht', members_pooled hP ht, contents_pooled hP' ht', contents_pooled hP ht, hT]
  exact ⟨ht', rfl, rfl, hheap j hj⟩

/-- Lists joined, of which one changes. -/
theorem length_flatMap_update {α : Type} (f : Nat → List α) {t n : Nat} (ht : t < n) (l : List α) :
    ((List.range n).flatMap (Function.update f t l)).length + (f t).length =
      ((List.range n).flatMap f).length + l.length := by
  induction n with
  | zero => omega
  | succ n ih =>
    simp only [List.range_succ, List.flatMap_append, List.flatMap_singleton, List.length_append]
    by_cases htn : t = n
    · subst htn
      have hrest : (List.range t).flatMap (Function.update f t l) = (List.range t).flatMap f :=
        List.flatMap_congr fun i hi => Function.update_of_ne (Nat.ne_of_lt (List.mem_range.mp hi)) l f
      rw [hrest, Function.update_self]
      omega
    · have := ih (by omega)
      rw [Function.update_of_ne (Ne.symm htn)]
      omega

/-- When one tree changes, the number of live nodes changes with its size. -/
theorem live_update (hP : Pooled s T fl) {t : Nat} {tree : RbtreeT K} {p : Pool K V}
    {T' : Tree Nat K V} {fl' : List Nat} (ht : s.trees[t]? = some tree)
    (hP' : Pooled ⟨p, s.trees.set t { tree with head := T'.root }⟩ (Function.update T t T') fl') :
    (live ⟨p, s.trees.set t { tree with head := T'.root }⟩).length + (T t).entries.length =
      (live s).length + T'.entries.length := by
  have hlt : t < s.trees.length := (List.getElem?_eq_some_iff.mp ht).1
  have hids : (fun i => (Function.update T t T' i).ids) =
      Function.update (fun i => (T i).ids) t T'.ids := by
    funext i
    by_cases hi : i = t
    · simp [hi]
    · simp [hi]
  rw [live_pooled hP, live_pooled hP', List.length_set, hids, length_entries, length_entries]
  exact length_flatMap_update _ hlt _

/-- The invariant of a run: the nodes are shared out, and trees with an order are sorted. -/
def Kept (s : State K V) : Prop :=
  ∃ T fl, Pooled s T fl ∧ ∀ (i : Nat) tree, s.trees[i]? = some tree →
    TotalPreorder tree.comp → Sorted tree.comp (T i).entries

theorem init_kept (h : Heap K V) (q : Queue) : Kept (State.init h q) :=
  ⟨_, _, init_pooled h q, fun i tree ht => by simp [State.init] at ht⟩

/-- The search finds a key that is stored. -/
theorem Present.found (hf : rbtreeNodePoolNum + 2 ≤ fuel) (hP : Pooled s T fl)
    (hsorted : ∀ (i : Nat) tree, s.trees[i]? = some tree →
      TotalPreorder tree.comp → Sorted tree.comp (T i).entries)
    {t : Nat} {tree : RbtreeT K} (ht : s.trees[t]? = some tree) {k : K}
    (hpres : Present fuel s tree k) :
    ∃ i, rbtreeSearch tree.comp fuel s.pool.heap tree.head k = .ok (some i) := by
  rcases hpres with hfound | ⟨hc, hk⟩
  · exact hfound
  · rw [contents_pooled hP ht] at hk
    have hlen := hP.length_le t
    exact (hP.linked t tree ht).search hc (hsorted t tree ht hc) hk (by omega)

/-- An operation on one tree, put together from what it does to the nodes. -/
theorem kept_update (hP : Pooled s T fl)
    (hsorted : ∀ (i : Nat) tree, s.trees[i]? = some tree →
      TotalPreorder tree.comp → Sorted tree.comp (T i).entries)
    {op : Op K V} {t : Nat} {tree : RbtreeT K} {p : Pool K V} {T' : Tree Nat K V} {fl' : List Nat}
    (hop : target op = some t) (ht : s.trees[t]? = some tree)
    (hP' : Pooled ⟨p, s.trees.set t { tree with head := T'.root }⟩ (Function.update T t T') fl')
    (hsort : TotalPreorder tree.comp → Sorted tree.comp (T t).entries → Sorted tree.comp T'.entries)
    (hheap : ∀ j, j ≠ t → ∀ m ∈ (T j).ids, p.heap m = s.pool.heap m) :
    Kept ⟨p, s.trees.set t { tree with head := T'.root }⟩ ∧
      Untouched s ⟨p, s.trees.set t { tree with head := T'.root }⟩ op := by
  have hlt : t < s.trees.length := (List.getElem?_eq_some_iff.mp ht).1
  have hne : ∀ j, target op ≠ some j → j ≠ t := by
    rintro j hj rfl
    exact hj hop
  refine ⟨⟨_, _, hP', ?_⟩, untouched_of_frame hP hP' ?_ (fun j hj => hheap j (hne j hj))⟩
  · intro i u hu hc
    by_cases hi : i = t
    · subst hi
      obtain rfl : { tree with head := T'.root } = u := by simpa [hlt] using hu
      rw [Function.update_self]
      exact hsort hc (hsorted i tree ht hc)
    · rw [Function.update_of_ne hi]
      exact hsorted i u (by simpa [Ne.symm hi] using hu) hc
  · intro j u hj hu
    have hjt := hne j hj
    refine ⟨?_, Function.update_of_ne hjt _ _⟩
    simpa [List.getElem?_set_ne (Ne.symm hjt)] using hu

/-- The calls named in `Returns` do return. Each keeps the invariant and the trees that
it is not on, and the live nodes are one more, one fewer or as many. -/
theorem step_kept (hf : rbtreeNodePoolNum + 2 ≤ fuel) (hK : Kept s) {op : Op K V}
    (hop : Returns fuel s op) : ∃ s', s.step fuel op = .ok s' ∧ Kept s' ∧ Untouched s s' op ∧
      (live s').length + (isDelete op).toNat = (live s).length + (isInsert op).toNat := by
  obtain ⟨T, fl, hP, hsorted⟩ := hK
  cases op with
  | alloc comp =>
    have hlt : s.trees.length < treePoolNum := hop
    have hP' := hP.alloc comp
    refine ⟨⟨s.pool, s.trees ++ [⟨none, comp⟩]⟩, by simp [State.step, rbtreeAlloc, hlt],
      ⟨T, fl, hP', ?_⟩, untouched_of_frame hP hP' ?_ (fun _ _ _ _ => rfl), ?_⟩
    · intro i u hu hc
      by_cases hi : i < s.trees.length
      · exact hsorted i u (by simpa [List.getElem?_append_left hi] using hu) hc
      · rw [hP.empty i (by omega)]
        exact .nil
    · intro j tree _ ht
      have hj := (List.getElem?_eq_some_iff.mp ht).1
      exact ⟨by simpa [List.getElem?_append_left hj] using ht, rfl⟩
    · have hnil := hP.empty s.trees.length (Nat.le_refl _)
      simp [live_pooled hP, live_pooled hP', List.range_succ, hnil, ids, isDelete, isInsert]
  | insert t k v =>
    obtain ⟨hlt, hroom⟩ := hop
    have ht : s.trees[t]? = some s.trees[t] := List.getElem?_eq_getElem hlt
    have he : rbtreeNodeAlloc s.pool ≠ .error .abort := by
      rw [Ne, alloc_abort_iff hP]
      omega
    obtain ⟨p, T', fl', hok, hP', hsort, ⟨es, es', hes, hes'⟩, hheap⟩ :=
      hP.insert (k := k) (v := v) ht he hf
    obtain ⟨hK', hun⟩ := kept_update hP hsorted
      (rfl : target (Op.insert t k v) = some t) ht hP' hsort hheap
    refine ⟨_, hok, hK', hun, ?_⟩
    have hlive := live_update hP ht hP'
    rw [hes, hes'] at hlive
    simp only [List.length_append, List.length_cons] at hlive
    simp only [isDelete, isInsert, Bool.toNat_false, Bool.toNat_true]
    omega
  | delete t k =>
    obtain ⟨tree, ht, hpres⟩ := hop
    obtain ⟨i, hsearch⟩ := hpres.found hf hP hsorted ht
    obtain ⟨p, T', fl', hok, hP', hdel, hheap⟩ := hP.delete ht hsearch hf
    obtain ⟨hK', hun⟩ := kept_update hP hsorted
      (rfl : target (Op.delete t k : Op K V) = some t) ht hP' (fun _ => hdel.sorted) hheap
    refine ⟨_, hok, hK', hun, ?_⟩
    have hlive := live_update hP ht hP'
    obtain ⟨ks, k₀, ks', -, hks, hks'⟩ := hdel.keys
    have hold := congrArg List.length hks
    have hnew := congrArg List.length hks'
    simp only [List.length_map, List.length_append, List.length_cons] at hold hnew
    simp only [isDelete, isInsert, Bool.toNat_false, Bool.toNat_true]
    omega

/-- An insertion into a tree that exists aborts when the allocation does. -/
theorem insert_abort_iff (hf : rbtreeNodePoolNum + 2 ≤ fuel) (hP : Pooled s T fl) {t : Nat}
    (ht : t < s.trees.length) (k : K) (v : V) :
    s.step fuel (.insert t k v) = .error .abort ↔ (live s).length = rbtreeNodePoolNum := by
  have hget : s.trees[t]? = some s.trees[t] := List.getElem?_eq_getElem ht
  rw [← alloc_abort_iff hP]
  constructor
  · intro h
    by_contra hne
    obtain ⟨p, T', fl', hok, -⟩ := hP.insert (k := k) (v := v) hget hne hf
    rw [hok] at h
    cases h
  · intro h
    simp only [State.step, State.onTree, hget, rbtreeInsert, h]
    rfl

theorem returns_iff {op : Op K V} :
    Returns fuel s op ↔ Legal fuel s op ∧ (isAlloc op = true → s.trees.length < treePoolNum) := by
  cases op <;> simp [Returns, Legal, isAlloc]

/-- What a client gets from the pool after the calls `ops`. -/
structure Shared (fuel : Nat) (ops : List (Op K V)) (s : State K V) : Prop where
  /-- Live and free nodes are pairwise different and are `node_pool[0 .. pool_count)`. -/
  parted : ∃ fl, Holds s.pool.ls fl ∧ (live s ++ fl).Perm (List.range s.pool.poolCount)
  /-- No node leaks: each insertion made one live and each deletion freed one. -/
  counted : (live s).length + ops.countP isDelete = ops.countP isInsert
  aborts : ∀ t < s.trees.length, ∀ k v, s.step fuel (.insert t k v) = .error .abort ↔
    (live s).length = rbtreeNodePoolNum
  isolated : ∀ op t, target op = some t → Legal fuel s op →
    ∃ s', s.step fuel op = .ok s' ∧ Untouched s s' op

theorem ok_of_step {s' : State K V} {op : Op K V} (hs : step fuel s op = some s') :
    s.step fuel op = .ok s' := by
  rw [step] at hs
  cases hr : s.step fuel op with
  | error e =>
    rw [hr] at hs
    cases hs
  | ok u =>
    rw [hr] at hs
    rw [Option.some.inj hs]

theorem onTree_trees {s' : State K V} {t : Nat}
    {f : (K → K → Int) → Pool K V → Option Nat → Except Fault (Pool K V × Option Nat)}
    (hok : s.onTree t f = .ok s') : s'.trees.length = s.trees.length := by
  unfold State.onTree at hok
  cases ht : s.trees[t]? with
  | none =>
    rw [ht] at hok
    cases hok
  | some tree =>
    rw [ht] at hok
    cases hr : f tree.comp s.pool tree.head with
    | error e =>
      simp only [hr] at hok
      cases hok
    | ok r =>
      simp only [hr] at hok
      cases hok
      exact List.length_set

/-- Only `rbtree_alloc` adds a tree, and only one that `tree_pool` has. -/
theorem step_trees {s' : State K V} {op : Op K V} (hs : step fuel s op = some s') :
    s'.trees.length = s.trees.length + (isAlloc op).toNat ∧
      (isAlloc op = true → s.trees.length < treePoolNum) := by
  have hok := ok_of_step hs
  cases op with
  | alloc comp =>
    simp only [State.step, rbtreeAlloc] at hok
    split at hok
    · cases hok
      exact ⟨by simp [isAlloc], fun _ => by assumption⟩
    · cases hok
  | insert t k v =>
    exact ⟨onTree_trees (show s.onTree t (fun comp p head => rbtreeInsert comp fuel p head k v) =
      .ok s' from hok), fun h => Bool.noConfusion h⟩
  | delete t k =>
    exact ⟨onTree_trees (show s.onTree t (fun comp p head => rbtreeDelete comp fuel p head k) =
      .ok s' from hok), fun h => Bool.noConfusion h⟩

theorem countP_cons_toNat (p : Op K V → Bool) (op : Op K V) (ops : List (Op K V)) :
    (op :: ops).countP p = ops.countP p + (p op).toNat := by
  cases h : p op <;> simp [h]

/-- A run that goes through has allocated no tree beyond `tree_pool`. -/
theorem run_trees (ops : List (Op K V)) {s' : State K V} (hs : s.trees.length ≤ treePoolNum)
    (hrun : run (step fuel) s ops = some s') :
    s.trees.length + ops.countP isAlloc ≤ treePoolNum := by
  induction ops generalizing s with
  | nil => exact hs
  | cons op ops ih =>
    obtain ⟨u, hu, hrun⟩ := Option.bind_eq_some_iff.mp hrun
    obtain ⟨hlen, hroom⟩ := step_trees hu
    have hle : s.trees.length + (isAlloc op).toNat ≤ treePoolNum := by
      cases h : isAlloc op with
      | false => exact hs
      | true => exact hroom h
    have hrest := ih (by omega) hrun
    rw [countP_cons_toNat]
    omega

/-- A run of legal calls goes through while `tree_pool` has room for the trees. -/
theorem run_shared (hf : rbtreeNodePoolNum + 2 ≤ fuel) (ops : List (Op K V)) (hK : Kept s)
    (ha : Along (step fuel) (Legal fuel) s ops)
    (hroom : s.trees.length + ops.countP isAlloc ≤ treePoolNum) :
    ∃ s', run (step fuel) s ops = some s' ∧ Kept s' ∧
      (live s').length + ops.countP isDelete = (live s).length + ops.countP isInsert := by
  induction ops generalizing s with
  | nil => exact ⟨s, rfl, hK, rfl⟩
  | cons op ops ih =>
    obtain ⟨hop, ha⟩ := ha
    rw [countP_cons_toNat] at hroom
    have hret : Returns fuel s op := by
      refine returns_iff.mpr ⟨hop, fun h => ?_⟩
      rw [h, Bool.toNat_true] at hroom
      omega
    obtain ⟨u, hok, hKu, -, hlive⟩ := step_kept hf hK hret
    have hs : step fuel s op = some u := by
      rw [step, hok]
      rfl
    have hlen := (step_trees hs).1
    obtain ⟨s', hrun, hK', hcount⟩ := ih hKu (ha u hs) (by omega)
    refine ⟨s', by rw [run_cons, hs]; exact hrun, hK', ?_⟩
    rw [countP_cons_toNat, countP_cons_toNat]
    omega

theorem Kept.shared (hf : rbtreeNodePoolNum + 2 ≤ fuel) (hK : Kept s) {ops : List (Op K V)}
    (hcount : (live s).length + ops.countP isDelete = ops.countP isInsert) :
    Shared fuel ops s := by
  obtain ⟨T, fl, hP, hsorted⟩ := hK
  refine ⟨⟨fl, hP.queue, pool_perm hP⟩, hcount, fun t ht k v => insert_abort_iff hf hP ht k v, ?_⟩
  intro op t htarget hop
  have hret : Returns fuel s op := by
    refine returns_iff.mpr ⟨hop, fun h => ?_⟩
    cases op <;> simp [target, isAlloc] at htarget h
  obtain ⟨s', hok, -, hun, -⟩ := step_kept hf ⟨T, fl, hP, hsorted⟩ hret
  exact ⟨s', hok, hun⟩

/-- Whatever the client does with its trees after `rbtree_init`, all calls return and the
pool is shared out as it should be, exactly if no more than sixteen trees are allocated:
`rbtree_alloc` has no test against the size of `tree_pool`. -/
theorem pool_shared_iff (hf : rbtreeNodePoolNum + 2 ≤ fuel) (h : Heap K V) (q : Queue)
    (ops : List (Op K V)) (ha : Along (step fuel) (Legal fuel) (State.init h q) ops) :
    (∃ s, run (step fuel) (State.init h q) ops = some s ∧ Shared fuel ops s) ↔
      ops.countP isAlloc ≤ treePoolNum := by
  have hnone : (State.init h q).trees.length = 0 := rfl
  constructor
  · rintro ⟨s, hrun, -⟩
    have := run_trees ops (by omega) hrun
    omega
  · intro hroom
    obtain ⟨s, hrun, hK, hcount⟩ := run_shared hf ops (init_kept h q) ha (by omega)
    have hzero : (live (State.init h q)).length = 0 := rfl
    exact ⟨s, hrun, hK.shared hf (by omega)⟩

/-- `Legal`, computed; a deletion is tried by its search. -/
def legalB (fuel : Nat) (s : State K V) : Op K V → Bool
  | .alloc _ => true
  | .insert t _ _ =>
    decide (t < s.trees.length) && decide ((live s).length < rbtreeNodePoolNum)
  | .delete t k => s.trees[t]?.any (fun tree =>
      ((rbtreeSearch tree.comp fuel s.pool.heap tree.head k).toOption.getD none).isSome)

theorem legal_of_legalB (s : State K V) (op : Op K V) (h : legalB fuel s op = true) :
    Legal fuel s op := by
  cases op with
  | alloc comp => trivial
  | insert t k v =>
    simp only [legalB, Bool.and_eq_true, decide_eq_true_eq] at h
    exact h
  | delete t k =>
    obtain ⟨tree, ht, hs⟩ := (Option.any_eq_true _ _).mp h
    refine ⟨tree, ht, .inl ?_⟩
    cases hr : rbtreeSearch tree.comp fuel s.pool.heap tree.head k with
    | error e =>
      rw [hr] at hs
      cases hs
    | ok res =>
      rw [hr] at hs
      obtain ⟨i, rfl⟩ := Option.isSome_iff_exists.mp hs
      exact ⟨i, rfl⟩

/-- Two trees, the second with a comparison function that is no order. -/
def twoTrees : List (Op Nat Nat) :=
  [.alloc natOrder, .alloc (fun _ _ => 0), .insert 0 4 40, .insert 1 2 20, .insert 0 2 20,
    .insert 1 9 90, .delete 0 4, .delete 1 7]

theorem pool_shared_iff_two :
    ∃ s, run (step 1026) (State.init blankHeap blankQueue) twoTrees = some s ∧
      Shared 1026 twoTrees s ∧ (live s).length = 2 := by
  have ha : Along (step 1026) (Legal 1026) (State.init blankHeap blankQueue) twoTrees :=
    .of_alongB legal_of_legalB twoTrees _ (by decide +kernel)
  obtain ⟨s, hrun, hs⟩ := (pool_shared_iff (by decide) blankHeap blankQueue twoTrees ha).mpr (by decide)
  have hcount := hs.counted
  rw [show twoTrees.countP isDelete = 2 from rfl, show twoTrees.countP isInsert = 4 from rfl] at hcount
  exact ⟨s, hrun, hs, by omega⟩

/-- The seventeenth `rbtree_alloc` writes to `tree_pool[16]`. -/
theorem seventeenth_tree :
    Along (step 1026) (Legal 1026) (State.init blankHeap blankQueue)
        (List.replicate 17 (.alloc natOrder)) ∧
      ¬ ∃ s, run (step 1026) (State.init blankHeap blankQueue)
          (List.replicate 17 (.alloc natOrder)) = some s ∧
        Shared 1026 (List.replicate 17 (.alloc natOrder)) s := by
  have hrun : (run (step 1026) (State.init blankHeap blankQueue)
      (List.replicate 17 (.alloc natOrder))).isNone = true := by decide +kernel
  refine ⟨.of_alongB legal_of_legalB _ _ (by decide +kernel), ?_⟩
  rintro ⟨s, hs, -⟩
  rw [hs] at hrun
  cases hrun

end Dmos.Proofs.NodePool
