import Mathlib.Order.Nat
import Mathlib.Data.List.Perm.Subperm
import Dmos.Proofs.Insert
import Dmos.Proofs.Delete

namespace Dmos.Proofs.SharedPool

open Dmos.Lib Dmos.Rbtree Dmos.Proofs.TreeShape Dmos.Proofs.Insert Dmos.Proofs.Delete
open Dmos.Proofs.QueueChain Dmos.Proofs.Descent Tree

variable {K V : Type}

/-- The nodes that the tree reaches form a red-black search tree: each node is
reached once, its parent link agrees with the child link to it, and the root has
none. -/
structure Sound (h : Heap K V) (tree : RbtreeT K) (T : Tree Nat K V) : Prop where
  shape : Shape h none T
  head : T.root = tree.head
  sorted : Sorted tree.comp T.entries
  redBlack : T.RedBlack

/-- The same without the order, which a tree with a disorderly comparison function
does not have. -/
structure Linked (h : Heap K V) (tree : RbtreeT K) (T : Tree Nat K V) : Prop where
  shape : Shape h none T
  head : T.root = tree.head
  redBlack : T.RedBlack

/-- The trees and the free queue share out the nodes that were ever allocated. -/
structure Pooled (s : State K V) (T : Nat → Tree Nat K V) (fl : List Nat) : Prop where
  queue : Holds s.pool.ls fl
  linked : ∀ (i : Nat) tree, s.trees[i]? = some tree → Linked s.pool.heap tree (T i)
  empty : ∀ i, s.trees.length ≤ i → T i = .nil
  apart : ∀ i j, i ≠ j → (T i).ids.Disjoint (T j).ids
  free : ∀ i, (T i).ids.Disjoint fl
  pool : ∀ m, m < s.pool.poolCount ↔ m ∈ fl ∨ ∃ i, m ∈ (T i).ids
  bound : s.pool.poolCount ≤ rbtreeNodePoolNum

/-- The invariant of `rbtree.c` for orderly comparison functions. -/
structure Forest (s : State K V) (T : Nat → Tree Nat K V) (fl : List Nat) : Prop where
  queue : Holds s.pool.ls fl
  order : ∀ tree ∈ s.trees, TotalPreorder tree.comp
  sound : ∀ (i : Nat) tree, s.trees[i]? = some tree → Sound s.pool.heap tree (T i)
  empty : ∀ i, s.trees.length ≤ i → T i = .nil
  apart : ∀ i j, i ≠ j → (T i).ids.Disjoint (T j).ids
  free : ∀ i, (T i).ids.Disjoint fl
  pool : ∀ m, m < s.pool.poolCount ↔ m ∈ fl ∨ ∃ i, m ∈ (T i).ids
  bound : s.pool.poolCount ≤ rbtreeNodePoolNum

theorem init_pooled (h : Heap K V) (q : Queue) :
    Pooled (State.init h q) (fun _ => .nil) [] := by
  refine ⟨init_holds q, ?_, fun _ _ => rfl, ?_, ?_, ?_, Nat.zero_le _⟩
  all_goals simp [State.init, rbtreeInit, ids]

variable {s : State K V} {T : Nat → Tree Nat K V} {fl : List Nat}

namespace Pooled

theorem nodup (hP : Pooled s T fl) (i : Nat) : (T i).ids.Nodup := by
  cases hi : s.trees[i]? with
  | none =>
    rw [hP.empty i (List.getElem?_eq_none_iff.mp hi)]
    exact .nil
  | some tree => exact (hP.linked i tree hi).shape.nodup

theorem mem_lt (hP : Pooled s T fl) {i m : Nat} (hm : m ∈ (T i).ids) :
    m < s.pool.poolCount :=
  (hP.pool m).mpr (.inr ⟨i, hm⟩)

theorem length_le (hP : Pooled s T fl) (i : Nat) :
    (T i).ids.length ≤ rbtreeNodePoolNum := by
  have hsub : (T i).ids ⊆ List.range s.pool.poolCount :=
    fun m hm => List.mem_range.mpr (hP.mem_lt hm)
  have hle := ((hP.nodup i).subperm hsub).length_le
  rw [List.length_range] at hle
  exact hle.trans hP.bound

/-- The nodes below the new `pool_count`, when one tree and the free queue share out
what they had and the nodes that were not used before. -/
theorem share (hP : Pooled s T fl) {t n : Nat} {T' : Tree Nat K V} {fl' : List Nat}
    (hm : ∀ m, m ∈ T'.ids ∨ m ∈ fl' ↔
      m ∈ (T t).ids ∨ m ∈ fl ∨ s.pool.poolCount ≤ m ∧ m < n)
    (hle : s.pool.poolCount ≤ n) (m : Nat) :
    m < n ↔ m ∈ fl' ∨ ∃ i, m ∈ (Function.update T t T' i).ids := by
  have hnew : m ∈ T'.ids ∨ m ∈ fl' → m < n := by
    rw [hm]
    rintro (h1 | h1 | h1)
    · exact (hP.mem_lt h1).trans_le hle
    · exact ((hP.pool m).mpr (.inl h1)).trans_le hle
    · exact h1.2
  have hheld : m ∈ T'.ids ∨ m ∈ fl' → m ∈ fl' ∨ ∃ i, m ∈ (Function.update T t T' i).ids := by
    rintro (h1 | h1)
    · exact .inr ⟨t, by simpa using h1⟩
    · exact .inl h1
  constructor
  · intro hlt
    by_cases hold : m < s.pool.poolCount
    · rcases (hP.pool m).mp hold with h1 | ⟨i, h1⟩
      · exact hheld ((hm m).mpr (.inr (.inl h1)))
      · by_cases hi : i = t
        · exact hheld ((hm m).mpr (.inl (hi ▸ h1)))
        · exact .inr ⟨i, by simpa [Function.update_of_ne hi] using h1⟩
    · exact hheld ((hm m).mpr (.inr (.inr ⟨by omega, hlt⟩)))
  · rintro (h1 | ⟨i, h1⟩)
    · exact hnew (.inr h1)
    · by_cases hi : i = t
      · subst hi
        exact hnew (.inl (by simpa using h1))
      · rw [Function.update_of_ne hi] at h1
        exact (hP.mem_lt h1).trans_le hle

/-- An operation on one tree keeps the invariant if it only moves nodes between
that tree, the free queue and the unused part of the pool. -/
theorem update (hP : Pooled s T fl) {t : Nat} {tree : RbtreeT K} {p : Pool K V}
    {T' : Tree Nat K V} {fl' : List Nat} (ht : s.trees[t]? = some tree) (hq : Holds p.ls fl')
    (hs : Linked p.heap { tree with head := T'.root } T')
    (hfr : ∀ i, i ∉ (T t).ids → i ∉ T'.ids → p.heap i = s.pool.heap i)
    (hd : T'.ids.Disjoint fl')
    (hm : ∀ m, m ∈ T'.ids ∨ m ∈ fl' ↔
      m ∈ (T t).ids ∨ m ∈ fl ∨ s.pool.poolCount ≤ m ∧ m < p.poolCount)
    (hle : s.pool.poolCount ≤ p.poolCount) (hb : p.poolCount ≤ rbtreeNodePoolNum) :
    Pooled ⟨p, s.trees.set t { tree with head := T'.root }⟩ (Function.update T t T') fl' := by
  have hlt : t < s.trees.length := (List.getElem?_eq_some_iff.mp ht).1
  -- the nodes of another tree are neither in the new tree nor free
  have hother : ∀ j, j ≠ t → ∀ m ∈ (T j).ids, m ∉ T'.ids ∧ m ∉ fl' := by
    intro j hj m hmj
    have hno : ¬ (m ∈ T'.ids ∨ m ∈ fl') := by
      rw [hm]
      rintro (h1 | h1 | h1)
      · exact hP.apart j t hj hmj h1
      · exact hP.free j hmj h1
      · have := hP.mem_lt hmj
        omega
    exact not_or.mp hno
  refine ⟨hq, ?_, ?_, ?_, ?_, ?_, hb⟩
  · intro i u hu
    by_cases hi : i = t
    · subst hi
      obtain rfl : { tree with head := T'.root } = u := by simpa [hlt] using hu
      simpa using hs
    · obtain ⟨⟨hr, hn⟩, hhead, hrb⟩ := hP.linked i u (by simpa [Ne.symm hi] using hu)
      rw [Function.update_of_ne hi]
      refine ⟨⟨hr.frame (fun m hmi => ?_), hn⟩, hhead, hrb⟩
      exact hfr m (fun h1 => hP.apart i t hi hmi h1) (hother i hi m hmi).1
  · intro i hi
    rw [List.length_set] at hi
    rw [Function.update_of_ne (by omega), hP.empty i hi]
  · intro i j hij m hmi hmj
    by_cases hi : i = t
    · subst hi
      rw [Function.update_self] at hmi
      rw [Function.update_of_ne (Ne.symm hij)] at hmj
      exact (hother j (Ne.symm hij) m hmj).1 hmi
    · rw [Function.update_of_ne hi] at hmi
      by_cases hj : j = t
      · subst hj
        rw [Function.update_self] at hmj
        exact (hother i hi m hmi).1 hmj
      · rw [Function.update_of_ne hj] at hmj
        exact hP.apart i j hij hmi hmj
  · intro i m hmi hmf
    by_cases hi : i = t
    · subst hi
      rw [Function.update_self] at hmi
      exact hd hmi hmf
    · rw [Function.update_of_ne hi] at hmi
      exact (hother i hi m hmi).2 hmf
  · exact hP.share hm hle

theorem alloc (hP : Pooled s T fl) (comp : K → K → Int) :
    Pooled ⟨s.pool, s.trees ++ [⟨none, comp⟩]⟩ T fl := by
  refine ⟨hP.queue, ?_, ?_, hP.apart, hP.free, hP.pool, hP.bound⟩
  · intro i u hu
    by_cases hi : i < s.trees.length
    · exact hP.linked i u (by simpa [List.getElem?_append_left hi] using hu)
    · obtain rfl : i = s.trees.length := by
        have := (List.getElem?_eq_some_iff.mp hu).1
        simp at this
        omega
      obtain rfl : ⟨none, comp⟩ = u := by simpa using hu
      rw [hP.empty _ (Nat.le_refl _)]
      exact ⟨⟨trivial, .nil⟩, rfl, ⟨0, .nil⟩, rfl⟩
  · intro i hi
    exact hP.empty i (by simp at hi; omega)

/-- `rbtree_insert` while the pool has a node. Nodes of other trees are left as they are. -/
theorem insert (hP : Pooled s T fl) {t : Nat} {tree : RbtreeT K} {fuel : Nat} {k : K} {v : V}
    (ht : s.trees[t]? = some tree) (he : rbtreeNodeAlloc s.pool ≠ .error .abort)
    (hf : rbtreeNodePoolNum + 2 ≤ fuel) :
    ∃ p T' fl', s.step fuel (.insert t k v) =
        .ok ⟨p, s.trees.set t { tree with head := T'.root }⟩ ∧
      Pooled ⟨p, s.trees.set t { tree with head := T'.root }⟩ (Function.update T t T') fl' ∧
      (TotalPreorder tree.comp → Sorted tree.comp (T t).entries → Sorted tree.comp T'.entries) ∧
      (∃ es es', (T t).entries = es ++ es' ∧ T'.entries = es ++ (k, v) :: es') ∧
      ∀ j, j ≠ t → ∀ m ∈ (T j).ids, p.heap m = s.pool.heap m := by
  obtain ⟨hshape, hhead, hrb⟩ := hP.linked t tree ht
  have hd : ∀ i ∈ (T t).ids, i ∉ fl ∧ i < s.pool.poolCount :=
    fun i hi => ⟨fun h1 => hP.free t hi h1, hP.mem_lt hi⟩
  have hlen := hP.length_le t
  obtain ⟨h', ls', n', fl', tar, T', hok, ha, hs', hrb', hsort', hent, hmem, hfr⟩ :=
    insert_spec tree.comp (k := k) (v := v) hshape hrb hP.queue hd he
      (show _ < fuel by omega)
  have hnd := hP.queue.nodup
  have hbound := hP.bound
  have hfree := hP.free t
  refine ⟨⟨h', ls', n'⟩, T', fl', ?_, hP.update ht ha.queue ⟨hs', rfl, hrb'⟩ ?_ ?_ ?_ ?_ ?_,
    hsort', hent, ?_⟩
  · rw [hhead] at hok
    simp only [State.step, State.onTree, ht, hok]
    rfl
  · intro i hi hi'
    rw [hmem] at hi'
    exact hfr i (fun h1 => hi' (.inl h1)) hi
  all_goals rcases ha.source with ⟨rfl, rfl⟩ | ⟨rfl, rfl, rfl, rfl, hlt⟩
  · intro m hm hmf
    rcases (hmem m).mp hm with rfl | hm
    · exact (List.nodup_cons.mp hnd).1 hmf
    · exact hfree hm (List.mem_cons_of_mem _ hmf)
  · exact fun m _ hmf => by cases hmf
  · intro m
    simp only [hmem, List.mem_cons]
    grind
  · intro m
    simp only [hmem, List.not_mem_nil]
    grind
  · exact Nat.le_refl _
  · exact Nat.le_succ _
  · exact hbound
  · exact hlt
  · intro j hj m hm
    refine hfr m ?_ (fun h1 => hP.apart j t hj hm h1)
    rintro rfl
    exact hP.free j hm List.mem_cons_self
  · intro j hj m hm
    refine hfr m ?_ (fun h1 => hP.apart j t hj hm h1)
    rintro rfl
    exact absurd (hP.mem_lt hm) (Nat.lt_irrefl _)

end Pooled

/-- What a deletion of `k` does to the entries of a tree. The first equation is
about the node that the search finds. -/
def Deletes (comp : K → K → Int) (h : Heap K V) (fuel : Nat) (T T' : Tree Nat K V) (k : K) : Prop :=
  ∃ i pa c l k₀ v₀ r, rbtreeSearch comp fuel h T.root k = .ok (some i) ∧
    T = Path.plug pa (.node i c l k₀ v₀ r) ∧ comp k₀ k = 0 ∧
    T'.entries = Path.before pa ++ (carry v₀ l.entries ++ r.entries) ++ Path.after pa

/-- One key goes, and the others keep their order. -/
theorem Deletes.keys {comp : K → K → Int} {h : Heap K V} {fuel : Nat} {T T' : Tree Nat K V} {k : K}
    (hd : Deletes comp h fuel T T' k) :
    ∃ ks k₀ ks', comp k₀ k = 0 ∧ T.entries.map Prod.fst = ks ++ k₀ :: ks' ∧
      T'.entries.map Prod.fst = ks ++ ks' := by
  obtain ⟨i, pa, c, l, k₀, v₀, r, -, rfl, hk₀, hent⟩ := hd
  refine ⟨(Path.before pa ++ l.entries).map Prod.fst, k₀, (r.entries ++ Path.after pa).map Prod.fst,
    hk₀, ?_, ?_⟩
  · simp [Path.entries_plug, entries]
  · simp [hent, carry_keys]

/-- `rbtree_delete` of a key that the search finds. -/
theorem Pooled.delete (hP : Pooled s T fl) {t i : Nat} {tree : RbtreeT K} {fuel : Nat} {k : K}
    (ht : s.trees[t]? = some tree)
    (hsearch : rbtreeSearch tree.comp fuel s.pool.heap tree.head k = .ok (some i))
    (hf : rbtreeNodePoolNum + 2 ≤ fuel) :
    ∃ p T' fl', s.step fuel (.delete t k) =
        .ok ⟨p, s.trees.set t { tree with head := T'.root }⟩ ∧
      Pooled ⟨p, s.trees.set t { tree with head := T'.root }⟩ (Function.update T t T') fl' ∧
      Deletes tree.comp s.pool.heap fuel (T t) T' k ∧
      ∀ j, j ≠ t → ∀ m ∈ (T j).ids, p.heap m = s.pool.heap m := by
  obtain ⟨hshape, hhead, hrb⟩ := hP.linked t tree ht
  have hlen := hP.length_le t
  rw [← hhead] at hsearch
  obtain ⟨pa, c, l, k₀, v₀, r, hT, hk₀, h', ls', d, T', hok, hs', hrb', hent, hq', hdT,
    hmem, hfr⟩ := delete_spec (n := s.pool.poolCount) hshape hrb hsearch hP.queue
      (fun i hi h1 => hP.free t hi h1) (show _ ≤ fuel by omega)
  refine ⟨⟨h', ls', s.pool.poolCount⟩, T', fl ++ [d], ?_, hP.update ht hq' ⟨hs', rfl, hrb'⟩ ?_ ?_
    ?_ (Nat.le_refl _) hP.bound, ⟨i, pa, c, l, k₀, v₀, r, hsearch, hT, hk₀, hent⟩, ?_⟩
  · rw [hhead] at hok
    simp only [State.step, State.onTree, ht]
    rw [show s.pool = ⟨s.pool.heap, s.pool.ls, s.pool.poolCount⟩ from rfl, hok]
    rfl
  · exact fun i hi _ => hfr i hi
  · intro m hm hmf
    obtain ⟨hmT, hmd⟩ := (hmem m).mp hm
    rcases List.mem_append.mp hmf with h1 | h1
    · exact hP.free t hmT h1
    · exact hmd (List.mem_singleton.mp h1)
  · intro m
    simp only [hmem, List.mem_append, List.mem_singleton]
    grind
  · exact fun j hj m hm => hfr m (fun h1 => hP.apart j t hj hm h1)

/-- A deletion keeps the order of what stays. -/
theorem Deletes.sorted {comp : K → K → Int} {h : Heap K V} {fuel : Nat} {T T' : Tree Nat K V} {k : K}
    (hd : Deletes comp h fuel T T' k) (hs : Sorted comp T.entries) : Sorted comp T'.entries := by
  obtain ⟨ks, k₁, ks', -, hks, hks'⟩ := hd.keys
  refine hs.of_sublist_keys ?_
  rw [hks, hks']
  exact (List.sublist_cons_self _ _).append_left _

/-- With an order, the search finds a stored key. -/
theorem Linked.search {h : Heap K V} {tree : RbtreeT K} {T : Tree Nat K V} (hL : Linked h tree T)
    (hc : TotalPreorder tree.comp) (hs : Sorted tree.comp T.entries) {k : K}
    (hk : ∃ e ∈ T.entries, tree.comp e.1 k = 0) {fuel : Nat} (hf : T.ids.length < fuel) :
    ∃ i, rbtreeSearch tree.comp fuel h tree.head k = .ok (some i) := by
  obtain ⟨res, hsearch, hfound⟩ :
      ∃ res, rbtreeSearch tree.comp fuel h T.root k = .ok res ∧ Found tree.comp k T res :=
    search_spec (p := []) hL.shape nofun hf
  obtain ⟨i, rfl⟩ := Option.isSome_iff_exists.mp ((hfound.some_iff hc hs).mpr hk)
  exact ⟨i, by rw [← hL.head]; exact hsearch⟩

theorem init_forest (h : Heap K V) (q : Queue) :
    Forest (State.init h q) (fun _ => .nil) [] := by
  obtain ⟨hq, -, hempty, hapart, hfree, hpool, hbound⟩ := init_pooled h q
  refine ⟨hq, ?_, ?_, hempty, hapart, hfree, hpool, hbound⟩
  all_goals simp [State.init]

namespace Forest

theorem pooled (hF : Forest s T fl) : Pooled s T fl where
  queue := hF.queue
  linked := fun i tree ht => ⟨(hF.sound i tree ht).shape, (hF.sound i tree ht).head,
    (hF.sound i tree ht).redBlack⟩
  empty := hF.empty
  apart := hF.apart
  free := hF.free
  pool := hF.pool
  bound := hF.bound

theorem length_le (hF : Forest s T fl) (i : Nat) : (T i).ids.length ≤ rbtreeNodePoolNum :=
  hF.pooled.length_le i

/-- The order of the other trees is theirs still, once the nodes are shared out again. -/
theorem update (hF : Forest s T fl) {t : Nat} {tree : RbtreeT K} {p : Pool K V}
    {T' : Tree Nat K V} {fl' : List Nat} (ht : s.trees[t]? = some tree)
    (hP : Pooled ⟨p, s.trees.set t { tree with head := T'.root }⟩ (Function.update T t T') fl')
    (hsort : Sorted tree.comp T'.entries) :
    Forest ⟨p, s.trees.set t { tree with head := T'.root }⟩ (Function.update T t T') fl' := by
  have hlt : t < s.trees.length := (List.getElem?_eq_some_iff.mp ht).1
  refine ⟨hP.queue, ?_, ?_, hP.empty, hP.apart, hP.free, hP.pool, hP.bound⟩
  · intro u hu
    rcases List.mem_or_eq_of_mem_set hu with hu | rfl
    · exact hF.order u hu
    · exact hF.order tree (List.mem_of_getElem? ht)
  · intro i u hu
    obtain ⟨hshape, hhead, hrb⟩ := hP.linked i u hu
    refine ⟨hshape, hhead, ?_, hrb⟩
    by_cases hi : i = t
    · subst hi
      obtain rfl : { tree with head := T'.root } = u := by simpa [hlt] using hu
      rw [Function.update_self]
      exact hsort
    · rw [Function.update_of_ne hi]
      exact (hF.sound i u (by simpa [Ne.symm hi] using hu)).sorted

theorem alloc (hF : Forest s T fl) {comp : K → K → Int} (hc : TotalPreorder comp)
    (hlt : s.trees.length < treePoolNum) (fuel : Nat) :
    s.step fuel (.alloc comp) = .ok ⟨s.pool, s.trees ++ [⟨none, comp⟩]⟩ ∧
      Forest ⟨s.pool, s.trees ++ [⟨none, comp⟩]⟩ T fl := by
  have hP := hF.pooled.alloc comp
  refine ⟨by simp [State.step, rbtreeAlloc, hlt], hP.queue, ?_, ?_, hP.empty, hP.apart, hP.free,
    hP.pool, hP.bound⟩
  · intro u hu
    rcases List.mem_append.mp hu with hu | hu
    · exact hF.order u hu
    · obtain rfl := List.mem_singleton.mp hu
      exact hc
  · intro i u hu
    obtain ⟨hshape, hhead, hrb⟩ := hP.linked i u hu
    refine ⟨hshape, hhead, ?_, hrb⟩
    by_cases hi : i < s.trees.length
    · exact (hF.sound i u (by simpa [List.getElem?_append_left hi] using hu)).sorted
    · rw [hF.empty i (by omega)]
      exact .nil

theorem insert (hF : Forest s T fl) {t : Nat} {tree : RbtreeT K} {fuel : Nat} {k : K} {v : V}
    (ht : s.trees[t]? = some tree) (he : rbtreeNodeAlloc s.pool ≠ .error .abort)
    (hf : rbtreeNodePoolNum + 2 ≤ fuel) :
    ∃ p T' fl', s.step fuel (.insert t k v) =
        .ok ⟨p, s.trees.set t { tree with head := T'.root }⟩ ∧
      Forest ⟨p, s.trees.set t { tree with head := T'.root }⟩ (Function.update T t T') fl' ∧
      ∃ es es', (T t).entries = es ++ es' ∧ T'.entries = es ++ (k, v) :: es' := by
  obtain ⟨p, T', fl', hok, hP, hsort, hent, -⟩ := hF.pooled.insert (k := k) (v := v) ht he hf
  have hc := hF.order tree (List.mem_of_getElem? ht)
  exact ⟨p, T', fl', hok, hF.update ht hP (hsort hc (hF.sound t tree ht).sorted), hent⟩

theorem delete (hF : Forest s T fl) {t : Nat} {tree : RbtreeT K} {fuel : Nat} {k : K}
    (ht : s.trees[t]? = some tree) (hk : ∃ e ∈ (T t).entries, tree.comp e.1 k = 0)
    (hf : rbtreeNodePoolNum + 2 ≤ fuel) :
    ∃ p T' fl', s.step fuel (.delete t k) =
        .ok ⟨p, s.trees.set t { tree with head := T'.root }⟩ ∧
      Forest ⟨p, s.trees.set t { tree with head := T'.root }⟩ (Function.update T t T') fl' ∧
      Deletes tree.comp s.pool.heap fuel (T t) T' k := by
  have hc := hF.order tree (List.mem_of_getElem? ht)
  have hsort := (hF.sound t tree ht).sorted
  have hlen := hF.length_le t
  obtain ⟨i, hsearch⟩ := (hF.pooled.linked t tree ht).search hc hsort hk
    (show (T t).ids.length < fuel by omega)
  obtain ⟨p, T', fl', hok, hP, hdel, -⟩ := hF.pooled.delete ht hsearch hf
  exact ⟨p, T', fl', hok, hF.update ht hP (hdel.sorted hsort), hdel⟩

end Forest

end Dmos.Proofs.SharedPool
