import Mathlib.Data.Multiset.AddSub
import Dmos.Proofs.RedBlack

namespace Dmos.Proofs.KeyMultiset

open Dmos.Lib Dmos.Rbtree Dmos.Proofs.TreeShape Dmos.Proofs.Descent Dmos.Proofs.Delete
open Dmos.Proofs.SharedPool Dmos.Proofs.RedBlack Tree

variable {K V : Type}

/-- What the trees are for: each is a comparison function and a multiset of keys. -/
abbrev KeySets (K : Type) := List ((K → K → Int) × Multiset K)

/-- What a client sees of an operation. Which of several equivalent keys a
deletion takes is left open. -/
inductive KeyStep : KeySets K → Op K V → KeySets K → Prop where
  | alloc (σ : KeySets K) (comp : K → K → Int) : KeyStep σ (.alloc comp) (σ ++ [(comp, 0)])
  | insert {σ : KeySets K} {t : Nat} {comp : K → K → Int} {m : Multiset K} (k : K) (v : V) :
    σ[t]? = some (comp, m) → KeyStep σ (.insert t k v) (σ.set t (comp, k ::ₘ m))
  | delete {σ : KeySets K} {t : Nat} {comp : K → K → Int} {m : Multiset K} {k k₀ : K} :
    σ[t]? = some (comp, k₀ ::ₘ m) → comp k₀ k = 0 → KeyStep σ (.delete t k) (σ.set t (comp, m))

def keys (s : State K V) (tree : RbtreeT K) : Multiset K := ↑((contents s tree).map Prod.fst)

def keySets (s : State K V) : KeySets K := s.trees.map (fun tree => (tree.comp, keys s tree))

variable {s : State K V} {T : Nat → Tree Nat K V} {fl : List Nat} {fuel : Nat}

theorem keys_forest (hF : Forest s T fl) {t : Nat} {tree : RbtreeT K}
    (ht : s.trees[t]? = some tree) : keys s tree = ↑((T t).entries.map Prod.fst) := by
  rw [keys, contents_forest hF ht]

theorem keySets_get {t : Nat} {tree : RbtreeT K} (ht : s.trees[t]? = some tree) :
    (keySets s)[t]? = some (tree.comp, keys s tree) := by
  simp [keySets, ht]

/-- An operation on one tree changes one of the multisets. -/
theorem keySets_update (hF : Forest s T fl) {t : Nat} {tree : RbtreeT K} {p : Pool K V}
    {T' : Tree Nat K V} {fl' : List Nat} (ht : s.trees[t]? = some tree)
    (hF' : Forest ⟨p, s.trees.set t { tree with head := T'.root }⟩ (Function.update T t T') fl') :
    keySets ⟨p, s.trees.set t { tree with head := T'.root }⟩ =
      (keySets s).set t (tree.comp, ↑(T'.entries.map Prod.fst)) := by
  have hlt : t < s.trees.length := (List.getElem?_eq_some_iff.mp ht).1
  refine List.ext_getElem? (fun i => ?_)
  by_cases hi : i = t
  · subst hi
    have hti : (s.trees.set i { tree with head := T'.root })[i]? =
        some { tree with head := T'.root } := by simp [hlt]
    have hk := keys_forest hF' hti
    rw [Function.update_self] at hk
    simp [keySets, hlt, hk]
  · cases hu : s.trees[i]? with
    | none => simp [keySets, List.getElem?_set_ne (Ne.symm hi), hu]
    | some u =>
      have hui : (s.trees.set t { tree with head := T'.root })[i]? = some u := by
        simpa [List.getElem?_set_ne (Ne.symm hi)] using hu
      have hk := keys_forest hF' hui
      rw [Function.update_of_ne hi, ← keys_forest hF hu] at hk
      simp [keySets, List.getElem?_set_ne (Ne.symm hi), hu, hk]

theorem step_refines (hf : rbtreeNodePoolNum + 2 ≤ fuel) (op : Op K V) (hF : Forest s T fl)
    (ha : Admissible s op) :
    ∃ s', step fuel s op = some s' ∧ KeyStep (keySets s) op (keySets s') ∧
      ∃ T' fl', Forest s' T' fl' := by
  cases op with
  | alloc comp =>
    obtain ⟨hok, hF'⟩ := hF.alloc ha.1 ha.2 fuel
    refine ⟨_, by rw [step, hok]; rfl, ?_, _, _, hF'⟩
    have hnew : keySets ⟨s.pool, s.trees ++ [⟨none, comp⟩]⟩ = keySets s ++ [(comp, 0)] := by
      simp [keySets, keys, contents, inorder, rbtreeNodePoolNum]
    rw [hnew]
    exact .alloc _ comp
  | insert t k v =>
    obtain ⟨hlt, he⟩ := ha
    have ht : s.trees[t]? = some s.trees[t] := List.getElem?_eq_getElem hlt
    obtain ⟨p, T', fl', hok, hF', es, es', hes, hes'⟩ := hF.insert (k := k) (v := v) ht he hf
    refine ⟨_, by rw [step, hok]; rfl, ?_, _, _, hF'⟩
    have hm : (↑(T'.entries.map Prod.fst) : Multiset K) = k ::ₘ keys s s.trees[t] := by
      rw [keys_forest hF ht, hes, hes', Multiset.cons_coe, Multiset.coe_eq_coe]
      simp only [List.map_append, List.map_cons]
      exact List.perm_middle
    rw [keySets_update hF ht hF', hm]
    exact .insert k v (keySets_get ht)
  | delete t k =>
    obtain ⟨tree, ht, hk⟩ := ha
    rw [contents_forest hF ht] at hk
    obtain ⟨p, T', fl', hok, hF', hdel⟩ := hF.delete ht hk hf
    refine ⟨_, by rw [step, hok]; rfl, ?_, _, _, hF'⟩
    obtain ⟨ks, k₀, ks', hk₀, hks, hks'⟩ := hdel.keys
    have hm : keys s tree = k₀ ::ₘ (↑(T'.entries.map Prod.fst) : Multiset K) := by
      rw [keys_forest hF ht, hks, hks', Multiset.cons_coe, Multiset.coe_eq_coe]
      exact List.perm_middle
    rw [keySets_update hF ht hF']
    exact .delete (hm ▸ keySets_get ht) hk₀

/-- `rbtree_search` on a tree of the pool. -/
theorem search_forest (hf : rbtreeNodePoolNum + 2 ≤ fuel) (hF : Forest s T fl) {t : Nat}
    {tree : RbtreeT K} (ht : s.trees[t]? = some tree) (k : K) :
    ∃ res, rbtreeSearch tree.comp fuel s.pool.heap tree.head k = .ok res ∧
      Found tree.comp k (T t) res := by
  have hs := hF.sound t tree ht
  have hlen := hF.length_le t
  rw [← hs.head]
  exact search_spec (p := []) hs.shape nofun (by omega)

/-- A node that the search finds holds an entry of the tree. -/
theorem found_entry {h : Heap K V} {comp : K → K → Int} {t : Tree Nat K V} {k : K} {i : Nat}
    (hs : Shape h none t) (hf : Found comp k t (some i)) :
    ((h i).key, (h i).val) ∈ t.entries ∧ comp (h i).key k = 0 := by
  obtain ⟨p, c, l, r, k', v, rfl, hk⟩ := hf
  rw [hs.focus.repr.1]
  exact ⟨by simp [Path.entries_plug, entries], hk⟩

/-- The search answers by a node with an equivalent key if there is one, and by
`NULL` otherwise. -/
def Answers (fuel : Nat) (s : State K V) (tree : RbtreeT K) (k : K) : Prop :=
  ((∃ i, rbtreeSearch tree.comp fuel s.pool.heap tree.head k = .ok (some i) ∧
      ((s.pool.heap i).key, (s.pool.heap i).val) ∈ contents s tree ∧
      tree.comp (s.pool.heap i).key k = 0) ↔ ∃ k' ∈ keys s tree, tree.comp k' k = 0) ∧
  (rbtreeSearch tree.comp fuel s.pool.heap tree.head k = .ok none ↔
    ¬ ∃ k' ∈ keys s tree, tree.comp k' k = 0)

theorem answers_forest (hf : rbtreeNodePoolNum + 2 ≤ fuel) (hF : Forest s T fl) {t : Nat}
    {tree : RbtreeT K} (ht : s.trees[t]? = some tree) (k : K) : Answers fuel s tree k := by
  have hs := hF.sound t tree ht
  have hc := hF.order tree (List.mem_of_getElem? ht)
  obtain ⟨res, hok, hfound⟩ := search_forest hf hF ht k
  have hiff := hfound.some_iff hc hs.sorted
  have hkeys : (∃ k' ∈ keys s tree, tree.comp k' k = 0) ↔
      ∃ e ∈ (T t).entries, tree.comp e.1 k = 0 := by
    rw [keys_forest hF ht]
    simp
  rw [Answers, hkeys, ← hiff, hok, contents_forest hF ht]
  cases res with
  | none => simp
  | some i =>
    have he := found_entry hs.shape hfound
    simp [he]

/-- Every run refines the run of the multisets, and the search is complete after
it. -/
theorem key_multisets_refined (hf : rbtreeNodePoolNum + 2 ≤ fuel) (h : Heap K V) (q : Queue)
    (ops : List (Op K V)) (ha : Along (step fuel) Admissible (State.init h q) ops) :
    ∃ s, run (step fuel) (State.init h q) ops = some s ∧ Traces KeyStep [] ops (keySets s) ∧
      ∀ (t : Nat) tree k, s.trees[t]? = some tree → Answers fuel s tree k := by
  obtain ⟨s, σ, hrun, htr, rfl, T, fl, hF⟩ := run_refines
    (R := fun s σ => σ = keySets s ∧ ∃ T fl, Forest s T fl) (C := Admissible)
    (fun s σ op hR ha => by
      obtain ⟨rfl, T, fl, hF⟩ := hR
      obtain ⟨s', hok, hstep, hF'⟩ := step_refines hf op hF ha
      exact ⟨s', _, hok, hstep, rfl, hF'⟩)
    ops (State.init h q) [] ⟨rfl, _, _, init_forest h q⟩ ha
  exact ⟨s, hrun, htr, fun t tree k ht => answers_forest hf hF ht k⟩

theorem key_multisets_refined_sample :
    Along (step 1026) Admissible (State.init blankHeap blankQueue) (.alloc natOrder :: sampleOps) ∧
    ∃ s, run (step 1026) (State.init blankHeap blankQueue) (.alloc natOrder :: sampleOps) = some s ∧
      Traces KeyStep [] (.alloc natOrder :: sampleOps) (keySets s) ∧
      ∀ (t : Nat) tree k, s.trees[t]? = some tree → Answers 1026 s tree k := by
  have ha := sample_admissible sampleOps (by decide +kernel)
  exact ⟨ha, key_multisets_refined (by decide) _ _ _ ha⟩

end Dmos.Proofs.KeyMultiset
