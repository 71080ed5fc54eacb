import Dmos.Proofs.Descent
import Dmos.Proofs.InsertFix
import Dmos.Proofs.QueueChain

namespace Dmos.Proofs.Insert

open Dmos.Lib Dmos.Rbtree Dmos.Proofs.TreeShape Dmos.Proofs.Descent Dmos.Proofs.InsertFix
open Dmos.Proofs.QueueChain Tree

variable {K V : Type} {h : Heap K V} {ls : Queue} {n : Nat} {fl : List Nat}

/-- A node comes from the free queue, or, when that is empty, from the part of the
pool that was never used. -/
structure Allocated (ls ls' : Queue) (n n' : Nat) (fl fl' : List Nat) (tar : Nat) : Prop where
  queue : Holds ls' fl'
  source : (fl = tar :: fl' ∧ n' = n) ∨
    (fl = [] ∧ fl' = [] ∧ tar = n ∧ n' = n + 1 ∧ n < rbtreeNodePoolNum)

/-- A node of a tree is neither free nor unused. -/
theorem Allocated.not_mem {ls' : Queue} {n' tar : Nat} {fl' : List Nat} {T : Tree Nat K V}
    (ha : Allocated ls ls' n n' fl fl' tar) (hd : ∀ i ∈ T.ids, i ∉ fl ∧ i < n) : tar ∉ T.ids := by
  intro hm
  obtain ⟨hfl, hlt⟩ := hd tar hm
  rcases ha.source with ⟨rfl, -⟩ | ⟨-, -, rfl, -⟩
  · simp at hfl
  · omega

theorem alloc_spec (hq : Holds ls fl) (he : rbtreeNodeAlloc ⟨h, ls, n⟩ ≠ .error .abort) :
    ∃ tar ls' n' fl', rbtreeNodeAlloc ⟨h, ls, n⟩ = .ok (tar, ⟨h, ls', n'⟩) ∧
      Allocated ls ls' n n' fl fl' tar := by
  cases fl with
  | nil =>
    by_cases hn : n ≥ rbtreeNodePoolNum
    · refine absurd ?_ he
      simp [rbtreeNodeAlloc, is_empty_holds hq, hn]
      rfl
    · refine ⟨n, ls, n + 1, [], ?_, hq, .inr ⟨rfl, rfl, rfl, rfl, by omega⟩⟩
      simp [rbtreeNodeAlloc, is_empty_holds hq, hn, pure, Except.pure]
  | cons i fl =>
    obtain ⟨ls', hok, hq', -⟩ := pop_holds hq
    refine ⟨i, ls', n, fl, ?_, hq', .inl ⟨rfl, rfl⟩⟩
    simp [rbtreeNodeAlloc, is_empty_holds hq, hok, pure, Except.pure]

/-- The descent ends with the new node, red, in the hole at the end of a way down,
which is the state that the fix-up loop is entered in. -/
theorem descend_climb (comp : K → K → Int) {T : Tree Nat K V} {fuel tar tmp : Nat} {k : K} {v : V}
    {q : Option Nat} (hs : Shape h none T) (hrb : T.RedBlack) (hr : T.root = some tmp)
    (ht : tar ∉ T.ids) (hk : h tar = ⟨k, v, q, none, none, .red⟩) (hf : T.ids.length < fuel) :
    ∃ h1 f p, insertDescend comp tar fuel h tmp = .ok h1 ∧ Path.plug (f :: p) .nil = T ∧
      Path.Aims comp k (f :: p) ∧ (f :: p).length ≤ T.ids.length ∧
      Climb h1 T.root tar (f :: p) (.node tar .red .nil k v .nil) 0 ∧
      ∀ i, i ≠ tar → i ∉ T.ids → h1 i = h i := by
  obtain ⟨h1, f, p, hdesc, rfl, haim, hs1, hfr1⟩ :
      ∃ h1 f p, insertDescend comp tar fuel h tmp = .ok h1 ∧ Path.plug (f :: p) .nil = T ∧
        Path.Aims comp k (f :: p) ∧
        Shape h1 none (Path.plug (f :: p) (.node tar .red .nil k v .nil)) ∧
        ∀ i, i ≠ tar → i ∉ T.ids → h1 i = h i :=
    insert_descend_spec (p := []) hs hr ht hk nofun (by omega)
  obtain ⟨m, hp, hnil, -⟩ := hrb.focus
  obtain rfl : m = 0 := by cases hnil; rfl
  have hlen : (f :: p).length ≤ (Path.plug (f :: p) .nil).ids.length := by
    have hle := Path.length_le_ids (f :: p)
    rw [length_ids_plug]
    omega
  exact ⟨h1, f, p, hdesc, rfl, haim, hlen,
    ⟨hs1, rfl, Path.root_plug (by simp) _ _, by simp, hp, .red .nil .nil rfl rfl⟩, hfr1⟩

/-- The insertion of a node that was just allocated into a tree that is not empty. -/
theorem insert_tree_spec {comp : K → K → Int} {T : Tree Nat K V} {fuel tar tmp : Nat} {k : K} {v : V}
    {q : Option Nat} (hs : Shape h none T) (hrb : T.RedBlack) (hr : T.root = some tmp)
    (ht : tar ∉ T.ids) (hk : h tar = ⟨k, v, q, none, none, .red⟩) (hf : T.ids.length < fuel) :
    ∃ h1 h2 T', insertDescend comp tar fuel h tmp = .ok h1 ∧
      insertFix fuel h1 T.root tar = .ok (h2, T'.root) ∧ Shape h2 none T' ∧ T'.RedBlack ∧
      (TotalPreorder comp → Sorted comp T.entries → Sorted comp T'.entries) ∧
      (∃ es es', T.entries = es ++ es' ∧ T'.entries = es ++ (k, v) :: es') ∧
      (∀ i, i ∈ T'.ids ↔ i = tar ∨ i ∈ T.ids) ∧ ∀ i, i ≠ tar → i ∉ T.ids → h2 i = h i := by
  obtain ⟨h1, f, p, hdesc, rfl, haim, hlen, hclimb, hfr1⟩ := descend_climb comp hs hrb hr ht hk hf
  obtain ⟨h2, head', hfix, T', hE, hroot, hent, hrb'⟩ := insert_fix_spec fuel hclimb (by omega)
  have hmem : ∀ i, i ∈ T'.ids ↔ i = tar ∨ i ∈ (Path.plug (f :: p) .nil).ids := by
    intro i
    rw [hE.mem, mem_ids_plug, mem_ids_plug]
    simp [ids]
  refine ⟨h1, h2, T', hdesc, hroot ▸ hfix, hE.shape, hrb', ?_, ?_, hmem, ?_⟩
  · intro hc hsort
    rw [hent]
    exact haim.sorted hc hsort rfl rfl
  · refine ⟨Path.before (f :: p), Path.after (f :: p), ?_, ?_⟩
    · simp [Path.entries_plug, entries]
    · simp [hent, Path.entries_plug, entries]
  · intro i hi hni
    rw [hE.frame i ?_, hfr1 i hi hni]
    rw [← hE.mem, hmem]
    simp [hi, hni]

/-- The new node before it is hung anywhere. -/
def fresh (h : Heap K V) (tar : Nat) (k : K) (v : V) : Heap K V :=
  (((h.setEntry tar k v).setChild tar .left none).setChild tar .right none).setColor tar .red

theorem fresh_self (h : Heap K V) (tar : Nat) (k : K) (v : V) :
    fresh h tar k v tar = ⟨k, v, (h tar).par, none, none, .red⟩ := by
  simp [fresh, Heap.setEntry, Heap.setChild, Heap.setColor, mod_apply, RbNode.setEntry,
    RbNode.setChild, RbNode.setColor]

theorem fresh_other (h : Heap K V) {tar i : Nat} (k : K) (v : V) (hi : i ≠ tar) :
    fresh h tar k v i = h i := by
  simp [fresh, Heap.setEntry, Heap.setChild, Heap.setColor, mod_apply, hi]

theorem fresh_shape {T : Tree Nat K V} {tar : Nat} (hs : Shape h none T) (ht : tar ∉ T.ids) (k : K)
    (v : V) : Shape (fresh h tar k v) none T :=
  ⟨hs.repr.frame (fun _ hi => fresh_other h k v (ne_of_mem_of_not_mem hi ht)), hs.nodup⟩

/-- `rbtree_insert`, as long as the pool has a node; `tar` is the node it takes. -/
theorem insert_spec (comp : K → K → Int) {T : Tree Nat K V} {fuel : Nat} {k : K} {v : V}
    (hs : Shape h none T) (hrb : T.RedBlack) (hq : Holds ls fl)
    (hd : ∀ i ∈ T.ids, i ∉ fl ∧ i < n)
    (he : rbtreeNodeAlloc ⟨h, ls, n⟩ ≠ .error .abort) (hf : T.ids.length < fuel) :
    ∃ h' ls' n' fl' tar T',
      rbtreeInsert comp fuel ⟨h, ls, n⟩ T.root k v = .ok (⟨h', ls', n'⟩, T'.root) ∧
      Allocated ls ls' n n' fl fl' tar ∧ Shape h' none T' ∧ T'.RedBlack ∧
      (TotalPreorder comp → Sorted comp T.entries → Sorted comp T'.entries) ∧
      (∃ es es', T.entries = es ++ es' ∧ T'.entries = es ++ (k, v) :: es') ∧
      (∀ i, i ∈ T'.ids ↔ i = tar ∨ i ∈ T.ids) ∧ ∀ i, i ≠ tar → i ∉ T.ids → h' i = h i := by
  obtain ⟨tar, ls', n', fl', halloc, ha⟩ := alloc_spec hq he
  have ht := ha.not_mem hd
  cases hroot : T.root with
  | none =>
    obtain rfl := root_eq_none hroot
    refine ⟨((fresh h tar k v).setPar tar none).setColor tar .black, ls', n', fl', tar,
      .node tar .black .nil k v .nil, ?_, ha, ⟨⟨?_, trivial, trivial⟩, by simp [ids]⟩,
      ⟨⟨1, .black .nil .nil⟩, rfl⟩, fun _ _ => List.pairwise_singleton _ _, ⟨[], [], rfl, rfl⟩, ?_, ?_⟩
    · simp only [rbtreeInsert, halloc, ok_bind]
      rfl
    · simp [Heap.setPar, Heap.setColor, mod_apply, fresh_self, RbNode.setPar, RbNode.setColor]
    · simp [ids]
    · intro i hi _
      simp [Heap.setPar, Heap.setColor, mod_apply, fresh_other h k v hi, hi]
  | some tmp =>
    obtain ⟨h1, h2, T', hdesc, hfix, hs', hrb', hsort', hent, hmem, hfr⟩ :=
      insert_tree_spec (fresh_shape hs ht k v) hrb hroot ht (fresh_self h tar k v) hf
    refine ⟨h2, ls', n', fl', tar, T', ?_, ha, hs', hrb', hsort', hent, hmem, ?_⟩
    · rw [hroot] at hfix
      unfold fresh at hdesc
      simp only [rbtreeInsert, halloc, ok_bind, hdesc, hfix]
      rfl
    · intro i hi hni
      rw [hfr i hi hni, fresh_other h k v hi]

end Dmos.Proofs.Insert
