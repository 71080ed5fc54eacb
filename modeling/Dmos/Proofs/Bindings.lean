import Mathlib.Data.List.Pairwise
import Dmos.Proofs.KeyMultiset

namespace Dmos.Proofs.Bindings

open Dmos.Lib Dmos.Rbtree Dmos.Proofs.TreeShape Dmos.Proofs.Delete Dmos.Proofs.SharedPool
open Dmos.Proofs.RedBlack Dmos.Proofs.KeyMultiset Tree

variable {K V : Type}

/-- The deletion of `k` removes one pair, and the other keys keep their values. -/
def PairsKept (fuel : Nat) (s : State K V) (t : Nat) (tree : RbtreeT K) (k : K) : Prop :=
  ∃ s' tree', step fuel s (.delete t k) = some s' ∧ s'.trees[t]? = some tree' ∧
    (∃ e, tree.comp e.1 k = 0 ∧
      (↑(contents s tree) : Multiset (K × V)) = e ::ₘ ↑(contents s' tree')) ∧
    ((contents s tree).Pairwise (fun a b => tree.comp a.1 b.1 ≠ 0) →
      ∀ e ∈ contents s tree, tree.comp e.1 k ≠ 0 →
        ∃ i, rbtreeSearch tree.comp fuel s'.pool.heap tree'.head e.1 = .ok (some i) ∧
          (s'.pool.heap i).val = e.2)

/-- The node that holds `k` has no left child, or agrees with the entry right in
front of it in the value or in the key itself. -/
def PredecessorAgrees (fuel : Nat) (s : State K V) (tree : RbtreeT K) (k : K) : Prop :=
  ∀ i, rbtreeSearch tree.comp fuel s.pool.heap tree.head k = .ok (some i) →
    ∀ e, (inorder s.pool.heap rbtreeNodePoolNum (s.pool.heap i).left).getLast? = some e →
      e.2 = (s.pool.heap i).val ∨ e.1 = (s.pool.heap i).key

/-- The entries in front of a pair, the pair, and those after it: what is left is
the original less one pair exactly if the last entry in front agrees. -/
theorem carry_removes_iff {comp : K → K → Int} {k k₀ : K} {v₀ : V} (hk : comp k₀ k = 0)
    (l r : List (K × V)) :
    (∃ e, comp e.1 k = 0 ∧ (↑(l ++ (k₀, v₀) :: r) : Multiset (K × V)) =
      e ::ₘ ↑(carry v₀ l ++ r)) ↔
    ∀ e, l.getLast? = some e → e.2 = v₀ ∨ e.1 = k₀ := by
  rcases List.eq_nil_or_concat' l with rfl | ⟨l, ⟨m, w⟩, rfl⟩
  · refine iff_of_true ⟨(k₀, v₀), hk, rfl⟩ nofun
  · rw [carry_concat]
    have hl : (↑(l ++ [(m, w)] ++ (k₀, v₀) :: r) : Multiset (K × V)) =
        (m, w) ::ₘ (k₀, v₀) ::ₘ ↑(l ++ r) := by
      rw [Multiset.cons_coe, Multiset.cons_coe, Multiset.coe_eq_coe, List.append_assoc]
      exact List.perm_middle.trans (List.Perm.cons _ List.perm_middle)
    have hr : (↑(l ++ [(m, v₀)] ++ r) : Multiset (K × V)) = (m, v₀) ::ₘ ↑(l ++ r) := by
      rw [Multiset.cons_coe, Multiset.coe_eq_coe, List.append_assoc]
      exact List.perm_middle
    rw [hl, hr]
    constructor
    · rintro ⟨e, -, he⟩ e' hlast
      obtain rfl : (m, w) = e' := by simpa using hlast
      have hcancel : ({(m, w), (k₀, v₀)} : Multiset (K × V)) = {e, (m, v₀)} := by
        rw [← Multiset.add_left_inj (u := (↑(l ++ r) : Multiset (K × V)))]
        simpa using he
      have hmem : (m, v₀) ∈ ({(m, w), (k₀, v₀)} : Multiset (K × V)) := by
        rw [hcancel]
        simp
      rcases (by simpa using hmem : v₀ = w ∨ m = k₀) with h | h
      · exact .inl h.symm
      · exact .inr h
    · intro hag
      rcases hag (m, w) (by simp) with rfl | rfl
      · exact ⟨(k₀, w), hk, Multiset.cons_swap _ _ _⟩
      · exact ⟨(m, w), hk, rfl⟩

theorem around_perm (p l r q : List (K × V)) :
    (p ++ (l ++ r) ++ q).Perm (l ++ (r ++ (q ++ p))) := by
  rw [List.append_assoc]
  refine List.perm_append_comm.trans ?_
  simp

theorem distinct_symm {comp : K → K → Int} (hc : TotalPreorder comp) :
    Std.Symm (fun a b : K × V => comp a.1 b.1 ≠ 0) :=
  ⟨fun _ _ hab hba => hab (hc.eq_swap hba)⟩

variable {s : State K V} {T : Nat → Tree Nat K V} {fl : List Nat} {fuel : Nat}

/-- With distinct keys, the pairs that are left are found by their keys. -/
theorem search_binding (hf : rbtreeNodePoolNum + 2 ≤ fuel) (hF : Forest s T fl) {t : Nat}
    {tree : RbtreeT K} (ht : s.trees[t]? = some tree)
    (hd : (contents s tree).Pairwise (fun a b => tree.comp a.1 b.1 ≠ 0)) {e : K × V}
    (he : e ∈ contents s tree) :
    ∃ i, rbtreeSearch tree.comp fuel s.pool.heap tree.head e.1 = .ok (some i) ∧
      (s.pool.heap i).val = e.2 := by
  have hc := hF.order tree (List.mem_of_getElem? ht)
  obtain ⟨hiff, -⟩ := answers_forest hf hF ht e.1
  have hkey : e.1 ∈ keys s tree := by
    rw [keys, Multiset.mem_coe]
    exact List.mem_map_of_mem he
  obtain ⟨i, hok, hmem, h0⟩ := hiff.mpr ⟨e.1, hkey, hc.refl e.1⟩
  refine ⟨i, hok, ?_⟩
  by_contra hne
  have := distinct_symm (V := V) hc
  exact hd.forall hmem he (fun heq => hne (congrArg Prod.snd heq)) h0

/-- The entry in front of the node found is the last one of its left subtree. -/
theorem predecessor_agrees_iff (hF : Forest s T fl) {t i : Nat} {tree : RbtreeT K} {k k₀ : K} {v₀ : V}
    {pa : Path Nat K V} {c : Color} {l r : Tree Nat K V} (ht : s.trees[t]? = some tree)
    (hsearch : rbtreeSearch tree.comp fuel s.pool.heap (T t).root k = .ok (some i))
    (hT : T t = Path.plug pa (.node i c l k₀ v₀ r)) :
    PredecessorAgrees fuel s tree k ↔
      ∀ e, l.entries.getLast? = some e → e.2 = v₀ ∨ e.1 = k₀ := by
  have hs := hF.sound t tree ht
  have hlen := hF.length_le t
  have hshape := hs.shape
  rw [hT] at hshape hlen
  obtain ⟨hid, hl, -⟩ := hshape.focus.repr
  rw [length_ids_plug] at hlen
  simp only [ids, List.length_cons, List.length_append] at hlen
  have hinorder := inorder_repr hl (show l.ids.length ≤ rbtreeNodePoolNum by omega)
  rw [hs.head] at hsearch
  constructor
  · intro hp e he
    have := hp i hsearch e
    rw [hid] at this
    exact this (hinorder ▸ he)
  · intro hp j hj e he
    obtain rfl : i = j := by simpa [hsearch] using hj
    rw [hid] at he ⊢
    exact hp e (hinorder ▸ he)

/-- In every reachable state, the deletion of a stored key keeps the other pairs
exactly if the entry in front of the node found agrees with it. -/
theorem delete_keeps_pairs_iff (hf : rbtreeNodePoolNum + 2 ≤ fuel) (h : Heap K V) (q : Queue)
    (ops : List (Op K V)) (ha : Along (step fuel) Admissible (State.init h q) ops)
    (hrun : run (step fuel) (State.init h q) ops = some s) (t : Nat) (tree : RbtreeT K) (k : K)
    (ht : s.trees[t]? = some tree) (hk : ∃ e ∈ contents s tree, tree.comp e.1 k = 0) :
    PairsKept fuel s t tree k ↔ PredecessorAgrees fuel s tree k := by
  obtain ⟨s₀, hrun₀, T, fl, hF⟩ := run_forest hf h q ops ha
  obtain rfl : s₀ = s := Option.some.inj (hrun₀.symm.trans hrun)
  have hc := hF.order tree (List.mem_of_getElem? ht)
  have hcont := contents_forest hF ht
  rw [hcont] at hk
  obtain ⟨p, T', fl', hok, hF', i, pa, c, l, k₀, v₀, r, hsearch, hT, hk₀, hent⟩ := hF.delete ht hk hf
  have hstep : step fuel s₀ (.delete t k) =
      some ⟨p, s₀.trees.set t { tree with head := T'.root }⟩ := by
    rw [step, hok]
    rfl
  have ht' : (s₀.trees.set t { tree with head := T'.root })[t]? =
      some { tree with head := T'.root } := by
    simp [(List.getElem?_eq_some_iff.mp ht).1]
  have hcont' := contents_forest hF' ht'
  rw [Function.update_self, hent] at hcont'
  rw [hT, Path.entries_plug, entries] at hcont
  have hremoved : (∃ e, tree.comp e.1 k = 0 ∧ (↑(contents s₀ tree) : Multiset (K × V)) =
      e ::ₘ ↑(contents ⟨p, s₀.trees.set t { tree with head := T'.root }⟩
        { tree with head := T'.root })) ↔ PredecessorAgrees fuel s₀ tree k := by
    rw [predecessor_agrees_iff hF ht hsearch hT,
      ← carry_removes_iff hk₀ _ (r.entries ++ (Path.after pa ++ Path.before pa)), hcont, hcont',
      Multiset.coe_eq_coe.mpr (around_perm _ _ ((k₀, v₀) :: r.entries) _),
      Multiset.coe_eq_coe.mpr (around_perm _ _ r.entries _)]
    rfl
  constructor
  · rintro ⟨s', tree', hs', htree', hrem, -⟩
    obtain rfl := Option.some.inj (hstep.symm.trans hs')
    obtain rfl := Option.some.inj (ht'.symm.trans htree')
    exact hremoved.mp hrem
  · intro hp
    obtain ⟨e₀, he₀, hm⟩ := hremoved.mpr hp
    refine ⟨_, _, hstep, ht', ⟨e₀, he₀, hm⟩, fun hd e he hne => ?_⟩
    rw [Multiset.cons_coe, Multiset.coe_eq_coe] at hm
    have hd' := (hm.pairwise hd (fun h1 h2 => h1 (hc.eq_swap h2))).of_cons
    have he' : e ∈ contents ⟨p, s₀.trees.set t { tree with head := T'.root }⟩
        { tree with head := T'.root } := by
      rcases List.mem_cons.mp (hm.mem_iff.mp he) with rfl | he'
      · exact absurd he₀ hne
      · exact he'
    exact search_binding hf hF' ht' hd' he'

/-- One tree, with the keys 4 and 2. -/
def twoKeys : List (Op Nat Nat) := [.alloc natOrder, .insert 0 4 40, .insert 0 2 20]

theorem twoKeys_isSome :
    (run (step 1026) (State.init blankHeap blankQueue) twoKeys).isSome = true := by decide +kernel

def twoKeysState : State Nat Nat :=
  (run (step 1026) (State.init blankHeap blankQueue) twoKeys).get twoKeys_isSome

theorem twoKeys_run :
    run (step 1026) (State.init blankHeap blankQueue) twoKeys = some twoKeysState :=
  (Option.some_get _).symm

theorem twoKeys_trees : 0 < twoKeysState.trees.length := by decide +kernel

def twoKeysTree : RbtreeT Nat := twoKeysState.trees.get ⟨0, twoKeys_trees⟩

theorem twoKeys_tree : twoKeysState.trees[0]? = some twoKeysTree :=
  List.getElem?_eq_getElem twoKeys_trees

theorem delete_keeps_pairs_iff_two :
    (∃ e ∈ contents twoKeysState twoKeysTree, twoKeysTree.comp e.1 4 = 0) ∧
    (PairsKept 1026 twoKeysState 0 twoKeysTree 4 ↔
      PredecessorAgrees 1026 twoKeysState twoKeysTree 4) := by
  have hk : ∃ e ∈ contents twoKeysState twoKeysTree, twoKeysTree.comp e.1 4 = 0 := by
    decide +kernel
  exact ⟨hk, delete_keeps_pairs_iff (by decide) _ _ _
    (sample_admissible [.insert 0 4 40, .insert 0 2 20] (by decide +kernel)) twoKeys_run 0 _ 4
    twoKeys_tree hk⟩

/-- The deletion of 4 leaves the key 2 with the value of 4. -/
theorem delete_swaps_value :
    run (step 1026) (State.init blankHeap blankQueue) twoKeys = some twoKeysState ∧
    twoKeysState.trees[0]? = some twoKeysTree ∧
    contents twoKeysState twoKeysTree = [(2, 20), (4, 40)] ∧
    (step 1026 twoKeysState (.delete 0 4)).map (fun s => s.trees.map (contents s)) =
      some [[(2, 40)]] ∧
    ¬ PairsKept 1026 twoKeysState 0 twoKeysTree 4 := by
  have hbefore : contents twoKeysState twoKeysTree = [(2, 20), (4, 40)] := by decide +kernel
  have hafter : (step 1026 twoKeysState (.delete 0 4)).map (fun s => s.trees.map (contents s)) =
      some [[(2, 40)]] := by decide +kernel
  refine ⟨twoKeys_run, twoKeys_tree, hbefore, hafter, ?_⟩
  rintro ⟨s', tree', hs', ht', ⟨e, -, hm⟩, -⟩
  rw [hs', Option.map_some, Option.some.injEq] at hafter
  have hcont : contents s' tree' = [(2, 40)] := by
    have hget := congrArg (fun l : List (List (Nat × Nat)) => l[0]?) hafter
    simpa [ht'] using hget
  rw [hbefore, hcont] at hm
  have hmem : (2, 40) ∈ (↑[(2, 20), (4, 40)] : Multiset (Nat × Nat)) := by
    rw [hm]
    simp
  revert hmem
  decide

end Dmos.Proofs.Bindings
