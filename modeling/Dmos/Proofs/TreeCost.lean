import Dmos.Lib.TreeHeight
import Dmos.Proofs.FixTermination

namespace Dmos.Proofs.TreeCost

open Dmos.Lib Dmos.Rbtree Dmos.Proofs.TreeShape Dmos.Proofs.Descent Dmos.Proofs.InsertFix
open Dmos.Proofs.Insert Dmos.Proofs.DeleteFix Dmos.Proofs.Delete Dmos.Proofs.SharedPool
open Dmos.Proofs.RedBlack Dmos.Proofs.NodePool Dmos.Proofs.AbsentKey Dmos.Proofs.FixTermination Tree

variable {K V : Type} {comp : K → K → Int} {h : Heap K V} {k : K} {v : V} {q : Option Nat}
  {t T : Tree Nat K V} {fuel fuel' tar tmp m : Nat}

/-! ### The loops that go down -/

theorem search_in_height (hr : Repr h q t) (hf : t.height < fuel) :
    ∃ res, rbtreeSearch comp fuel h t.root k = .ok res := by
  induction t generalizing q fuel with
  | nil =>
    obtain ⟨fuel, rfl⟩ : ∃ m, fuel = m + 1 := ⟨fuel - 1, by omega⟩
    exact ⟨none, rfl⟩
  | node id c l k' v r ihl ihr =>
    obtain ⟨hid, hl, hr⟩ := hr
    rw [Lib.Tree.height] at hf
    obtain ⟨fuel, rfl⟩ : ∃ m, fuel = m + 1 := ⟨fuel - 1, by omega⟩
    simp only [root, rbtreeSearch, hid]
    split
    · exact ⟨some id, rfl⟩
    · split
      · exact ihr hr (by omega)
      · exact ihl hl (by omega)

/-- More fuel changes nothing once there is a result. -/
theorem search_mono {p res : Option Nat} (h1 : rbtreeSearch comp fuel h p k = .ok res)
    (hle : fuel ≤ fuel') : rbtreeSearch comp fuel' h p k = .ok res := by
  induction fuel generalizing fuel' p with
  | zero => cases h1
  | succ fuel ih =>
    obtain ⟨fuel', rfl⟩ : ∃ m, fuel' = m + 1 := ⟨fuel' - 1, by omega⟩
    cases p with
    | none => exact h1
    | some i =>
      simp only [rbtreeSearch] at h1 ⊢
      split at h1
      · next h0 =>
        rw [if_pos h0]
        exact h1
      · next h0 =>
        rw [if_neg h0]
        split at h1
        · next hgt =>
          rw [if_pos hgt]
          exact ih h1 (by omega)
        · next hgt =>
          rw [if_neg hgt]
          exact ih h1 (by omega)

theorem descend_in_height (hr : Repr h q t) (hm : t.root = some tmp) (hf : t.height ≤ fuel) :
    ∃ h', insertDescend comp tar fuel h tmp = .ok h' := by
  induction fuel generalizing t q tmp with
  | zero =>
    obtain ⟨c, l, k', v', r, rfl⟩ := root_eq_some hm
    rw [Lib.Tree.height] at hf
    omega
  | succ fuel ih =>
    obtain ⟨c, l, k', v', r, rfl⟩ := root_eq_some hm
    obtain ⟨hid, hl, hr⟩ := hr
    rw [Lib.Tree.height] at hf
    simp only [insertDescend, hid]
    split
    · exact ⟨_, rfl⟩
    · next next hnext =>
      split at hnext
      · exact ih hr hnext (by omega)
      · exact ih hl hnext (by omega)

theorem descend_mono {h' : Heap K V} (h1 : insertDescend comp tar fuel h tmp = .ok h')
    (hle : fuel ≤ fuel') : insertDescend comp tar fuel' h tmp = .ok h' := by
  induction fuel generalizing fuel' tmp with
  | zero => cases h1
  | succ fuel ih =>
    obtain ⟨fuel', rfl⟩ : ∃ m, fuel' = m + 1 := ⟨fuel' - 1, by omega⟩
    simp only [insertDescend] at h1 ⊢
    split at h1
    · exact h1
    · exact ih h1 (by omega)

theorem max_in_height (hr : Repr h q t) (hm : t.root = some m) (hf : t.height ≤ fuel) :
    ∃ m', maxNode fuel h m = .ok m' := by
  induction fuel generalizing t q m with
  | zero =>
    obtain ⟨c, l, k', v', r, rfl⟩ := root_eq_some hm
    rw [Lib.Tree.height] at hf
    omega
  | succ fuel ih =>
    obtain ⟨c, l, k', v', r, rfl⟩ := root_eq_some hm
    obtain ⟨hid, hl, hr⟩ := hr
    rw [Lib.Tree.height] at hf
    simp only [maxNode, hid]
    split
    · exact ⟨_, rfl⟩
    · next next hnext => exact ih hr hnext (by omega)

theorem max_mono {m' : Nat} (h1 : maxNode fuel h m = .ok m') (hle : fuel ≤ fuel') :
    maxNode fuel' h m = .ok m' := by
  induction fuel generalizing fuel' m with
  | zero => cases h1
  | succ fuel ih =>
    obtain ⟨fuel', rfl⟩ : ∃ n, fuel' = n + 1 := ⟨fuel' - 1, by omega⟩
    simp only [maxNode] at h1 ⊢
    split at h1
    · exact h1
    · exact ih h1 (by omega)

theorem select_fuel {head : Option Nat}
    (hmax : ∀ m, (h tar).left = some m → ∃ m', maxNode fuel h m = .ok m') (hle : fuel ≤ fuel') :
    deleteSelect fuel h head tar = deleteSelect fuel' h head tar := by
  cases hl : (h tar).left with
  | none => simp only [deleteSelect, hl]
  | some m =>
    obtain ⟨m', hm⟩ := hmax m hl
    simp only [deleteSelect, hl, hm, max_mono hm hle]

/-! ### The operations -/

section Operations

variable {s : State K V} {T : Nat → Tree Nat K V} {fl : List Nat} {t : Nat} {tree : RbtreeT K}

/-- How often a loop goes round at most, in a tree of this many nodes. -/
def turns (n : Nat) : Nat := 2 * Nat.log 2 (n + 1) + 1

theorem height_lt_turns (hP : Pooled s T fl) (ht : s.trees[t]? = some tree) :
    (T t).height < turns (T t).ids.length :=
  Nat.lt_succ_of_le (hP.linked t tree ht).redBlack.height_le

theorem search_fuel (hP : Pooled s T fl) (ht : s.trees[t]? = some tree) (k : K)
    (hf : turns (T t).ids.length ≤ fuel) :
    ∃ res, ∀ fuel', fuel ≤ fuel' → rbtreeSearch tree.comp fuel' s.pool.heap tree.head k = .ok res := by
  have hL := hP.linked t tree ht
  obtain ⟨res, hres⟩ : ∃ res, rbtreeSearch tree.comp fuel s.pool.heap (T t).root k = .ok res :=
    search_in_height hL.shape.repr (Nat.lt_of_lt_of_le (height_lt_turns hP ht) hf)
  rw [hL.head] at hres
  exact ⟨res, fun fuel' hle => search_mono hres hle⟩

/-- The number of turns that an insertion may take makes no difference from a bound on. -/
theorem insert_fuel (hP : Pooled s T fl) (ht : s.trees[t]? = some tree) (k : K) (v : V)
    (hf : turns (T t).ids.length ≤ fuel) (hle : fuel ≤ fuel') :
    rbtreeInsert tree.comp fuel s.pool tree.head k v = rbtreeInsert tree.comp fuel' s.pool tree.head k v := by
  have hL := hP.linked t tree ht
  have hheight := height_lt_turns hP ht
  have hlen := hP.length_le t
  cases halloc : rbtreeNodeAlloc s.pool with
  | error e =>
    simp only [rbtreeInsert, halloc]
    rfl
  | ok r =>
    obtain ⟨tar, pool⟩ := r
    cases hhead : tree.head with
    | none =>
      simp only [rbtreeInsert, halloc]
    | some tmp =>
      have he : rbtreeNodeAlloc s.pool ≠ .error .abort := by
        rw [halloc]
        intro heq
        cases heq
      obtain ⟨tar', ls', n', fl', hok, ha⟩ := alloc_spec hP.queue he
      cases hok.symm.trans halloc
      have hnew := ha.not_mem (T := T t) (fun i hi => ⟨fun h1 => hP.free t hi h1, hP.mem_lt hi⟩)
      have hshape := fresh_shape hL.shape hnew k v
      have hroot := hL.head.trans hhead
      obtain ⟨h₁, f, p, hdesc, hplug, -, -, hclimb, -⟩ := descend_climb tree.comp hshape hL.redBlack
        hroot hnew (fresh_self _ _ k v) (Nat.lt_succ_of_le hlen)
      rw [hL.head, hhead] at hclimb
      -- the descent with less fuel ends at the same place
      obtain ⟨h₁', hdesc'⟩ : ∃ h', insertDescend tree.comp tar fuel _ tmp = .ok h' :=
        descend_in_height hshape.repr hroot (show (T t).height ≤ fuel by omega)
      have hsame : h₁' = h₁ := by
        have e1 := descend_mono hdesc' (Nat.le_max_left fuel (rbtreeNodePoolNum + 1))
        have e2 := descend_mono hdesc (Nat.le_max_right fuel (rbtreeNodePoolNum + 1))
        exact Except.ok.inj (e1.symm.trans e2)
      subst hsame
      have hway : (f :: p).length ≤ (T t).height := by
        have hle := Path.length_add_height_le (f :: p) (.nil : Tree Nat K V)
        rw [hplug] at hle
        omega
      obtain ⟨h₂, head', hfix, -⟩ := insert_fix_spec fuel hclimb (by omega)
      have hd' := descend_mono hdesc' hle
      have hfix' := insertFix_mono hfix hle
      simp only [fresh] at hdesc' hd'
      simp only [rbtreeInsert, halloc, ok_bind, hdesc', hfix, hd', hfix']

theorem delete_fuel (hP : Pooled s T fl) (ht : s.trees[t]? = some tree) (k : K)
    (hf : turns (T t).ids.length ≤ fuel) (hle : fuel ≤ fuel') :
    rbtreeDelete tree.comp fuel s.pool tree.head k = rbtreeDelete tree.comp fuel' s.pool tree.head k := by
  have hL := hP.linked t tree ht
  have hlen := hP.length_le t
  obtain ⟨res, hres⟩ := search_fuel hP ht k hf
  have hsearch := hres fuel (Nat.le_refl fuel)
  have hsearch' := hres fuel' hle
  cases res with
  | none =>
    simp only [rbtreeDelete, hsearch, hsearch', ok_bind]
    rfl
  | some i =>
    have hbig := hres (max fuel (rbtreeNodePoolNum + 1)) (Nat.le_max_left _ _)
    rw [← hL.head] at hbig
    obtain ⟨pa, c, l, k₀, v₀, r, hT, -, h₁, d, dc, y, dk, dv, hselect, hsel, -⟩ :=
      search_select hL.shape hL.redBlack hbig (by omega)
    -- the left subtree is lower than the tree
    have hmax : ∀ m, (s.pool.heap i).left = some m → ∃ m', maxNode fuel s.pool.heap m = .ok m' := by
      intro m hm
      have hshape := hL.shape
      rw [hT] at hshape
      obtain ⟨hid, hl, -⟩ := hshape.focus.repr
      rw [hid] at hm
      have hway := Path.length_add_height_le pa (.node i c l k₀ v₀ r)
      have hheight := height_lt_turns hP ht
      rw [← hT, Lib.Tree.height] at hway
      exact max_in_height hl hm (by omega)
    have hsel1 : deleteSelect fuel s.pool.heap tree.head i = _ :=
      select_fuel hmax (Nat.le_max_left fuel (rbtreeNodePoolNum + 1))
    have hsel2 : deleteSelect fuel s.pool.heap tree.head i = _ := select_fuel hmax hle
    rw [hL.head] at hselect
    rw [hselect] at hsel1
    rw [hsel1] at hsel2
    have hcol : (h₁ d).color = dc := (hsel.edit.shape.focus.at_root rfl).2
    have hrounds : rounds (decide (dc = .black)) y ≤ fuel := by
      have hway := Path.length_add_height_le y (.node d dc .nil dk dv .nil)
      have hheight := hsel.redBlack.height_le
      have hcount := hsel.edit.length hL.shape.nodup
      have hle := rounds_le (decide (dc = .black)) y
      rw [Lib.Tree.height] at hway
      rw [hcount] at hheight
      rw [turns] at hf
      omega
    obtain ⟨h₂, y', hfix, -⟩ := delete_fix_spec fuel hsel.sink hrounds
    rw [← hcol] at hfix
    have hfix' := deleteFix_mono hfix hle
    simp only [rbtreeDelete, hsearch, hsearch', ok_bind, deref_some, hsel1, ← hsel2, hfix, hfix']

/-- Two bounds that are both large enough. -/
theorem insert_same (hP : Pooled s T fl) (ht : s.trees[t]? = some tree) (k : K) (v : V)
    (hf : turns (T t).ids.length ≤ fuel) (hf' : turns (T t).ids.length ≤ fuel') :
    s.step fuel (.insert t k v) = s.step fuel' (.insert t k v) := by
  simp only [State.step, State.onTree, ht]
  rcases Nat.le_total fuel fuel' with hle | hle
  · rw [insert_fuel hP ht k v hf hle]
  · rw [insert_fuel hP ht k v hf' hle]

theorem delete_same (hP : Pooled s T fl) (ht : s.trees[t]? = some tree) (k : K)
    (hf : turns (T t).ids.length ≤ fuel) (hf' : turns (T t).ids.length ≤ fuel') :
    s.step fuel (.delete t k) = s.step fuel' (.delete t k) := by
  simp only [State.step, State.onTree, ht]
  rcases Nat.le_total fuel fuel' with hle | hle
  · rw [delete_fuel hP ht k hf hle]
  · rw [delete_fuel hP ht k hf' hle]

/-- A deletion ends: the key is there, or the null pointer is read. -/
theorem delete_ne_loop (hP : Pooled s T fl) (ht : s.trees[t]? = some tree) (k : K)
    (hf : rbtreeNodePoolNum + 2 ≤ fuel) : s.step fuel (.delete t k) ≠ .error .loop := by
  obtain ⟨res, hsearch, -⟩ := search_ends hf hP ht k
  cases res with
  | none =>
    rw [delete_null ht hsearch]
    intro h
    cases h
  | some i =>
    obtain ⟨p, T', fl', hok, -⟩ := hP.delete ht hsearch hf
    rw [hok]
    intro h
    cases h

theorem insert_ne_loop (hP : Pooled s T fl) (ht : s.trees[t]? = some tree) (k : K) (v : V)
    (hf : rbtreeNodePoolNum + 2 ≤ fuel) : s.step fuel (.insert t k v) ≠ .error .loop := by
  by_cases he : rbtreeNodeAlloc s.pool = .error .abort
  · have habort : s.step fuel (.insert t k v) = .error .abort := by
      simp only [State.step, State.onTree, ht, rbtreeInsert, he]
      rfl
    rw [habort]
    intro h
    cases h
  · obtain ⟨p, T', fl', hok, -⟩ := hP.insert (k := k) (v := v) ht he hf
    rw [hok]
    intro h
    cases h

theorem length_contents (hP : Pooled s T fl) (ht : s.trees[t]? = some tree) :
    (contents s tree).length = (T t).ids.length := by
  have hL := hP.linked t tree ht
  rw [contents, ← hL.head, inorder_repr hL.shape.repr (hP.length_le t), length_entries]

end Operations

/-- In every state that insertions and deletions reach, an operation on a tree of `n` nodes
needs no more than `2 * log2 (n + 1) + 1` turns of any of its loops: with that bound on the
turns, or any larger one, it has one and the same result, and never runs into the bound. -/
theorem operations_logarithmic (hf : rbtreeNodePoolNum + 2 ≤ fuel) (h : Heap K V) (q : Queue)
    (ops : List (Op K V)) (s : State K V) (hrun : run (step fuel) (State.init h q) ops = some s)
    (t : Nat) (tree : RbtreeT K) (ht : s.trees[t]? = some tree) (k : K) (v : V) :
    (∃ res, ∀ f, turns (contents s tree).length ≤ f →
      rbtreeSearch tree.comp f s.pool.heap tree.head k = .ok res) ∧
    (∃ r, r ≠ .error .loop ∧ ∀ f, turns (contents s tree).length ≤ f → s.step f (.insert t k v) = r) ∧
    ∃ r, r ≠ .error .loop ∧ ∀ f, turns (contents s tree).length ≤ f → s.step f (.delete t k) = r := by
  obtain ⟨T, fl, hP, -⟩ := run_kept hf hrun
  have hbig := Nat.le_max_right (turns (T t).ids.length) (rbtreeNodePoolNum + 2)
  have hturns := Nat.le_max_left (turns (T t).ids.length) (rbtreeNodePoolNum + 2)
  rw [length_contents hP ht]
  refine ⟨search_fuel hP ht k (Nat.le_refl _), ⟨_, insert_ne_loop hP ht k v hbig, ?_⟩,
    ⟨_, delete_ne_loop hP ht k hbig, ?_⟩⟩
  · intro f hle
    exact insert_same hP ht k v hle hturns
  · intro f hle
    exact delete_same hP ht k hle hturns

/-- Five keys make a tree in which five turns are enough. -/
def fiveKeys : List (Op Nat Nat) :=
  .alloc natOrder :: [5, 3, 8, 1, 4].map fun k => .insert 0 k (10 * k)

theorem operations_logarithmic_five :
    ∃ s tree, run (step 1026) (State.init blankHeap blankQueue) fiveKeys = some s ∧
      s.trees[0]? = some tree ∧
      (∃ res, ∀ f, 5 ≤ f → rbtreeSearch tree.comp f s.pool.heap tree.head 4 = .ok res) ∧
      (∃ r, r ≠ .error .loop ∧ ∀ f, 5 ≤ f → s.step f (.insert 0 4 44) = r) ∧
      ∃ r, r ≠ .error .loop ∧ ∀ f, 5 ≤ f → s.step f (.delete 0 4) = r := by
  let s := (run (step 1026) (State.init blankHeap blankQueue) fiveKeys).get (by decide +kernel)
  have hrun : run (step 1026) (State.init blankHeap blankQueue) fiveKeys = some s :=
    (Option.some_get _).symm
  let tree := s.trees.head (by decide +kernel)
  have ht : s.trees[0]? = some tree := List.head?_eq_some_head _ ▸ List.head?_eq_getElem?.symm
  have hlen : turns (contents s tree).length = 5 := by
    have hn : (contents s tree).length = 5 := by decide +kernel
    rw [hn]
    decide
  have hops := operations_logarithmic (by decide) blankHeap blankQueue fiveKeys s hrun 0 tree ht 4 44
  rw [hlen] at hops
  exact ⟨s, tree, hrun, ht, hops⟩

end Dmos.Proofs.TreeCost
