import Dmos.Proofs.TreeShape
import Dmos.Lib.SearchTree

namespace Dmos.Proofs.Descent

open Dmos.Lib Dmos.Rbtree Dmos.Proofs.TreeShape Tree

variable {K V : Type} {comp : K → K → Int} {h : Heap K V} {k : K}

/-- What `rbtree_search` says about the tree `T`. -/
def Found (comp : K → K → Int) (k : K) (T : Tree Nat K V) : Option Nat → Prop
  | none => ∃ p : Path Nat K V, p.plug .nil = T ∧ p.Misses comp k
  | some i => ∃ (p : Path Nat K V) (c : Color) (l r : Tree Nat K V) (k' : K) (v : V),
      p.plug (.node i c l k' v r) = T ∧ comp k' k = 0

theorem search_spec {t : Tree Nat K V} {p : Path Nat K V} {fuel : Nat}
    (hs : Shape h none (p.plug t)) (hm : p.Misses comp k) (hf : t.ids.length < fuel) :
    ∃ res, rbtreeSearch comp fuel h t.root k = .ok res ∧ Found comp k (p.plug t) res := by
  induction t generalizing p fuel with
  | nil =>
    obtain ⟨fuel, rfl⟩ : ∃ m, fuel = m + 1 := ⟨fuel - 1, by omega⟩
    exact ⟨none, rfl, p, rfl, hm⟩
  | node id c l k' v r ihl ihr =>
    obtain ⟨fuel, rfl⟩ : ∃ m, fuel = m + 1 := ⟨fuel - 1, by omega⟩
    have hid := hs.focus.repr.1
    simp only [ids, List.length_cons, List.length_append] at hf
    simp only [root, rbtreeSearch, hid]
    split
    · next h0 => exact ⟨some id, rfl, p, c, l, r, k', v, rfl, h0⟩
    · next h0 =>
      split
      · next hgt =>
        refine ihr (p := ⟨.right, id, c, k', v, l⟩ :: p) hs ?_ (by omega)
        exact List.forall_mem_cons.mpr ⟨hgt, hm⟩
      · next hle =>
        refine ihl (p := ⟨.left, id, c, k', v, r⟩ :: p) hs ?_ (by omega)
        exact List.forall_mem_cons.mpr ⟨by simp only; omega, hm⟩

/-- The search finds an equivalent key if there is one, and only then. -/
theorem Found.some_iff (hc : TotalPreorder comp) {T : Tree Nat K V} {res : Option Nat}
    (hs : Sorted comp T.entries) (hf : Found comp k T res) :
    res.isSome ↔ ∃ e ∈ T.entries, comp e.1 k = 0 := by
  cases res with
  | none =>
    obtain ⟨p, rfl, hm⟩ := hf
    constructor
    · intro hn
      cases hn
    · rintro ⟨e, he, h0⟩
      refine absurd h0 (hm.ne hc hs ?_)
      simpa [Path.entries_plug, entries] using he
  | some i =>
    obtain ⟨p, c, l, r, k', v, rfl, h0⟩ := hf
    simp only [Option.isSome_some, true_iff]
    exact ⟨(k', v), by simp [Path.entries_plug, entries], h0⟩

/-- The new node is hung at the hole. -/
theorem attach_shape {f : Crumb Nat K V} {p : Path Nat K V} {tar : Nat} {v : V} {q : Option Nat}
    (hs : Shape h none (Path.plug (f :: p) .nil)) (ht : tar ∉ (Path.plug (f :: p) .nil).ids)
    (hr : h tar = ⟨k, v, q, none, none, .red⟩) :
    Shape ((h.setPar tar (some f.id)).setChild f.id f.side (some tar)) none
      (Path.plug (f :: p) (.node tar .red .nil k v .nil)) := by
  obtain ⟨-, hp⟩ := repr_plug.mp hs.repr
  obtain ⟨-, hn, -⟩ := nodup_plug.mp hs.nodup
  have htp : tar ∉ Path.ids (f :: p) := fun hm => ht (mem_ids_plug.mpr (.inr hm))
  have htf : tar ≠ f.id := by
    rintro rfl
    simp [Path.ids] at htp
  have hp' : ReprPath (h.setPar tar (some f.id)) none (f :: p) := by
    refine hp.frame (fun i hi => ?_)
    simp [Heap.setPar, mod_apply, ne_of_mem_of_not_mem hi htp]
  refine ⟨repr_plug.mpr ⟨⟨?_, trivial, trivial⟩, hp'.setChild hn _⟩,
    nodup_plug.mpr ⟨by simp [ids], hn, by simpa [ids] using htp⟩⟩
  simp [Heap.setPar, Heap.setChild, mod_apply, htf, hr, RbNode.setPar, Path.top]

theorem insert_descend_spec {t : Tree Nat K V} {p : Path Nat K V} {fuel tar tmp : Nat} {v : V}
    {q : Option Nat} (hs : Shape h none (p.plug t)) (hr : t.root = some tmp)
    (ht : tar ∉ (p.plug t).ids) (hk : h tar = ⟨k, v, q, none, none, .red⟩)
    (hm : p.Aims comp k) (hf : t.ids.length ≤ fuel) :
    ∃ h' f p', insertDescend comp tar fuel h tmp = .ok h' ∧
      Path.plug (f :: p') .nil = p.plug t ∧ Path.Aims comp k (f :: p') ∧
      Shape h' none (Path.plug (f :: p') (.node tar .red .nil k v .nil)) ∧
      ∀ i, i ≠ tar → i ∉ (p.plug t).ids → h' i = h i := by
  induction fuel generalizing t p tmp with
  | zero =>
    have := List.length_pos_of_mem (root_mem hr)
    omega
  | succ fuel ih =>
    obtain ⟨c, l, k', v', r, rfl⟩ := root_eq_some hr
    have hkey : (h tmp).key = k' := by rw [hs.focus.repr.1]
    rw [insertDescend, hkey, hk]
    generalize hside : (if comp k' k > 0 then Side.right else Side.left) = s
    obtain ⟨a, b, hab⟩ := node_eq_mk s tmp c l k' v' r
    rw [hab] at hs ht hf ⊢
    have hm' : Path.Aims comp k (⟨s, tmp, c, k', v', b⟩ :: p) := by
      refine List.forall_mem_cons.mpr ⟨?_, hm⟩
      subst hside
      by_cases hgt : comp k' k > 0
      · simp [hgt]
      · simp [hgt]
        omega
    have hid := (repr_mk.mp hs.focus.repr).1
    simp only [hid, cell_near]
    cases ha : a.root with
    | none =>
      obtain rfl := root_eq_none ha
      have hat := attach_shape (f := ⟨s, tmp, c, k', v', b⟩) hs ht hk
      refine ⟨_, ⟨s, tmp, c, k', v', b⟩, p, rfl, rfl, hm', hat, ?_⟩
      intro i hi hni
      have hit : i ≠ tmp := by
        rintro rfl
        simp [mem_ids_plug] at hni
      simp [Heap.setPar, Heap.setChild, mod_apply, hi, hit]
    | some next =>
      have hlt : a.ids.length < (mk s tmp c a k' v' b).ids.length := by
        cases s <;> simp only [mk, ids, List.length_cons, List.length_append] <;> omega
      exact ih (p := ⟨s, tmp, c, k', v', b⟩ :: p) hs ha ht hm' (by omega)

end Dmos.Proofs.Descent
