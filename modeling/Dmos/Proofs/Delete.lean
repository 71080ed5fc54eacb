import Dmos.Proofs.Descent
import Dmos.Proofs.DeleteFix
import Dmos.Proofs.QueueChain

namespace Dmos.Proofs.Delete

open Dmos.Lib Dmos.Rbtree Dmos.Proofs.TreeShape Dmos.Proofs.Rotations Dmos.Proofs.Descent
open Dmos.Proofs.DeleteFix Dmos.Proofs.QueueChain Tree

variable {K V : Type} {h : Heap K V}

theorem max_node_spec {q : Option Nat} {t : Tree Nat K V} {fuel m : Nat} (hr : Repr h q t)
    (hm : t.root = some m) (hf : t.ids.length ≤ fuel) :
    ∃ m' z c l k v, maxNode fuel h m = .ok m' ∧ t = Path.plug z (.node m' c l k v .nil) ∧
      Path.after z = [] := by
  induction t generalizing q fuel m with
  | nil => cases hm
  | node id c l k v r _ ih =>
    obtain rfl : id = m := Option.some.inj hm
    obtain ⟨hid, -, hrr⟩ := hr
    obtain ⟨fuel, rfl⟩ : ∃ n, fuel = n + 1 := ⟨fuel - 1, by simp [ids] at hf; omega⟩
    rw [maxNode, hid]
    cases hroot : r.root with
    | none =>
      obtain rfl := root_eq_none hroot
      exact ⟨id, [], c, l, k, v, rfl, rfl, rfl⟩
    | some m =>
      simp only [ids, List.length_cons, List.length_append] at hf
      have hle : r.ids.length ≤ fuel := by omega
      obtain ⟨m', z, c', l', k', v', hok, rfl, hz⟩ := ih hrr hroot hle
      refine ⟨m', z ++ [⟨.right, id, c, k, v, l⟩], c', l', k', v', hok, ?_, ?_⟩
      · rw [Path.plug_append]
        rfl
      · rw [Path.after_append, hz]
        rfl

/-- The entries of the left subtree after the deletion of the node above: the last
one now has that node's value. -/
def carry (v : V) : List (K × V) → List (K × V)
  | [] => []
  | [e] => [(e.1, v)]
  | e :: e' :: es => e :: carry v (e' :: es)

theorem carry_concat (v : V) (es : List (K × V)) (e : K × V) :
    carry v (es ++ [e]) = es ++ [(e.1, v)] := by
  induction es with
  | nil => rfl
  | cons a es ih =>
    cases es with
    | nil => rfl
    | cons b es => exact congrArg (a :: ·) ih

theorem carry_keys (v : V) (es : List (K × V)) :
    (carry v es).map Prod.fst = es.map Prod.fst := by
  rcases List.eq_nil_or_concat' es with rfl | ⟨es, e, rfl⟩
  · rfl
  · rw [carry_concat]
    simp

/-- What `deleteSelect` makes of the tree: the node `d`, a leaf by now, is the one
to free. -/
structure Selected (h h' : Heap K V) (T : Tree Nat K V) (d : Nat) (dc : Color) (y : Path Nat K V)
    (dk : K) (dv : V) : Prop where
  edit : Edit h h' none T (y.plug (.node d dc .nil dk dv .nil))
  root : (y.plug (.node d dc .nil dk dv .nil)).root = T.root
  redBlack : (y.plug (.node d dc .nil dk dv .nil)).RedBlack

/-- `deleteSelect` succeeds, and `es` is left once the node it selects is gone. -/
def Selects (fuel : Nat) (h : Heap K V) (T : Tree Nat K V) (tar : Nat) (es : List (K × V)) : Prop :=
  ∃ h' d dc y dk dv, deleteSelect fuel h T.root tar = .ok (h', (Path.plug y .nil).root, d) ∧
    Selected h h' T d dc y dk dv ∧ (Path.plug y .nil).entries = es

variable {p : Path Nat K V} {tar fuel : Nat} {c : Color} {l r : Tree Nat K V} {k : K} {v : V}

theorem root_after_leaf {d : Nat} {dc : Color} {dk : K} {dv : V}
    (hs : Shape h none (p.plug (.node d dc .nil dk dv .nil))) :
    (if (p.plug (.node d dc .nil dk dv .nil)).root = some d then none
      else (p.plug (.node d dc .nil dk dv .nil)).root) = (p.plug .nil).root := by
  cases p with
  | nil => simp [Path.plug, root]
  | cons f p =>
    have hr := Path.root_plug (p := f :: p) (by simp) .nil (.node d dc .nil dk dv .nil)
    rw [hr, if_neg]
    intro hd
    obtain ⟨-, -, hdisj⟩ := nodup_plug.mp hs.nodup
    have hm := mem_ids_plug.mp (root_mem hd)
    exact hdisj (by simp [ids]) (hm.resolve_left (by simp [ids]))

/-- The node has no left child: its right child, if any, takes its place. -/
theorem select_right (hs : Shape h none (p.plug (.node tar c .nil k v r)))
    (hrb : (p.plug (.node tar c .nil k v r)).RedBlack) :
    Selects fuel h (p.plug (.node tar c .nil k v r)) tar (p.before ++ r.entries ++ p.after) := by
  obtain ⟨hid, -, hr⟩ := hs.focus.repr
  obtain ⟨n, hp, hb, hfit⟩ := hrb.focus
  rcases hb.beside_nil (s := .left) with rfl | ⟨d, dk, dv, rfl⟩
  · refine ⟨h, tar, c, p, k, v, ?_, ⟨.refl hs, rfl, hrb⟩, ?_⟩
    · simp only [deleteSelect, hid, root_nil, root_after_leaf hs]
    · simp [Path.entries_plug, entries]
  · have hE := (entry_edit (s := .right) dk dv hs.focus).plug hs (by simp)
    have hroot : (p.plug (mk .right tar c (.node d .red .nil dk dv .nil) dk dv .nil)).root =
        (p.plug (.node tar c .nil k v (.node d .red .nil dk dv .nil))).root :=
      Path.root_plug_congr p rfl
    refine ⟨_, d, .red, ⟨.right, tar, c, dk, dv, .nil⟩ :: p, dk, dv, ?_,
      ⟨hE, hroot, hrb.entry (s := .right) dk dv⟩, ?_⟩
    · have hhead := Path.root_plug (p := ⟨.right, tar, c, dk, dv, .nil⟩ :: p) (by simp) .nil
        (.node d .red .nil dk dv .nil)
      simp only [deleteSelect, hid, root_nil, root_node, hr.1, ← hroot]
      rw [← hhead]
      rfl
    · simp [Path.entries_plug, Path.before, Path.after, entries]

/-- The node has a left child: the last node of the left subtree gives its key
away, and its own left child, if any, takes its place. -/
theorem select_left {m : Nat} (hs : Shape h none (p.plug (.node tar c l k v r)))
    (hrb : (p.plug (.node tar c l k v r)).RedBlack) (hl : l.root = some m)
    (hf : l.ids.length ≤ fuel) :
    Selects fuel h (p.plug (.node tar c l k v r)) tar
      (p.before ++ (carry v l.entries ++ r.entries) ++ p.after) := by
  obtain ⟨hid, hlr, -⟩ := hs.focus.repr
  obtain ⟨m', z, mc, ml, mk', mv, hmax, rfl, hz⟩ := max_node_spec hlr hl hf
  have hkey : (h m').key = mk' := by
    have hM : Shape h none (Path.plug (z ++ ⟨.left, tar, c, k, v, r⟩ :: p)
      (.node m' mc ml mk' mv .nil)) := by
      rw [Path.plug_append]
      exact hs
    rw [hM.focus.repr.1]
  have hle : (Path.plug z (.node m' mc ml mk' mv .nil)).entries =
      (Path.before z ++ ml.entries) ++ [(mk', mv)] := by simp [Path.entries_plug, entries, hz]
  rw [hle, carry_concat]
  have hE := (entry_edit (s := .left) mk' v hs.focus).plug hs (by simp)
  have hrb1 := hrb.entry (s := .left) mk' v
  have hroot : (p.plug (mk .left tar c (z.plug (.node m' mc ml mk' mv .nil)) mk' v r)).root =
      (p.plug (.node tar c (z.plug (.node m' mc ml mk' mv .nil)) k v r)).root :=
    Path.root_plug_congr p rfl
  have hplug : p.plug (mk .left tar c (z.plug (.node m' mc ml mk' mv .nil)) mk' v r) =
      Path.plug (z ++ ⟨.left, tar, c, mk', v, r⟩ :: p) (.node m' mc ml mk' mv .nil) := by
    simp only [Path.plug_append]
    rfl
  rw [hplug] at hE hrb1 hroot
  generalize hy : z ++ ⟨.left, tar, c, mk', v, r⟩ :: p = y at hE hrb1 hroot
  have hyne : y ≠ [] := by simp [← hy]
  obtain ⟨hm1, hml, -⟩ := hE.shape.focus.repr
  obtain ⟨n, -, hb, -⟩ := hrb1.focus
  rcases hb.beside_nil (s := .right) with rfl | ⟨d, dk, dv, rfl⟩
  · refine ⟨_, m', mc, y, mk', mv, ?_, ⟨hE, hroot, hrb1⟩, ?_⟩
    · rw [← Path.root_plug hyne .nil (.node m' mc .nil mk' mv .nil), hroot]
      simp [deleteSelect, hid, hl, hmax, hkey, hm1, pure, Except.pure]
    · simp [← hy, Path.entries_plug, Path.before_append, Path.after_append, hz, Path.before,
        Path.after, entries]
  · have hE2 := (entry_edit (s := .left) dk dv hE.shape.focus).plug hE.shape (by simp)
    have hroot2 : (y.plug (mk .left m' mc (.node d .red .nil dk dv .nil) dk dv .nil)).root = _ :=
      (Path.root_plug_congr y (by rfl)).trans hroot
    refine ⟨_, d, .red, ⟨.left, m', mc, dk, dv, .nil⟩ :: y, dk, dv, ?_,
      ⟨hE.trans hE2, hroot2, hrb1.entry (s := .left) dk dv⟩, ?_⟩
    · have hhead := Path.root_plug (p := ⟨.left, m', mc, dk, dv, .nil⟩ :: y) (by simp) .nil
        (.node d .red .nil dk dv .nil)
      rw [← hhead, ← hroot2]
      simp [deleteSelect, hid, hl, hmax, hkey, hm1, hml.1, pure, Except.pure]
      rfl
    · simp [← hy, Path.entries_plug, Path.before_append, Path.after_append, hz, Path.before,
        Path.after, entries]

theorem select_spec (hs : Shape h none (p.plug (.node tar c l k v r)))
    (hrb : (p.plug (.node tar c l k v r)).RedBlack) (hf : l.ids.length ≤ fuel) :
    Selects fuel h (p.plug (.node tar c l k v r)) tar
      (p.before ++ (carry v l.entries ++ r.entries) ++ p.after) := by
  cases hl : l.root with
  | none =>
    obtain rfl := root_eq_none hl
    exact select_right hs hrb
  | some m => exact select_left hs hrb hl hf

/-- The node that the search finds is the one that the substitution starts from. -/
theorem search_select {comp : K → K → Int} {T : Tree Nat K V} {i : Nat} {k : K}
    (hs : Shape h none T) (hrb : T.RedBlack)
    (hsearch : rbtreeSearch comp fuel h T.root k = .ok (some i)) (hf : T.ids.length < fuel) :
    ∃ pa c l k₀ v₀ r, T = Path.plug pa (.node i c l k₀ v₀ r) ∧ comp k₀ k = 0 ∧
      Selects fuel h T i (Path.before pa ++ (carry v₀ l.entries ++ r.entries) ++ Path.after pa) := by
  obtain ⟨res, hres, hfound⟩ :
      ∃ res, rbtreeSearch comp fuel h T.root k = .ok res ∧ Found comp k T res :=
    search_spec (p := []) hs nofun hf
  obtain rfl : some i = res := Except.ok.inj (hsearch.symm.trans hres)
  obtain ⟨pa, c, l, r, k₀, v₀, rfl, hk₀⟩ := hfound
  rw [length_ids_plug] at hf
  simp only [ids, List.length_cons, List.length_append] at hf
  exact ⟨pa, c, l, k₀, v₀, r, rfl, hk₀, select_spec hs hrb (by omega)⟩

/-- The fix-up loop is entered in a proper state. -/
theorem Selected.sink {h' : Heap K V} {T : Tree Nat K V} {d : Nat} {dc : Color} {y : Path Nat K V}
    {dk : K} {dv : V} (hsel : Selected h h' T d dc y dk dv) :
    Sink h' (decide (dc = .black)) d (.node d dc .nil dk dv .nil) [] y := by
  obtain ⟨n, hp, hb, hfit⟩ := hsel.redBlack.focus
  refine ⟨hsel.edit.shape, fun hc => ?_, fun hc => ?_⟩
  · obtain rfl : dc = .black := by simpa using hc
    cases hb with
    | black hl _ =>
      cases hl
      exact ⟨rfl, 0, .nil, rfl, hp⟩
  · obtain rfl : dc = .red := by
      cases dc with
      | red => rfl
      | black => simp at hc
    cases hb with
    | red hl _ =>
      cases hl
      exact hp.plug .nil (.inl rfl)

/-- The freed node is unhooked from its parent and put on the free queue. -/
theorem free_spec {ls : Queue} {n d : Nat} {dc : Color} {dk : K} {dv : V} {y : Path Nat K V}
    {fl : List Nat} (hs : Shape h none (y.plug (.node d dc .nil dk dv .nil))) (hq : Holds ls fl)
    (hd : d ∉ fl) :
    ∃ h' ls', rbtreeNodeFree ⟨h, ls, n⟩ d = .ok ⟨h', ls', n⟩ ∧ Holds ls' (fl ++ [d]) ∧
      Shape h' none (y.plug .nil) ∧ ∀ i, i ∉ (y.plug .nil).ids → h' i = h i := by
  obtain ⟨ls', hok, hq', -⟩ := enque_holds hq hd
  have hpar := (hs.focus.at_root rfl).1
  cases y with
  | nil =>
    refine ⟨h, ls', ?_, hq', ⟨trivial, .nil⟩, fun _ _ => rfl⟩
    simp [rbtreeNodeFree, hpar, Path.top, hok, pure, Except.pure]
  | cons f y =>
    obtain ⟨-, hp⟩ := repr_plug.mp hs.repr
    obtain ⟨-, hn, hdisj⟩ := nodup_plug.mp hs.nodup
    have hdp : d ∉ Path.ids (f :: y) := fun hm => hdisj (by simp [ids]) hm
    have hsd : f.sib.root ≠ some d := by
      intro hr
      exact hdp (by simp [Path.ids, root_mem hr])
    have hunhook : (if (h f.id).left = some d then h.setChild f.id .left none
        else h.setChild f.id .right none) = h.setChild f.id f.side none := by
      rw [hp.1]
      cases f.side with
      | left => simp
      | right => simp [hsd]
    refine ⟨h.setChild f.id f.side none, ls', ?_, hq', ⟨repr_plug.mpr ⟨trivial, hp.setChild hn none⟩,
      nodup_plug.mpr ⟨.nil, hn, by simp [ids]⟩⟩, ?_⟩
    · simp [rbtreeNodeFree, hpar, Path.top, hunhook, hok, pure, Except.pure]
    · intro i hi
      have hif : i ≠ f.id := by
        rintro rfl
        exact hi (mem_ids_plug.mpr (.inr (by simp [Path.ids])))
      simp [Heap.setChild, mod_apply, hif]

/-- `rbtree_delete` of a key that the search finds. `pa` leads to the node found, and
`d` is the node that is freed. -/
theorem delete_spec {comp : K → K → Int} {T : Tree Nat K V} {ls : Queue} {n fuel i : Nat}
    {fl : List Nat} {k : K} (hs : Shape h none T) (hrb : T.RedBlack)
    (hsearch : rbtreeSearch comp fuel h T.root k = .ok (some i)) (hq : Holds ls fl)
    (hd : ∀ i ∈ T.ids, i ∉ fl) (hf : T.ids.length + 2 ≤ fuel) :
    ∃ pa c l k₀ v₀ r, T = Path.plug pa (.node i c l k₀ v₀ r) ∧ comp k₀ k = 0 ∧
    ∃ h' ls' d T', rbtreeDelete comp fuel ⟨h, ls, n⟩ T.root k = .ok (⟨h', ls', n⟩, T'.root) ∧
      Shape h' none T' ∧ T'.RedBlack ∧
      T'.entries = Path.before pa ++ (carry v₀ l.entries ++ r.entries) ++ Path.after pa ∧
      Holds ls' (fl ++ [d]) ∧ d ∈ T.ids ∧ (∀ i, i ∈ T'.ids ↔ i ∈ T.ids ∧ i ≠ d) ∧
      ∀ i, i ∉ T.ids → h' i = h i := by
  obtain ⟨pa, c, l, k₀, v₀, r, hT, hk₀, h1, d, dc, y, dk, dv, hselect, hsel, hent⟩ :=
    search_select hs hrb hsearch (by omega)
  refine ⟨pa, c, l, k₀, v₀, r, hT, hk₀, ?_⟩
  have hy : rounds (decide (dc = .black)) y ≤ fuel := by
    have h1 := hsel.edit.length hs.nodup
    have h2 := Path.length_le_ids y
    have h3 := rounds_le (decide (dc = .black)) y
    rw [length_ids_plug] at h1
    simp only [ids, List.length_cons] at h1
    omega
  obtain ⟨h2, y', hfix, hround, hrb'⟩ := delete_fix_spec fuel hsel.sink hy
  have hdT : d ∈ T.ids :=
    (hsel.edit.mem d).mp (mem_ids_plug.mpr (.inl (by simp [ids])))
  obtain ⟨h', ls', hfree, hq', hs', hfr⟩ := free_spec hround.edit.shape hq (hd d hdT) (n := n)
  have hmem : ∀ j, j ∈ (Path.plug y' (.node d dc .nil dk dv .nil)).ids ↔ j ∈ T.ids :=
    fun j => (hround.edit.mem j).trans (hsel.edit.mem j)
  refine ⟨h', ls', d, Path.plug y' .nil, ?_, hs', hrb', hround.entries.trans hent, hq', hdT, ?_, ?_⟩
  · have hcol := (hsel.edit.shape.focus.at_root rfl).2
    have hroot : (Path.plug y .nil).root = (Path.plug y' .nil).root := by
      rw [← root_after_leaf hsel.edit.shape, ← root_after_leaf hround.edit.shape, hround.root]
      rfl
    simp only [rbtreeDelete, hsearch, hselect, ok_bind, deref_some, hcol, color, hfix, hfree, hroot]
    rfl
  · intro j
    obtain ⟨-, -, hdisj⟩ := nodup_plug.mp hround.edit.shape.nodup
    have hdy : d ∉ Path.ids y' := fun hm => hdisj (by simp [ids]) hm
    rw [← hmem, mem_ids_plug, mem_ids_plug]
    simp only [ids, List.not_mem_nil, false_or, List.append_nil, List.mem_singleton]
    constructor
    · intro hj
      exact ⟨.inr hj, fun he => hdy (he ▸ hj)⟩
    · rintro ⟨hj | hj, hne⟩
      · exact absurd hj hne
      · exact hj
  · intro j hj
    have hj' : j ∉ (Path.plug y' .nil).ids := fun hm =>
      hj ((hmem j).mp (mem_ids_plug.mpr (.inr ((mem_ids_plug.mp hm).resolve_left (by simp [ids])))))
    rw [hfr j hj', hround.edit.frame j (fun hm => hj ((hsel.edit.mem j).mp hm)),
      hsel.edit.frame j hj]

end Dmos.Proofs.Delete
