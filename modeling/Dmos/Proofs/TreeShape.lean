import Dmos.Rbtree

namespace Dmos.Proofs.TreeShape

open Dmos.Lib Dmos.Rbtree

variable {K V : Type}

/-- A node record whose children are named by their side, as in `Tree.mk`. -/
def cell (s : Side) (k : K) (v : V) (q near far : Option Nat) (c : Color) : RbNode K V :=
  match s with
  | .left => ⟨k, v, q, near, far, c⟩
  | .right => ⟨k, v, q, far, near, c⟩

section Cell

variable (s : Side) (k k' : K) (v v' : V) (q near far p : Option Nat) (c c' : Color)

@[simp] theorem cell_key : (cell s k v q near far c).key = k := by cases s <;> rfl
@[simp] theorem cell_val : (cell s k v q near far c).val = v := by cases s <;> rfl
@[simp] theorem cell_par : (cell s k v q near far c).par = q := by cases s <;> rfl
@[simp] theorem cell_color : (cell s k v q near far c).color = c := by cases s <;> rfl
@[simp] theorem cell_near : (cell s k v q near far c).child s = near := by cases s <;> rfl
@[simp] theorem cell_far : (cell s k v q near far c).child s.other = far := by cases s <;> rfl

@[simp] theorem cell_setEntry :
    (cell s k v q near far c).setEntry k' v' = cell s k' v' q near far c := by cases s <;> rfl

@[simp] theorem cell_setPar :
    (cell s k v q near far c).setPar p = cell s k v p near far c := by cases s <;> rfl

@[simp] theorem cell_setColor :
    (cell s k v q near far c).setColor c' = cell s k v q near far c' := by cases s <;> rfl

@[simp] theorem cell_setNear :
    (cell s k v q near far c).setChild s p = cell s k v q p far c := by cases s <;> rfl

@[simp] theorem cell_setFar :
    (cell s k v q near far c).setChild s.other p = cell s k v q near p c := by cases s <;> rfl

@[simp] theorem cell_left_left : (cell .left k v q near far c).left = near := rfl
@[simp] theorem cell_left_right : (cell .left k v q near far c).right = far := rfl
@[simp] theorem cell_right_left : (cell .right k v q near far c).left = far := rfl
@[simp] theorem cell_right_right : (cell .right k v q near far c).right = near := rfl

@[simp] theorem cell_left_setRight :
    (cell .left k v q near far c).setChild .right p = cell .left k v q near p c := rfl

@[simp] theorem cell_right_setLeft :
    (cell .right k v q near far c).setChild .left p = cell .right k v q near p c := rfl

/-- The test by which the source finds out on which side a child hangs. -/
theorem cell_side {i : Nat} (hf : far ≠ some i) :
    (if (cell s k v q (some i) far c).left = some i then Side.left else .right) = s := by
  cases s
  · simp
  · simp [hf]

end Cell

theorem mod_apply (h : Heap K V) (i j : Nat) (f : RbNode K V → RbNode K V) :
    h.mod i f j = if j = i then f (h j) else h j := rfl

theorem linkPar_apply (h : Heap K V) (p q : Option Nat) (j : Nat) :
    h.linkPar p q j = if p = some j then (h j).setPar q else h j := rfl

/-- The heap holds the nodes of the tree, with `q` above its root. -/
def Repr (h : Heap K V) (q : Option Nat) : Tree Nat K V → Prop
  | .nil => True
  | .node id c l k v r =>
    h id = ⟨k, v, q, l.root, r.root, c⟩ ∧ Repr h (some id) l ∧ Repr h (some id) r

theorem repr_mk {h : Heap K V} {q : Option Nat} {s : Side} {id : Nat} {c : Color}
    {a b : Tree Nat K V} {k : K} {v : V} : Repr h q (.mk s id c a k v b) ↔
    h id = cell s k v q a.root b.root c ∧ Repr h (some id) a ∧ Repr h (some id) b := by
  cases s
  · exact Iff.rfl
  · exact and_congr_right (fun _ => and_comm)

theorem Repr.frame {h h' : Heap K V} {q : Option Nat} {t : Tree Nat K V} (hr : Repr h q t)
    (hf : ∀ i ∈ t.ids, h' i = h i) : Repr h' q t := by
  induction t generalizing q with
  | nil => trivial
  | node id c l k v r ihl ihr =>
    obtain ⟨hid, hl, hr⟩ := hr
    refine ⟨?_, ihl hl ?_, ihr hr ?_⟩
    · rw [hf id (by simp [Tree.ids]), hid]
    · exact fun i hi => hf i (by simp [Tree.ids, hi])
    · exact fun i hi => hf i (by simp [Tree.ids, hi])

/-- A subtree is hung elsewhere: only its root's parent link changes. -/
theorem Repr.relink {h h' : Heap K V} {q p : Option Nat} {t : Tree Nat K V} (hr : Repr h q t)
    (hn : t.ids.Nodup) (hf : ∀ i ∈ t.ids, h' i = if t.root = some i then (h i).setPar p else h i) :
    Repr h' p t := by
  cases t with
  | nil => trivial
  | node id c l k v r =>
    obtain ⟨hid, hl, hr⟩ := hr
    obtain ⟨hnl, hnr, -⟩ := (Tree.nodup_mk .left id c l r k v).mp hn
    refine ⟨?_, hl.frame ?_, hr.frame ?_⟩
    · rw [hf id (by simp [Tree.ids]), hid]
      simp [Tree.root, RbNode.setPar]
    · intro i hi
      rw [hf i (by simp [Tree.ids, hi]), if_neg]
      rintro ⟨⟩
      exact hnl hi
    · intro i hi
      rw [hf i (by simp [Tree.ids, hi]), if_neg]
      rintro ⟨⟩
      exact hnr hi

/-- The heap holds the nodes of a tree with a hole, with `r` in the hole. -/
def ReprPath (h : Heap K V) (r : Option Nat) : Path Nat K V → Prop
  | [] => True
  | f :: p =>
    h f.id = cell f.side f.key f.val (Path.top p) r f.sib.root f.color ∧
      Repr h (some f.id) f.sib ∧ ReprPath h (some f.id) p

theorem repr_plug {h : Heap K V} {p : Path Nat K V} {t : Tree Nat K V} :
    Repr h none (p.plug t) ↔ Repr h p.top t ∧ ReprPath h t.root p := by
  induction p generalizing t with
  | nil => simp [Path.plug, Path.top, ReprPath]
  | cons f p ih =>
    rw [Path.plug, ih, Crumb.fill, repr_mk, Tree.root_mk, ReprPath, Path.top]
    tauto

theorem ReprPath.frame {h h' : Heap K V} {r : Option Nat} {p : Path Nat K V} (hr : ReprPath h r p)
    (hf : ∀ i ∈ p.ids, h' i = h i) : ReprPath h' r p := by
  induction p generalizing r with
  | nil => trivial
  | cons f p ih =>
    obtain ⟨hid, hs, hp⟩ := hr
    refine ⟨?_, hs.frame ?_, ih hp ?_⟩
    · rw [hf f.id (by simp [Path.ids]), hid]
    · exact fun i hi => hf i (by simp [Path.ids, hi])
    · exact fun i hi => hf i (by simp [Path.ids, hi])

/-- Another subtree is hung in the hole. -/
theorem ReprPath.setChild {h : Heap K V} {r : Option Nat} {f : Crumb Nat K V} {p : Path Nat K V}
    (hr : ReprPath h r (f :: p)) (hn : (Path.ids (f :: p)).Nodup) (r' : Option Nat) :
    ReprPath (h.setChild f.id f.side r') r' (f :: p) := by
  obtain ⟨hid, hs, hp⟩ := hr
  simp only [Path.ids, List.nodup_cons, List.mem_append, not_or] at hn
  refine ⟨?_, hs.frame ?_, hp.frame ?_⟩
  · simp [Heap.setChild, mod_apply, hid]
  · intro i hi
    simp [Heap.setChild, mod_apply, ne_of_mem_of_not_mem hi hn.1.1]
  · intro i hi
    simp [Heap.setChild, mod_apply, ne_of_mem_of_not_mem hi hn.1.2]

/-- A tree of distinct nodes in the heap. -/
structure Shape (h : Heap K V) (q : Option Nat) (t : Tree Nat K V) : Prop where
  repr : Repr h q t
  nodup : t.ids.Nodup

theorem Shape.at_root {h : Heap K V} {q : Option Nat} {t : Tree Nat K V} {i : Nat}
    (hs : Shape h q t) (hi : t.root = some i) : (h i).par = q ∧ (h i).color = t.color := by
  obtain ⟨c, l, k, v, r, rfl⟩ := Tree.root_eq_some hi
  obtain ⟨hid, -⟩ := hs.repr
  rw [hid]
  exact ⟨rfl, rfl⟩

theorem Repr.isRed_iff {h : Heap K V} {q : Option Nat} {t : Tree Nat K V} (hr : Repr h q t) :
    h.isRed t.root = true ↔ t.color = .red := by
  cases t with
  | nil => simp [Heap.isRed, Tree.root, Tree.color]
  | node id c l k v r => simp [Heap.isRed, Tree.root, Tree.color, hr.1]

theorem nodup_plug {p : Path Nat K V} {t : Tree Nat K V} :
    (p.plug t).ids.Nodup ↔ t.ids.Nodup ∧ (Path.ids p).Nodup ∧ t.ids.Disjoint (Path.ids p) := by
  rw [(Path.perm_ids_plug p t).nodup_iff, List.nodup_append]
  grind [List.Disjoint]

theorem mem_ids_plug {p : Path Nat K V} {t : Tree Nat K V} {i : Nat} :
    i ∈ (p.plug t).ids ↔ i ∈ t.ids ∨ i ∈ Path.ids p := by
  rw [(Path.perm_ids_plug p t).mem_iff, List.mem_append]

theorem length_ids_plug {p : Path Nat K V} {t : Tree Nat K V} :
    (p.plug t).ids.length = t.ids.length + (Path.ids p).length := by
  rw [(Path.perm_ids_plug p t).length_eq, List.length_append]

/-- From the whole tree to the subtree in the hole. -/
theorem Shape.focus {h : Heap K V} {p : Path Nat K V} {t : Tree Nat K V}
    (hs : Shape h none (p.plug t)) : Shape h p.top t :=
  ⟨(repr_plug.mp hs.repr).1, (nodup_plug.mp hs.nodup).1⟩

/-- The same nodes, and no other, were rearranged into another tree. -/
structure Edit (h h' : Heap K V) (q : Option Nat) (t t' : Tree Nat K V) : Prop where
  shape : Shape h' q t'
  mem : ∀ i, i ∈ t'.ids ↔ i ∈ t.ids
  frame : ∀ i, i ∉ t.ids → h' i = h i

namespace Edit

variable {h h' h'' : Heap K V} {q : Option Nat} {t t' t'' : Tree Nat K V}

theorem refl (hs : Shape h q t) : Edit h h q t t := ⟨hs, fun _ => Iff.rfl, fun _ _ => rfl⟩

theorem trans (h1 : Edit h h' q t t') (h2 : Edit h' h'' q t' t'') : Edit h h'' q t t'' :=
  ⟨h2.shape, fun i => (h2.mem i).trans (h1.mem i), fun i hi =>
    (h2.frame i (fun hm => hi ((h1.mem i).mp hm))).trans (h1.frame i hi)⟩

theorem length (he : Edit h h' q t t') (hn : t.ids.Nodup) : t'.ids.length = t.ids.length :=
  ((List.perm_ext_iff_of_nodup he.shape.nodup hn).mpr he.mem).length_eq

/-- An edit of a subtree that keeps its root is an edit of the whole tree. -/
theorem plug {p : Path Nat K V} (he : Edit h h' p.top t t') (hs : Shape h none (p.plug t))
    (hr : t'.root = t.root) : Edit h h' none (p.plug t) (p.plug t') := by
  obtain ⟨-, hpath⟩ := repr_plug.mp hs.repr
  obtain ⟨-, hpn, hd⟩ := nodup_plug.mp hs.nodup
  have hd' : t'.ids.Disjoint (Path.ids p) := fun i hi hip => hd ((he.mem i).mp hi) hip
  refine ⟨⟨repr_plug.mpr ⟨he.shape.repr, ?_⟩, nodup_plug.mpr ⟨he.shape.nodup, hpn, hd'⟩⟩, ?_, ?_⟩
  · rw [hr]
    exact hpath.frame (fun i hi => he.frame i (fun ht => hd ht hi))
  · intro i
    simp only [mem_ids_plug, he.mem]
  · intro i hi
    exact he.frame i (fun ht => hi (mem_ids_plug.mpr (.inl ht)))

end Edit

end Dmos.Proofs.TreeShape
