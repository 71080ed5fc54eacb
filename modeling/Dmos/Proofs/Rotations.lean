import Dmos.Proofs.TreeShape

namespace Dmos.Proofs.Rotations

open Dmos.Lib Dmos.Rbtree Dmos.Proofs.TreeShape Tree

variable {K V : Type} {h : Heap K V} {q : Option Nat} {s : Side}

attribute [local simp] Heap.setEntry Heap.setPar Heap.setChild Heap.setColor mod_apply linkPar_apply

/-- The pointer is to none of the listed nodes. -/
def Off (r : Option Nat) (l : List Nat) : Prop := ∀ i ∈ l, r ≠ some i

/-- Entry and colour of the root change, and no link. -/
theorem root_edit {id : Nat} {c c' : Color} {a b : Tree Nat K V} {k k' : K} {v v' : V}
    {f : RbNode K V → RbNode K V} (hs : Shape h q (mk s id c a k v b))
    (hf : f (cell s k v q a.root b.root c) = cell s k' v' q a.root b.root c') :
    Edit h (h.mod id f) q (mk s id c a k v b) (mk s id c' a k' v' b) := by
  obtain ⟨hid, ha, hb⟩ := repr_mk.mp hs.repr
  have hn := (nodup_mk _ _ _ _ _ _ _).mp hs.nodup
  refine ⟨⟨repr_mk.mpr ⟨?_, ha.frame ?_, hb.frame ?_⟩, (nodup_mk _ _ _ _ _ _ _).mpr hn⟩,
    by simp, ?_⟩
  · simp [hid, hf]
  · intro i hi
    simp [ne_of_mem_of_not_mem hi hn.1]
  · intro i hi
    simp [ne_of_mem_of_not_mem hi hn.2.1]
  · intro i hi
    simp only [mem_ids_mk, not_or] at hi
    simp [hi.1]

theorem recolor_edit {id : Nat} {c : Color} {a b : Tree Nat K V} {k : K} {v : V} (c' : Color)
    (hs : Shape h q (mk s id c a k v b)) :
    Edit h (h.setColor id c') q (mk s id c a k v b) (mk s id c' a k v b) :=
  root_edit hs (cell_setColor _ _ _ _ _ _ _ _)

theorem entry_edit {id : Nat} {c : Color} {a b : Tree Nat K V} {k : K} {v : V} (k' : K) (v' : V)
    (hs : Shape h q (mk s id c a k v b)) :
    Edit h (h.setEntry id k' v') q (mk s id c a k v b) (mk s id c a k' v' b) :=
  root_edit hs (cell_setEntry _ _ _ _ _ _ _ _ _)

section Insert

variable {A B C D E : Tree Nat K V} {a b c d e : Option Nat} {g p t : Nat} {cg cp ct : Color}
  {gk pk tk : K} {gv pv tv : V}

theorem zigzag_apply (hg : h g = cell s gk gv q (some p) d cg)
    (hp : h p = cell s pk pv (some g) a (some t) cp) (ht : h t = cell s tk tv (some p) b c ct)
    (hn : [g, p, t].Nodup) (hb : Off b [g, p, t]) (hd : Off d [g, p, t]) (i : Nat) :
    rotateZigzag s h t p g i = if i = g then cell s tk tv q (some p) (some t) cg
      else if i = p then cell s pk pv (some g) a b cp
      else if i = t then cell s gk gv (some g) c d .black
      else (h.linkPar b (some p)).linkPar d (some t) i := by
  simp [Off] at hn hb hd
  have hpg := Ne.symm hn.1.1
  have htg := Ne.symm hn.1.2
  have htp := Ne.symm hn.2
  by_cases h1 : i = g
  · simp [rotateZigzag, *]
  by_cases h2 : i = p
  · simp [rotateZigzag, *]
  by_cases h3 : i = t
  · simp [rotateZigzag, *]
  · simp [rotateZigzag, *]

theorem zigzag_edit
    (hs : Shape h q (mk s g cg (mk s p cp A pk pv (mk s t ct B tk tv C)) gk gv D)) :
    Edit h (rotateZigzag s h t p g) q (mk s g cg (mk s p cp A pk pv (mk s t ct B tk tv C)) gk gv D)
      (mk s g cg (mk s p cp A pk pv B) tk tv (mk s t .black C gk gv D)) := by
  obtain ⟨hr, hn⟩ := hs
  simp only [repr_mk, root_mk] at hr
  obtain ⟨hg, ⟨hp, hA, ht, hB, hC⟩, hD⟩ := hr
  simp only [nodup_mk, mem_ids_mk, List.Disjoint] at hn
  have hop := zigzag_apply hg hp ht (by grind) (by grind [root_mem, Off]) (by grind [root_mem, Off])
  simp only [linkPar_apply] at hop
  refine ⟨⟨?_, ?_⟩, ?_, ?_⟩
  · simp only [repr_mk, root_mk]
    refine ⟨?_, ⟨?_, hA.frame ?_, hB.relink ?_ ?_⟩, ?_, hC.frame ?_, hD.relink ?_ ?_⟩ <;>
      grind [root_mem]
  · simp only [nodup_mk, mem_ids_mk, List.Disjoint]
    grind
  · simp only [mem_ids_mk]
    grind
  · simp only [mem_ids_mk]
    grind [root_mem]

theorem right_right_apply (hg : h g = cell .right gk gv q (some p) a cg)
    (hp : h p = cell .right pk pv (some g) (some t) b cp)
    (ht : h t = cell .right tk tv (some p) e c ct) (hn : [g, p, t].Nodup)
    (ha : Off a [g, p, t]) (hb : Off b [g, p, t]) (hc : Off c [g, p, t]) (he : Off e [g, p, t])
    (i : Nat) :
    rotateRightRight h t p g i = if i = g then cell .right pk pv q (some p) (some t) .black
      else if i = p then cell .right tk tv (some g) e c .red
      else if i = t then cell .right gk gv (some g) b a ct
      else (((h.linkPar e (some p)).linkPar b (some t)).linkPar c (some p)).linkPar a (some t) i := by
  simp [Off] at hn ha hb hc he
  have hpg := Ne.symm hn.1.1
  have htg := Ne.symm hn.1.2
  have htp := Ne.symm hn.2
  by_cases h1 : i = g
  · simp [rotateRightRight, *]
  by_cases h2 : i = p
  · simp [rotateRightRight, *]
  by_cases h3 : i = t
  · simp [rotateRightRight, *]
  · simp [rotateRightRight, *]

theorem right_right_edit
    (hs : Shape h q (mk .right g cg (mk .right p cp (mk .right t ct E tk tv C) pk pv B) gk gv A)) :
    Edit h (rotateRightRight h t p g) q
      (mk .right g cg (mk .right p cp (mk .right t ct E tk tv C) pk pv B) gk gv A)
      (mk .right g .black (mk .right p .red E tk tv C) pk pv (mk .right t ct B gk gv A)) := by
  obtain ⟨hr, hn⟩ := hs
  simp only [repr_mk, root_mk] at hr
  obtain ⟨hg, ⟨hp, ⟨ht, hE, hC⟩, hB⟩, hA⟩ := hr
  simp only [nodup_mk, mem_ids_mk, List.Disjoint] at hn
  have hop := right_right_apply hg hp ht (by grind) (by grind [root_mem, Off])
    (by grind [root_mem, Off]) (by grind [root_mem, Off]) (by grind [root_mem, Off])
  simp only [linkPar_apply] at hop
  refine ⟨⟨?_, ?_⟩, ?_, ?_⟩
  · simp only [repr_mk, root_mk]
    refine ⟨?_, ⟨?_, hE.relink ?_ ?_, hC.relink ?_ ?_⟩, ?_, hB.relink ?_ ?_, hA.relink ?_ ?_⟩ <;>
      grind [root_mem]
  · simp only [nodup_mk, mem_ids_mk, List.Disjoint]
    grind
  · simp only [mem_ids_mk]
    grind
  · simp only [mem_ids_mk]
    grind [root_mem]

theorem left_left_apply (hg : h g = cell .left gk gv none (some p) d cg)
    (hp : h p = cell .left pk pv (some g) a b cp) (hn : g ≠ p) (hb : Off b [g, p]) (i : Nat) :
    rotateLeftLeft h p g i = if i = p then cell .left pk pv none a (some g) cp
      else if i = g then cell .left gk gv (some p) b d cg
      else h.linkPar b (some g) i := by
  simp [Off] at hb
  have hpg := Ne.symm hn
  by_cases h1 : i = p
  · simp [rotateLeftLeft, *]
  by_cases h2 : i = g
  · simp [rotateLeftLeft, *]
  · simp [rotateLeftLeft, *]

theorem left_left_edit (hs : Shape h none (mk .left g cg (mk .left p cp A pk pv B) gk gv D)) :
    Edit h (rotateLeftLeft h p g) none (mk .left g cg (mk .left p cp A pk pv B) gk gv D)
      (mk .left p cp A pk pv (mk .left g cg B gk gv D)) := by
  obtain ⟨hr, hn⟩ := hs
  simp only [repr_mk, root_mk] at hr
  obtain ⟨hg, ⟨hp, hA, hB⟩, hD⟩ := hr
  simp only [nodup_mk, mem_ids_mk, List.Disjoint] at hn
  have hop := left_left_apply hg hp (by grind) (by grind [root_mem, Off])
  simp only [linkPar_apply] at hop
  refine ⟨⟨?_, ?_⟩, ?_, ?_⟩
  · simp only [repr_mk, root_mk]
    refine ⟨?_, hA.frame ?_, ?_, hB.relink ?_ ?_, hD.frame ?_⟩ <;> grind [root_mem]
  · simp only [nodup_mk, mem_ids_mk, List.Disjoint]
    grind
  · simp only [mem_ids_mk]
    grind
  · simp only [mem_ids_mk]
    grind [root_mem]

section Below

variable {f : Nat} {cf : Color} {fk : K} {fv : V} {w : Option Nat} {W : Tree Nat K V}

theorem left_left_below_apply (hf : h f = cell s fk fv q (some g) w cf)
    (hg : h g = cell .left gk gv (some f) (some p) d cg)
    (hp : h p = cell .left pk pv (some g) a b cp) (hn : [f, g, p].Nodup) (hb : Off b [f, g, p])
    (hw : w ≠ some g) (i : Nat) :
    rotateLeftLeft h p g i = if i = f then cell s fk fv q (some p) w cf
      else if i = p then cell .left pk pv (some f) a (some g) cp
      else if i = g then cell .left gk gv (some p) b d cg
      else h.linkPar b (some g) i := by
  simp [Off] at hn hb
  have hgf := Ne.symm hn.1.1
  have hpf := Ne.symm hn.1.2
  have hpg := Ne.symm hn.2
  by_cases h1 : i = f
  · cases s <;> simp [rotateLeftLeft, *]
  by_cases h2 : i = p
  · cases s <;> simp [rotateLeftLeft, *]
  by_cases h3 : i = g
  · cases s <;> simp [rotateLeftLeft, *]
  · cases s <;> simp [rotateLeftLeft, *]

/-- The rotation below a node, whose child it replaces. -/
theorem left_left_below_edit
    (hs : Shape h q (mk s f cf (mk .left g cg (mk .left p cp A pk pv B) gk gv D) fk fv W)) :
    Edit h (rotateLeftLeft h p g) q
      (mk s f cf (mk .left g cg (mk .left p cp A pk pv B) gk gv D) fk fv W)
      (mk s f cf (mk .left p cp A pk pv (mk .left g cg B gk gv D)) fk fv W) := by
  obtain ⟨hr, hn⟩ := hs
  simp only [repr_mk, root_mk] at hr
  obtain ⟨hf, ⟨hg, ⟨hp, hA, hB⟩, hD⟩, hW⟩ := hr
  simp only [nodup_mk, mem_ids_mk, List.Disjoint] at hn
  have hop := left_left_below_apply hf hg hp (by grind) (by grind [root_mem, Off])
    (by grind [root_mem])
  simp only [linkPar_apply] at hop
  refine ⟨⟨?_, ?_⟩, ?_, ?_⟩
  · simp only [repr_mk, root_mk]
    refine ⟨?_, ⟨?_, hA.frame ?_, ?_, hB.relink ?_ ?_, hD.frame ?_⟩, hW.frame ?_⟩ <;>
      grind [root_mem]
  · simp only [nodup_mk, mem_ids_mk, List.Disjoint]
    grind
  · simp only [mem_ids_mk]
    grind
  · simp only [mem_ids_mk]
    grind [root_mem]

end Below

end Insert

section Delete

variable {B B' C X Y : Tree Nat K V} {b b' c : Option Nat} {tmp v w x y : Nat}
  {ct cv cw : Color} {tk vk wk : K} {tv vv wv : V}

/-- The sibling and its parent change colour. -/
theorem sibling_recolor_edit (hs : Shape h q (mk s tmp ct X tk tv (mk s v cv B vk vv C))) :
    Edit h ((h.setColor v .red).setColor tmp .black) q (mk s tmp ct X tk tv (mk s v cv B vk vv C))
      (mk s tmp .black X tk tv (mk s v .red B vk vv C)) := by
  obtain ⟨hr, hn⟩ := hs
  simp only [repr_mk, root_mk] at hr
  obtain ⟨ht, hX, hv, hB, hC⟩ := hr
  simp only [nodup_mk, mem_ids_mk, List.Disjoint] at hn
  have hop : ∀ i, (h.setColor v .red).setColor tmp .black i =
      if i = tmp then cell s tk tv q X.root (some v) .black
      else if i = v then cell s vk vv (some tmp) B.root C.root .red else h i := by
    intro i
    have hvt : tmp ≠ v := by grind
    by_cases h1 : i = tmp
    · simp [h1, ht, hvt]
    by_cases h2 : i = v
    · simp [h2, hv, hvt.symm]
    · simp [h1, h2]
  refine ⟨⟨?_, ?_⟩, ?_, ?_⟩
  · simp only [repr_mk, root_mk]
    refine ⟨?_, hX.frame ?_, ?_, hB.frame ?_, hC.frame ?_⟩ <;> grind
  · simp only [nodup_mk, mem_ids_mk, List.Disjoint]
    grind
  · simp only [mem_ids_mk]
    grind
  · simp only [mem_ids_mk]
    grind

theorem inner_apply (ht : h tmp = cell s tk tv q (some x) (some v) ct)
    (hv : h v = cell s vk vv (some tmp) (some w) c cv)
    (hw : h w = cell s wk wv (some v) b b' cw) (hn : [tmp, v, w, x].Nodup)
    (hb : Off b' [tmp, v, w, x]) :
    ∃ h', deleteInner s h tmp v w = .ok h' ∧ ∀ i, h' i =
      if i = tmp then cell s wk wv q (some w) (some v) ct
      else if i = v then cell s vk vv (some tmp) b' c cv
      else if i = w then cell s tk tv (some tmp) (some x) b .black
      else (h.linkPar b' (some v)).linkPar (some x) (some w) i := by
  simp [Off] at hn hb
  obtain ⟨⟨h1, h2, h3⟩, ⟨h4, h5⟩, h6⟩ := hn
  have h1' := Ne.symm h1
  have h2' := Ne.symm h2
  have h3' := Ne.symm h3
  have h4' := Ne.symm h4
  have h5' := Ne.symm h5
  have h6' := Ne.symm h6
  refine ⟨_, by simp [deleteInner, *]; rfl, fun i => ?_⟩
  by_cases hi : i = tmp
  · simp [*]
  by_cases hi : i = v
  · simp [*]
  by_cases hi : i = w
  · simp [*]
  by_cases hi : i = x
  · simp [*]
  · simp [*, Ne.symm hi]

theorem inner_edit (hx : X.root = some x)
    (hs : Shape h q (mk s tmp ct X tk tv (mk s v cv (mk s w cw B wk wv B') vk vv C))) :
    ∃ h', deleteInner s h tmp v w = .ok h' ∧
      Edit h h' q (mk s tmp ct X tk tv (mk s v cv (mk s w cw B wk wv B') vk vv C))
        (mk s tmp ct (mk s w .black X tk tv B) wk wv (mk s v cv B' vk vv C)) := by
  obtain ⟨hr, hn⟩ := hs
  simp only [repr_mk, root_mk, hx] at hr
  obtain ⟨ht, hX, hv, ⟨hw, hB, hB'⟩, hC⟩ := hr
  simp only [nodup_mk, mem_ids_mk, List.Disjoint] at hn
  have hxm := root_mem hx
  obtain ⟨h', hok, hop⟩ := inner_apply ht hv hw (by grind) (by grind [root_mem, Off])
  simp only [linkPar_apply, ← hx] at hop
  refine ⟨h', hok, ⟨?_, ?_⟩, ?_, ?_⟩
  · simp only [repr_mk, root_mk]
    refine ⟨?_, ⟨?_, hX.relink ?_ ?_, hB.frame ?_⟩, ?_, hB'.relink ?_ ?_, hC.frame ?_⟩ <;>
      grind [root_mem]
  · simp only [nodup_mk, mem_ids_mk, List.Disjoint]
    grind
  · simp only [mem_ids_mk]
    grind
  · simp only [mem_ids_mk]
    grind [root_mem]

theorem outer_apply (ht : h tmp = cell s tk tv q (some x) (some v) ct)
    (hv : h v = cell s vk vv (some tmp) b (some w) cv)
    (hw : h w = cell s wk wv (some v) b' c cw) (hn : [tmp, v, w, x].Nodup) :
    ∃ h', deleteOuter s h tmp v w = .ok h' ∧ ∀ i, h' i =
      if i = tmp then cell s vk vv q (some v) (some w) ct
      else if i = v then cell s tk tv (some tmp) (some x) b cv
      else if i = w then cell s wk wv (some tmp) b' c .black
      else h.linkPar (some x) (some v) i := by
  simp at hn
  obtain ⟨⟨h1, h2, h3⟩, ⟨h4, h5⟩, h6⟩ := hn
  have h1' := Ne.symm h1
  have h2' := Ne.symm h2
  have h3' := Ne.symm h3
  have h4' := Ne.symm h4
  have h5' := Ne.symm h5
  have h6' := Ne.symm h6
  refine ⟨_, by simp [deleteOuter, *]; rfl, fun i => ?_⟩
  by_cases hi : i = tmp
  · simp [*]
  by_cases hi : i = v
  · simp [*]
  by_cases hi : i = w
  · simp [*]
  by_cases hi : i = x
  · simp [*]
  · simp [*, Ne.symm hi]

theorem outer_edit (hx : X.root = some x)
    (hs : Shape h q (mk s tmp ct X tk tv (mk s v cv B vk vv (mk s w cw B' wk wv C)))) :
    ∃ h', deleteOuter s h tmp v w = .ok h' ∧
      Edit h h' q (mk s tmp ct X tk tv (mk s v cv B vk vv (mk s w cw B' wk wv C)))
        (mk s tmp ct (mk s v cv X tk tv B) vk vv (mk s w .black B' wk wv C)) := by
  obtain ⟨hr, hn⟩ := hs
  simp only [repr_mk, root_mk, hx] at hr
  obtain ⟨ht, hX, hv, hB, hw, hB', hC⟩ := hr
  simp only [nodup_mk, mem_ids_mk, List.Disjoint] at hn
  have hxm := root_mem hx
  obtain ⟨h', hok, hop⟩ := outer_apply ht hv hw (by grind)
  simp only [linkPar_apply, ← hx] at hop
  refine ⟨h', hok, ⟨?_, ?_⟩, ?_, ?_⟩
  · simp only [repr_mk, root_mk]
    refine ⟨?_, ⟨?_, hX.relink ?_ ?_, hB.frame ?_⟩, ?_, hB'.frame ?_, hC.frame ?_⟩ <;>
      grind [root_mem]
  · simp only [nodup_mk, mem_ids_mk, List.Disjoint]
    grind
  · simp only [mem_ids_mk]
    grind
  · simp only [mem_ids_mk]
    grind [root_mem]

theorem red_sibling_apply (ht : h tmp = cell s tk tv q (some x) (some v) ct)
    (hv : h v = cell s vk vv (some tmp) b (some y) cv) (hn : [tmp, v, x, y].Nodup) :
    ∃ h', deleteRedSibling s h tmp v = .ok h' ∧ ∀ i, h' i =
      if i = tmp then cell s vk vv q (some v) (some y) ct
      else if i = v then cell s tk tv (some tmp) (some x) b cv
      else (h.linkPar (some x) (some v)).linkPar (some y) (some tmp) i := by
  simp at hn
  obtain ⟨⟨h1, h2, h3⟩, ⟨h4, h5⟩, h6⟩ := hn
  have h1' := Ne.symm h1
  have h2' := Ne.symm h2
  have h3' := Ne.symm h3
  have h4' := Ne.symm h4
  have h5' := Ne.symm h5
  have h6' := Ne.symm h6
  refine ⟨_, by simp [deleteRedSibling, *]; rfl, fun i => ?_⟩
  by_cases hi : i = tmp
  · simp [*]
  by_cases hi : i = v
  · simp [*]
  by_cases hx : i = x
  · simp [*]
  by_cases hy : i = y
  · simp [*]
  · simp [*, Ne.symm hx, Ne.symm hy]

theorem red_sibling_edit (hx : X.root = some x) (hy : Y.root = some y)
    (hs : Shape h q (mk s tmp ct X tk tv (mk s v cv B vk vv Y))) :
    ∃ h', deleteRedSibling s h tmp v = .ok h' ∧
      Edit h h' q (mk s tmp ct X tk tv (mk s v cv B vk vv Y))
        (mk s tmp ct (mk s v cv X tk tv B) vk vv Y) := by
  obtain ⟨hr, hn⟩ := hs
  simp only [repr_mk, root_mk, hx, hy] at hr
  obtain ⟨ht, hX, hv, hB, hY⟩ := hr
  simp only [nodup_mk, mem_ids_mk, List.Disjoint] at hn
  have hxm := root_mem hx
  have hym := root_mem hy
  obtain ⟨h', hok, hop⟩ := red_sibling_apply ht hv (by grind)
  simp only [linkPar_apply, ← hx, ← hy] at hop
  refine ⟨h', hok, ⟨?_, ?_⟩, ?_, ?_⟩
  · simp only [repr_mk, root_mk]
    refine ⟨?_, ⟨?_, hX.relink ?_ ?_, hB.frame ?_⟩, hY.relink ?_ ?_⟩ <;> grind [root_mem]
  · simp only [nodup_mk, mem_ids_mk, List.Disjoint]
    grind
  · simp only [mem_ids_mk]
    grind
  · simp only [mem_ids_mk]
    grind [root_mem]

end Delete

end Dmos.Proofs.Rotations
