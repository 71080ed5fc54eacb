import Dmos.Proofs.Rotations

namespace Dmos.Proofs.DeleteFix

open Dmos.Lib Dmos.Rbtree Dmos.Proofs.TreeShape Dmos.Proofs.Rotations Tree

variable {K V : Type} {h : Heap K V} {q : Option Nat} {s : Side} {tmp tar v w : Nat} {c : Color}
  {tk vk : K} {tv vv : V} {X a b : Tree Nat K V}

/-- The loop body when the sibling is black: by the colours of its children. -/
theorem fix_step_black (hX : X.root = some tar)
    (hs : Shape h q (mk s tmp c X tk tv (mk s v .black a vk vv b))) :
    deleteFixStep h tar tmp =
      if a.color = .red then do
        let w ← deref a.root
        return (← deleteInner s h tmp v w, false, tmp)
      else if b.color = .red then do
        let w ← deref b.root
        return (← deleteOuter s h tmp v w, false, tmp)
      else .ok ((h.setColor v .red).setColor tmp .black, decide (c = .black), tmp) := by
  obtain ⟨ht, -, hv, ha, hb⟩ := by simpa only [repr_mk, root_mk, hX] using hs.repr
  obtain ⟨-, hnt, -, -, hd⟩ := (nodup_mk _ _ _ _ _ _ _).mp hs.nodup
  have hvt : tmp ≠ v := by
    rintro rfl
    simp at hnt
  have hside := cell_side s tk tv q (some v) c (i := tar) (by
    simpa using root_ne_of_disjoint hd (root_mem hX))
  have hc : (h.setColor v .red tmp).color = c := by simp [Heap.setColor, mod_apply, hvt, ht]
  simp only [deleteFixStep, ht, hside, cell_far, deref_some, ok_bind, hv, cell_color, cell_near,
    if_true, ha.isRed_iff, hb.isRed_iff, hc]
  rfl

theorem fix_step_red (hX : X.root = some tar)
    (hs : Shape h q (mk s tmp c X tk tv (mk s v .red a vk vv b))) :
    deleteFixStep h tar tmp = do return (← deleteRedSibling s h tmp v, true, tar) := by
  obtain ⟨ht, -, hv, ha, hb⟩ := by simpa only [repr_mk, root_mk, hX] using hs.repr
  obtain ⟨-, -, -, -, hd⟩ := (nodup_mk _ _ _ _ _ _ _).mp hs.nodup
  have hside := cell_side s tk tv q (some v) c (i := tar) (by
    simpa using root_ne_of_disjoint hd (root_mem hX))
  simp only [deleteFixStep, ht, hside, cell_far, deref_some, ok_bind, hv, cell_color]
  rfl

/-- The place of the node `d` in the tree changes with the tree around it. `d` is
to be freed, and counts as gone for the entries. -/
structure Round (h h' : Heap K V) (d : Tree Nat K V) (y y' : Path Nat K V) : Prop where
  edit : Edit h h' none (y.plug d) (y'.plug d)
  root : (y'.plug d).root = (y.plug d).root
  entries : (y'.plug .nil).entries = (y.plug .nil).entries

namespace Round

variable {h' h'' : Heap K V} {d : Tree Nat K V} {x y y' y'' : Path Nat K V}

theorem refl (hs : Shape h none (y.plug d)) : Round h h d y y := ⟨.refl hs, rfl, rfl⟩

theorem trans (h1 : Round h h' d y y') (h2 : Round h' h'' d y' y'') : Round h h'' d y y'' :=
  ⟨h1.edit.trans h2.edit, h2.root.trans h1.root, h2.entries.trans h1.entries⟩

/-- The node above a subtree is exchanged for one or more other nodes. -/
theorem of_edit {f : Crumb Nat K V} {g p : Path Nat K V}
    (hs : Shape h none (Path.plug (x ++ f :: p) d))
    (he : Edit h h' p.top (f.fill (x.plug d)) (g.plug (x.plug d)))
    (hr : (g.plug (x.plug d)).root = some f.id)
    (hent : (g.plug (x.plug .nil)).entries = (f.fill (x.plug .nil)).entries) :
    Round h h' d (x ++ f :: p) (x ++ (g ++ p)) := by
  have hr' : (g.plug (x.plug d)).root = (f.fill (x.plug d)).root := by simp [hr, Crumb.fill]
  simp only [Path.plug_append] at hs
  have he' := he.plug (p := p) hs hr'
  refine ⟨?_, ?_, ?_⟩
  · simpa only [Path.plug_append, Path.plug] using he'
  · simpa only [Path.plug_append, Path.plug] using Path.root_plug_congr p hr'
  · simpa only [Path.plug_append, Path.plug] using Path.entries_plug_congr p hent

end Round

/-- The state of the fix-up loop. Without `d` the tree below `tar` is one black
node short if `flag` is set, and the whole is a red-black tree if it is not. -/
structure Sink (h : Heap K V) (flag : Bool) (tar : Nat) (d : Tree Nat K V) (x p : Path Nat K V) :
    Prop where
  shape : Shape h none (Path.plug (x ++ p) d)
  short : flag = true → (x.plug d).root = some tar ∧ ∃ n, (x.plug .nil).Balanced n ∧
    (x.plug .nil).color = .black ∧ p.Balanced (n + 1)
  done : flag = false → (Path.plug (x ++ p) .nil).RedBlack

theorem Sink.focus {flag : Bool} {x p : Path Nat K V} {d : Tree Nat K V} {f : Crumb Nat K V}
    (hk : Sink h flag tar d x (f :: p)) : Shape h (Path.top p) (f.fill (x.plug d)) := by
  have hs := hk.shape
  rw [Path.plug_append] at hs
  exact Shape.focus (p := p) hs

/-- How many iterations are left, the last test included. -/
def rounds (flag : Bool) (p : Path Nat K V) : Nat :=
  if flag then (if p.color = .red then 2 else p.length + 2) else 1

section Step

variable {x p : Path Nat K V} {d : Tree Nat K V} {n : Nat}

/-- A subtree that is no longer short closes the gap below any node. -/
theorem redBlack_of_black {f : Crumb Nat K V} {t u : Tree Nat K V}
    (hp : Path.Balanced (f :: p) n) (ht : t.Balanced n) (hu : u.Balanced n)
    (htc : t.color = .black) (huc : u.color = .black) (k : K) (e : V) :
    (Path.plug (⟨f.side, f.id, f.color, k, e, u⟩ :: p) t).RedBlack := by
  cases hp with
  | red hs hsc hpc hp => exact Path.Balanced.plug (.red hu huc hpc hp) ht (.inl htc)
  | black hs hp => exact Path.Balanced.plug (.black hu hp) ht (.inl htc)

/-- What one iteration of the loop, entered with `flag` set, achieves. -/
def Step (h : Heap K V) (tar tmp : Nat) (d : Tree Nat K V) (x p : Path Nat K V) : Prop :=
  ∃ h' flag tar' x' p', deleteFixStep h tar tmp = .ok (h', flag, tar') ∧
    Sink h' flag tar' d x' p' ∧ Round h h' d (x ++ p) (x' ++ p') ∧ rounds flag p' < rounds true p

theorem one_lt_rounds (p : Path Nat K V) : 1 < rounds true p := by
  simp only [rounds, if_true]
  split <;> omega

theorem rounds_le (flag : Bool) (p : Path Nat K V) : rounds flag p ≤ p.length + 2 := by
  unfold rounds
  split
  · split <;> omega
  · omega

theorem inner_step (hk : Sink h true tar d x (⟨s, tmp, c, tk, tv, mk s v .black a vk vv b⟩ :: p))
    (ha : a.color = .red) :
    Step h tar tmp d x (⟨s, tmp, c, tk, tv, mk s v .black a vk vv b⟩ :: p) := by
  obtain ⟨hX, n, hx, hxc, hp⟩ := hk.short rfl
  obtain ⟨m, hm, hab, hbb⟩ := balanced_mk_black.mp hp.sib
  obtain rfl : n = m := Nat.succ.inj hm
  have hs := hk.focus
  rw [Step, fix_step_black hX hs, if_pos ha]
  obtain ⟨w, B, wk, wv, B', rfl, hB, hB', -⟩ := hab.exists_mk_red ha s
  obtain ⟨h', hok, he⟩ := inner_edit hX hs
  have hr := Round.of_edit (g := [⟨s, w, .black, tk, tv, B⟩,
    ⟨s, tmp, c, wk, wv, mk s v .black B' vk vv b⟩]) hk.shape he (root_mk _ _ _ _ _ _ _)
    (by cases s <;> simp [Path.plug, Crumb.fill, mk, entries])
  refine ⟨h', false, tmp, x, _, by simp [hok], ⟨hr.edit.shape, Bool.noConfusion, fun _ => ?_⟩, hr,
    one_lt_rounds _⟩
  rw [Path.plug_append]
  exact redBlack_of_black hp (t := mk s w .black (x.plug .nil) tk tv B)
    (balanced_mk_black.mpr ⟨n, rfl, hx, hB⟩) (balanced_mk_black.mpr ⟨n, rfl, hB', hbb⟩)
    (color_mk _ _ _ _ _ _ _) (color_mk _ _ _ _ _ _ _) wk wv

theorem outer_step (hk : Sink h true tar d x (⟨s, tmp, c, tk, tv, mk s v .black a vk vv b⟩ :: p))
    (ha : a.color ≠ .red) (hb : b.color = .red) :
    Step h tar tmp d x (⟨s, tmp, c, tk, tv, mk s v .black a vk vv b⟩ :: p) := by
  obtain ⟨hX, n, hx, hxc, hp⟩ := hk.short rfl
  obtain ⟨m, hm, hab, hbb⟩ := balanced_mk_black.mp hp.sib
  obtain rfl : n = m := Nat.succ.inj hm
  have hs := hk.focus
  rw [Step, fix_step_black hX hs, if_neg ha, if_pos hb]
  obtain ⟨w, B', wk, wv, C, rfl, hB', hC, -⟩ := hbb.exists_mk_red hb s
  obtain ⟨h', hok, he⟩ := outer_edit hX hs
  have hr := Round.of_edit (g := [⟨s, v, .black, tk, tv, a⟩,
    ⟨s, tmp, c, vk, vv, mk s w .black B' wk wv C⟩]) hk.shape he (root_mk _ _ _ _ _ _ _)
    (by cases s <;> simp [Path.plug, Crumb.fill, mk, entries])
  refine ⟨h', false, tmp, x, _, by simp [hok], ⟨hr.edit.shape, Bool.noConfusion, fun _ => ?_⟩, hr,
    one_lt_rounds _⟩
  rw [Path.plug_append]
  exact redBlack_of_black hp (t := mk s v .black (x.plug .nil) tk tv a)
    (balanced_mk_black.mpr ⟨n, rfl, hx, hab⟩) (balanced_mk_black.mpr ⟨n, rfl, hB', hC⟩)
    (color_mk _ _ _ _ _ _ _) (color_mk _ _ _ _ _ _ _) vk vv

/-- The red sibling makes the tree below `tmp` short as a whole, which a red `tmp`
makes up for. -/
theorem recolor_step (hk : Sink h true tar d x (⟨s, tmp, c, tk, tv, mk s v .black a vk vv b⟩ :: p))
    (ha : a.color ≠ .red) (hb : b.color ≠ .red) :
    Step h tar tmp d x (⟨s, tmp, c, tk, tv, mk s v .black a vk vv b⟩ :: p) := by
  obtain ⟨hX, n, hx, hxc, hp⟩ := hk.short rfl
  obtain ⟨m, hm, hab, hbb⟩ := balanced_mk_black.mp hp.sib
  obtain rfl : n = m := Nat.succ.inj hm
  have hs := hk.focus
  rw [Step, fix_step_black hX hs, if_neg ha, if_neg hb]
  have hr := Round.of_edit (g := [⟨s, tmp, .black, tk, tv, mk s v .red a vk vv b⟩]) hk.shape
    (sibling_recolor_edit hs) (root_mk _ _ _ _ _ _ _)
    (by cases s <;> simp [Path.plug, Crumb.fill, mk, entries])
  have hv : (mk s v .red a vk vv b).Balanced n := balanced_mk_red.mpr
    ⟨hab, hbb, (Color.eq_black_iff _).mpr ha, (Color.eq_black_iff _).mpr hb⟩
  have hY : (mk s tmp .black (x.plug .nil) tk tv (mk s v .red a vk vv b)).Balanced (n + 1) :=
    balanced_mk_black.mpr ⟨n, rfl, hx, hv⟩
  rw [← List.append_assoc] at hr
  cases hp with
  | red _ _ _ hp =>
    refine ⟨_, false, tmp, _, p, rfl, ⟨hr.edit.shape, Bool.noConfusion, fun _ => ?_⟩, hr,
      one_lt_rounds _⟩
    simp only [Path.plug_append]
    exact hp.plug hY (.inl (color_mk _ _ _ _ _ _ _))
  | black _ hp =>
    refine ⟨_, true, tmp, _, p, rfl, ⟨hr.edit.shape, fun _ => ?_, Bool.noConfusion⟩, hr, ?_⟩
    · simp only [Path.plug_append]
      exact ⟨root_mk _ _ _ _ _ _ _, n + 1, hY, color_mk _ _ _ _ _ _ _, hp⟩
    · exact Nat.lt_of_le_of_lt (rounds_le true p) (Nat.lt_succ_self _)

/-- The red sibling comes between `tar` and `tmp`: the gap is one level further
down, below a red node. -/
theorem red_sibling_turn
    (hk : Sink h true tar d x (⟨s, tmp, c, tk, tv, mk s v .red a vk vv b⟩ :: p)) :
    ∃ h', deleteFixStep h tar tmp = .ok (h', true, tar) ∧
      Sink h' true tar d x (⟨s, v, .red, tk, tv, a⟩ :: ⟨s, tmp, .black, vk, vv, b⟩ :: p) ∧
      Round h h' d (x ++ ⟨s, tmp, c, tk, tv, mk s v .red a vk vv b⟩ :: p)
        (x ++ ⟨s, v, .red, tk, tv, a⟩ :: ⟨s, tmp, .black, vk, vv, b⟩ :: p) ∧ c = .black := by
  obtain ⟨hX, n, hx, hxc, hp⟩ := hk.short rfl
  have hs := hk.focus
  cases hp with
  | red _ hsc => simp at hsc
  | black hsib hp =>
    obtain ⟨ha, hb, hac, hbc⟩ := balanced_mk_red.mp hsib
    obtain ⟨y, _, _, _, _, rfl, -⟩ := hb.exists_mk hbc s
    obtain ⟨h', hok, he⟩ := red_sibling_edit hX (root_mk _ _ _ _ _ _ _) hs
    have hr := Round.of_edit (g := [⟨s, v, .red, tk, tv, a⟩, ⟨s, tmp, .black, vk, vv, _⟩])
      hk.shape he (root_mk _ _ _ _ _ _ _)
      (by cases s <;> simp [Path.plug, Crumb.fill, mk, entries])
    refine ⟨h', by simp [fix_step_red hX hs, hok], ⟨hr.edit.shape, fun _ => ?_, Bool.noConfusion⟩,
      hr, rfl⟩
    exact ⟨hX, n, hx, hxc, .red ha hac rfl (.black hb hp)⟩

theorem red_sibling_step (hk : Sink h true tar d x (⟨s, tmp, c, tk, tv, mk s v .red a vk vv b⟩ :: p)) :
    Step h tar tmp d x (⟨s, tmp, c, tk, tv, mk s v .red a vk vv b⟩ :: p) := by
  obtain ⟨h', hok, hk', hr, rfl⟩ := red_sibling_turn hk
  refine ⟨h', true, tar, x, _, hok, hk', hr, ?_⟩
  simp [rounds, Path.color]

/-- One iteration of the loop: the sibling of a short subtree is a node. -/
theorem delete_fix_step_spec {f : Crumb Nat K V} (hk : Sink h true tar d x (f :: p)) :
    Step h tar f.id d x (f :: p) := by
  obtain ⟨s, tmp, c, tk, tv, W⟩ := f
  obtain ⟨-, n, -, -, hp⟩ := hk.short rfl
  cases hc : W.color with
  | red =>
    obtain ⟨v, a, vk, vv, b, rfl, -⟩ := hp.sib.exists_mk_red hc s
    exact red_sibling_step hk
  | black =>
    obtain ⟨v, a, vk, vv, b, rfl, -⟩ := hp.sib.exists_mk hc s
    by_cases ha : a.color = .red
    · exact inner_step hk ha
    by_cases hb : b.color = .red
    · exact outer_step hk ha hb
    · exact recolor_step hk ha hb

end Step

/-- The fix-up loop ends, and leaves a red-black tree once `d` is gone. -/
theorem delete_fix_spec (fuel : Nat) {h : Heap K V} {flag : Bool} {tar : Nat} {d : Tree Nat K V}
    {x p : Path Nat K V} (hk : Sink h flag tar d x p) (hf : rounds flag p ≤ fuel) :
    ∃ h' y, deleteFix fuel h flag tar = .ok h' ∧ Round h h' d (x ++ p) y ∧
      (y.plug .nil).RedBlack := by
  induction fuel generalizing h flag tar x p with
  | zero =>
    unfold rounds at hf
    split at hf <;> [split at hf; skip] <;> omega
  | succ fuel ih =>
    cases flag with
    | false => exact ⟨h, x ++ p, by simp [deleteFix], .refl hk.shape, hk.done rfl⟩
    | true =>
      obtain ⟨hX, n, hb, hbc, hp⟩ := hk.short rfl
      have hs := hk.shape
      rw [Path.plug_append] at hs
      have hpar := (hs.focus.at_root hX).1
      cases p with
      | nil =>
        refine ⟨h, x ++ [], by simp [deleteFix, hpar, Path.top], .refl hk.shape, ?_⟩
        rw [Path.plug_append]
        exact ⟨⟨n, hb⟩, hbc⟩
      | cons f p =>
        obtain ⟨h', flag, tar', x', p', hok, hk', hr, hlt⟩ := delete_fix_step_spec hk
        obtain ⟨h'', y, hok', hr', hrb⟩ := ih hk' (by omega)
        refine ⟨h'', y, ?_, hr.trans hr', hrb⟩
        simp [deleteFix, hpar, Path.top, hok, hok']

end Dmos.Proofs.DeleteFix
