import Dmos.Proofs.Rotations

namespace Dmos.Proofs.InsertFix

open Dmos.Lib Dmos.Rbtree Dmos.Proofs.TreeShape Dmos.Proofs.Rotations Tree

variable {K V : Type} {h : Heap K V} {s s' : Side} {g par tar : Nat} {gk pk : K} {gv pv : V}
  {n : Nat} {p : Path Nat K V} {S U X : Tree Nat K V}

/-- Which rotation is made, for `tar` on side `s'` of `par` and `par` on side `s`
of `gpar`. -/
theorem rotate_eq {q : Option Nat} {cg cp : Color}
    (hs : Shape h q (mk s g cg (mk s' par cp X pk pv S) gk gv U)) (hX : X.root = some tar) :
    rotate h tar = .ok (match s, s' with
      | .left, .left => (rotateLeftLeft h par g, par)
      | .left, .right => (rotateZigzag .left h tar par g, g)
      | .right, .right => (rotateRightRight h tar par g, g)
      | .right, .left => (rotateZigzag .right h tar par g, g)) := by
  obtain ⟨-, -, hnp, -, hdU⟩ := (nodup_mk _ _ _ _ _ _ _).mp hs.nodup
  obtain ⟨-, -, hnX, -, hdS⟩ := (nodup_mk _ _ _ _ _ _ _).mp hnp
  have hUp : U.root ≠ some par := root_ne_of_disjoint hdU (by simp)
  have hSt : S.root ≠ some tar := root_ne_of_disjoint hdS (root_mem hX)
  obtain ⟨hg, ⟨hp, hXr, -⟩, -⟩ := by simpa only [repr_mk, root_mk, hX] using hs.repr
  have ht := (Shape.at_root ⟨hXr, hnX⟩ hX).1
  cases s <;> cases s' <;> simp [rotate, ht, hp, hg, hUp, hSt, pure, Except.pure]

theorem left_left_plug {cg cp : Color}
    (hs : Shape h none (p.plug (mk .left g cg (mk .left par cp X pk pv S) gk gv U))) :
    Edit h (rotateLeftLeft h par g) none
      (p.plug (mk .left g cg (mk .left par cp X pk pv S) gk gv U))
      (p.plug (mk .left par cp X pk pv (mk .left g cg S gk gv U))) := by
  cases p with
  | nil => exact left_left_edit hs
  | cons f p =>
    have hf : Shape h (Path.top p) (f.fill _) := Shape.focus (p := p) hs
    exact (left_left_below_edit hf).plug hs (by simp)

theorem zigzag_balanced {A B C D : Tree Nat K V} {t : Nat} {tk : K} {tv : V} (hA : A.Balanced n)
    (hD : D.Balanced n) (hB : B.Balanced n) (hC : C.Balanced n) :
    (mk s g .red (mk s par .black A pk pv B) tk tv (mk s t .black C gk gv D)).Balanced (n + 1) := by
  refine balanced_mk_red.mpr ⟨?_, ?_, color_mk _ _ _ _ _ _ _, color_mk _ _ _ _ _ _ _⟩
  · exact balanced_mk_black.mpr ⟨n, rfl, hA, hB⟩
  · exact balanced_mk_black.mpr ⟨n, rfl, hC, hD⟩

/-- The rotations of the insertion: `par` is black and `gpar` red by now, and
`tar` is red. -/
theorem rotate_spec
    (hs : Shape h none (p.plug (mk s g .red (mk s' par .black X pk pv S) gk gv U)))
    (hX : X.root = some tar) (hc : X.color = .red) (hb : X.Balanced n) (hS : S.Balanced n)
    (hSc : S.color = .black) (hU : U.Balanced n) (hUc : U.color = .black) :
    ∃ h' tar' X', rotate h tar = .ok (h', tar') ∧
      Edit h h' none (p.plug (mk s g .red (mk s' par .black X pk pv S) gk gv U)) (p.plug X') ∧
      X'.root = some tar' ∧ X'.Balanced (n + 1) ∧
      X'.entries = (mk s g .red (mk s' par .black X pk pv S) gk gv U).entries := by
  have he := rotate_eq hs.focus hX
  obtain ⟨c, l, k, v, r, rfl⟩ := root_eq_some hX
  obtain rfl : c = .red := hc
  obtain ⟨hl, hr, hlc, hrc⟩ := (balanced_mk_red (s := .left)).mp hb
  cases s <;> cases s'
  · refine ⟨_, _, _, he, left_left_plug hs, root_mk _ _ _ _ _ _ _, ?_, by simp [mk, entries]⟩
    exact balanced_mk_black.mpr ⟨n, rfl, hb, balanced_mk_red.mpr ⟨hS, hU, hSc, hUc⟩⟩
  · refine ⟨_, _, _, he, (zigzag_edit (C := r) hs.focus).plug hs (by simp), root_mk _ _ _ _ _ _ _,
      ?_, by simp [mk, entries]⟩
    exact zigzag_balanced hS hU hl hr
  · refine ⟨_, _, _, he, (zigzag_edit (C := l) hs.focus).plug hs (by simp), root_mk _ _ _ _ _ _ _,
      ?_, by simp [mk, entries]⟩
    exact zigzag_balanced hS hU hr hl
  · refine ⟨_, _, _, he, (right_right_edit (E := r) hs.focus).plug hs (by simp),
      root_mk _ _ _ _ _ _ _, ?_, by simp [mk, entries]⟩
    exact balanced_mk_black.mpr ⟨n, rfl, balanced_mk_red.mpr ⟨hr, hl, hrc, hlc⟩,
      balanced_mk_red.mpr ⟨hS, hU, hSc, hUc⟩⟩

/-- The recolouring at the start of the loop body. -/
theorem recolor_spec {cg cp : Color}
    (hs : Shape h none (p.plug (mk s g cg (mk s' par cp X pk pv S) gk gv U))) :
    Edit h ((h.setColor par .black).setColor g .red) none
      (p.plug (mk s g cg (mk s' par cp X pk pv S) gk gv U))
      (p.plug (mk s g .red (mk s' par .black X pk pv S) gk gv U)) := by
  have h1 : Edit h (h.setColor par .black) none
      (p.plug (mk s g cg (mk s' par cp X pk pv S) gk gv U))
      (p.plug (mk s g cg (mk s' par .black X pk pv S) gk gv U)) :=
    Edit.plug (p := ⟨s, g, cg, gk, gv, U⟩ :: p) (recolor_edit _ (Shape.focus hs)) hs (by simp)
  exact h1.trans ((recolor_edit _ h1.shape.focus).plug h1.shape (by simp))

/-- The loop body on a red `tar` below a red `par`: by the colour of the uncle. -/
theorem insert_fix_step_eq {cg cp : Color}
    (hs : Shape h none (p.plug (mk s g cg (mk s' par cp X pk pv S) gk gv U)))
    (hX : X.root = some tar) :
    insertFixStep h tar = match U.root with
      | none => rotate ((h.setColor par .black).setColor g .red) tar
      | some u =>
        if U.color = .red then
          .ok (((h.setColor par .black).setColor g .red).setColor u .black, g)
        else rotate ((h.setColor par .black).setColor g .red) tar := by
  have he := (recolor_spec hs).shape.focus
  obtain ⟨-, -, hnp, hnU, hdU⟩ := (nodup_mk _ _ _ _ _ _ _).mp he.nodup
  obtain ⟨-, -, hnX, -⟩ := (nodup_mk _ _ _ _ _ _ _).mp hnp
  obtain ⟨-, ⟨hp, hXr, -⟩, -⟩ := by simpa only [repr_mk, root_mk] using hs.focus.repr
  obtain ⟨hg, -, hUr⟩ := by simpa only [repr_mk, root_mk] using he.repr
  have ht : (h tar).par = some par := (Shape.at_root ⟨hXr, hnX⟩ hX).1
  have hpg : (h.setColor par .black par).par = some g := by
    simp [Heap.setColor, mod_apply, RbNode.setColor, hp]
  have hside := cell_side s gk gv p.top U.root .red (root_ne_of_disjoint hdU (i := par) (by simp))
  simp only [insertFixStep, ht, deref_some, ok_bind, hpg, hg, hside, cell_far]
  cases hu : U.root with
  | none => rfl
  | some u =>
    simp only [(Shape.at_root ⟨hUr, hnU⟩ hu).2]
    rfl

/-- One round of the loop, two levels up. -/
theorem insert_fix_step_spec
    (hs : Shape h none (p.plug (mk s g .black (mk s' par .red X pk pv S) gk gv U)))
    (hX : X.root = some tar) (hc : X.color = .red) (hb : X.Balanced n) (hS : S.Balanced n)
    (hSc : S.color = .black) (hU : U.Balanced n) :
    ∃ h' tar' X', insertFixStep h tar = .ok (h', tar') ∧
      Edit h h' none (p.plug (mk s g .black (mk s' par .red X pk pv S) gk gv U)) (p.plug X') ∧
      X'.root = some tar' ∧ X'.Balanced (n + 1) ∧
      X'.entries = (mk s g .black (mk s' par .red X pk pv S) gk gv U).entries := by
  have he := recolor_spec hs
  rw [insert_fix_step_eq hs hX]
  have hrot (hUc : U.color = .black) := rotate_spec he.shape hX hc hb hS hSc hU hUc
  cases hu : U.root with
  | none =>
    obtain rfl := root_eq_none hu
    obtain ⟨h', tar', X', hok, hE, hr, hb', hent⟩ := hrot rfl
    exact ⟨h', tar', X', hok, he.trans hE, hr, hb', hent.trans (by cases s <;> cases s' <;> rfl)⟩
  | some u =>
    obtain ⟨c, l, k, v, r, rfl⟩ := root_eq_some hu
    cases c with
    | black =>
      obtain ⟨h', tar', X', hok, hE, hr, hb', hent⟩ := hrot rfl
      exact ⟨h', tar', X', hok, he.trans hE, hr, hb', hent.trans (by cases s <;> cases s' <;> rfl)⟩
    | red =>
      obtain ⟨hl, hr, -⟩ := (balanced_mk_red (s := .left)).mp hU
      rw [mk_other s g .red] at he
      have hs2 : Shape _ none (Path.plug (⟨s.other, g, .red, gk, gv,
        mk s' par .black X pk pv S⟩ :: p) (mk .left u .red l k v r)) := he.shape
      have hE := (recolor_edit .black hs2.focus).plug hs2 (by simp)
      refine ⟨_, g, _, rfl, he.trans hE, root_mk _ _ _ _ _ _ _, ?_, ?_⟩
      · exact balanced_mk_red.mpr ⟨.black hl hr, balanced_mk_black.mpr ⟨n, rfl, hb, hS⟩, rfl,
          color_mk _ _ _ _ _ _ _⟩
      · cases s <;> cases s' <;> rfl

/-- What the fix-up of an insertion is called on: the tree may only be wrong at
`tar`, where a red node may lie below a red node. -/
structure Climb (h : Heap K V) (head : Option Nat) (tar : Nat) (p : Path Nat K V)
    (X : Tree Nat K V) (n : Nat) : Prop where
  shape : Shape h none (p.plug X)
  root : X.root = some tar
  head : (p.plug X).root = head
  inner : p ≠ []
  above : p.Balanced n
  below : X.Balanced n

theorem Climb.stop {head : Option Nat} (hc : Climb h head tar p X n) (hf : p.Fits X) :
    ∃ T, Edit h h none (p.plug X) T ∧ T.root = head ∧ T.entries = (p.plug X).entries ∧
      T.RedBlack :=
  ⟨_, .refl hc.shape, hc.head, rfl, hc.above.plug hc.below hf⟩

/-- The colours that the loop condition reads. -/
theorem Climb.colors {head : Option Nat} {f : Crumb Nat K V} (hc : Climb h head tar (f :: p) X n) :
    (h tar).par = some f.id ∧ (h tar).color = X.color ∧ (h f.id).color = f.color := by
  obtain ⟨hpar, hcol⟩ := hc.shape.focus.at_root hc.root
  have hpath := (repr_plug.mp hc.shape.repr).2
  refine ⟨hpar, hcol, ?_⟩
  rw [hpath.1, cell_color]

/-- What a round of the loop makes of the tree: the part that may be wrong is two
levels further up. -/
structure Raised (h h' : Heap K V) (tar' : Nat) (p p' : Path Nat K V) (X X' : Tree Nat K V)
    (n : Nat) : Prop where
  edit : Edit h h' none (p.plug X) (p'.plug X')
  root : X'.root = some tar'
  entries : (p'.plug X').entries = (p.plug X).entries
  above : p'.Balanced (n + 1)
  below : X'.Balanced (n + 1)
  above_eq : ∃ f g, p = f :: g :: p'

/-- The round is made when `tar` and the node above it are red. -/
theorem Climb.turn {head : Option Nat} (hc : Climb h head tar p X n) (hX : X.color = .red)
    (hp : p.color = .red) :
    ∃ h' tar' p' X', insertFixStep h tar = .ok (h', tar') ∧ Raised h h' tar' p p' X X' n := by
  have hab := hc.above
  cases hab with
  | nil => exact absurd rfl hc.inner
  | black => cases hp
  | @red s' par pk pv S p _ hS hSc hpc hp =>
    -- the node above a red one is not the root
    cases hp with
    | nil => cases hpc
    | red => cases hpc
    | @black s g gk gv U p _ hU hp =>
      obtain ⟨h', tar', X', hok, hE, hr', hb', hent⟩ :=
        insert_fix_step_spec hc.shape hc.root hX hc.below hS hSc hU
      exact ⟨h', tar', p, X', hok, hE, hr', Path.entries_plug_congr p hent, hp, hb', _, _, rfl⟩

/-- Below the root the loop goes on. -/
theorem Raised.climb {h' : Heap K V} {head : Option Nat} {tar tar' : Nat} {p p' : Path Nat K V}
    {X X' : Tree Nat K V} (hr : Raised h h' tar' p p' X X' n) (hc : Climb h head tar p X n)
    (hp : p' ≠ []) : Climb h' head tar' p' X' (n + 1) := by
  obtain ⟨f, g, rfl⟩ := hr.above_eq
  exact ⟨hr.edit.shape, hr.root, (Path.root_plug hp _ _).trans hc.head, hp, hr.above, hr.below⟩

/-- The fix-up loop ends, and ends in a red-black tree with the same entries. -/
theorem insert_fix_spec (fuel : Nat) {h : Heap K V} {head : Option Nat} {tar n : Nat}
    {p : Path Nat K V} {X : Tree Nat K V} (hc : Climb h head tar p X n) (hf : p.length < fuel) :
    ∃ h' head', insertFix fuel h head tar = .ok (h', head') ∧
      ∃ T, Edit h h' none (p.plug X) T ∧ T.root = head' ∧ T.entries = (p.plug X).entries ∧
        T.RedBlack := by
  induction fuel generalizing h head tar n p X with
  | zero => omega
  | succ fuel ih =>
    obtain ⟨f, q, rfl⟩ := List.exists_cons_of_ne_nil hc.inner
    obtain ⟨hpar, hcol, hpcol⟩ := hc.colors
    rw [insertFix, hcol, hpar]
    cases hX : X.color with
    | black => exact ⟨h, head, rfl, hc.stop (.inl hX)⟩
    | red =>
      cases hfc : f.color with
      | black =>
        refine ⟨h, head, ?_, hc.stop (.inr hfc)⟩
        simp [hpcol, hfc, pure, Except.pure]
      | red =>
        obtain ⟨h', tar', p', X', hok, hR⟩ := hc.turn hX hfc
        obtain ⟨hpar', -⟩ := hR.edit.shape.focus.at_root hR.root
        cases p' with
        | nil =>
          obtain ⟨c, l, k, v, r, rfl⟩ := root_eq_some hR.root
          have hE' := recolor_edit (s := .left) .black hR.edit.shape
          refine ⟨h'.setColor tar' .black, some tar', ?_, _, hR.edit.trans hE', rfl, hR.entries, ?_⟩
          · simp [hpcol, hfc, hok, hpar', Path.top, pure, Except.pure]
          · exact Balanced.blacken (s := .left) hR.below
        | cons g p =>
          have hlt : (g :: p).length < fuel := by
            obtain ⟨f', g', heq⟩ := hR.above_eq
            simp only [heq, List.length_cons] at hf ⊢
            omega
          obtain ⟨h2, head', hok', T, hE', hroot, hent2, hrb⟩ := ih (hR.climb hc (by simp)) hlt
          refine ⟨h2, head', ?_, T, hR.edit.trans hE', hroot, hent2.trans hR.entries, hrb⟩
          simpa [hpcol, hfc, hok, hpar', Path.top] using hok'

end Dmos.Proofs.InsertFix
