import Mathlib.Logic.Relation
import Dmos.Proofs.AbsentKey

namespace Dmos.Proofs.FixTermination

open Dmos.Lib Dmos.Rbtree Dmos.Proofs.TreeShape Dmos.Proofs.InsertFix Dmos.Proofs.DeleteFix
open Dmos.Proofs.Insert Dmos.Proofs.Delete Dmos.Proofs.SharedPool Dmos.Proofs.RedBlack
open Dmos.Proofs.NodePool Dmos.Proofs.AbsentKey Tree Relation

variable {K V : Type} {h h' : Heap K V} {p : Path Nat K V} {t : Tree Nat K V} {i n : Nat}

/-- The nodes above a node, counted along the parent links. -/
def levels (h : Heap K V) : Nat → Nat → Nat
  | 0, _ => 0
  | n + 1, i =>
    match (h i).par with
    | none => 0
    | some par => levels h n par + 1

/-- The level of a node; no way up is longer than the pool. -/
def depth (h : Heap K V) (i : Nat) : Nat := levels h rbtreeNodePoolNum i

theorem levels_plug (hs : Shape h none (p.plug t)) (hi : t.root = some i) (hn : p.length ≤ n) :
    levels h n i = p.length := by
  have hpar := (hs.focus.at_root hi).1
  induction p generalizing t i n with
  | nil =>
    cases n with
    | zero => rfl
    | succ n => simp [levels, hpar, Path.top]
  | cons f p ih =>
    rw [List.length_cons] at hn
    obtain ⟨n, rfl⟩ : ∃ m, n = m + 1 := ⟨n - 1, by omega⟩
    have hs' : Shape h none (Path.plug p (f.fill t)) := hs
    have hf : (f.fill t).root = some f.id := root_mk _ _ _ _ _ _ _
    have hup := ih hs' hf (Nat.le_of_succ_le_succ hn) (hs'.focus.at_root hf).1
    simp [levels, hpar, Path.top, hup]

theorem depth_plug (hs : Shape h none (p.plug t)) (hi : t.root = some i)
    (hn : p.length ≤ rbtreeNodePoolNum) : depth h i = p.length :=
  levels_plug hs hi hn

section Insert

variable {head : Option Nat} {tar : Nat} {X : Tree Nat K V}

/-- The condition of the second loop of `rbtree_insert`. -/
def InsertCond (h : Heap K V) (tar : Nat) : Prop :=
  (h tar).color = .red ∧ ∃ par, (h tar).par = some par ∧ (h par).color = .red

/-- From one test of the condition to the next: the loop is left at the root. -/
def InsertTurn (a b : Heap K V × Nat) : Prop :=
  InsertCond a.1 a.2 ∧ insertFixStep a.1 a.2 = .ok b ∧ (b.1 b.2).par ≠ none

/-- Every iteration of the loop takes `tar` two levels up, and the loop has a result,
the same for every bound on the iterations above the level of `tar`. -/
structure InsertEnds (h : Heap K V) (head : Option Nat) (tar : Nat) : Prop where
  climbs : ∀ a, ReflTransGen InsertTurn (h, tar) a → InsertCond a.1 a.2 →
    ∃ b, insertFixStep a.1 a.2 = .ok b ∧ depth b.1 b.2 + 2 = depth a.1 a.2
  returns : ∃ r, ∀ fuel, depth h tar < fuel → insertFix fuel h head tar = .ok r

/-- More fuel changes nothing once there is a result. -/
theorem insertFix_mono {fuel fuel' : Nat} {r : Heap K V × Option Nat}
    (hr : insertFix fuel h head tar = .ok r) (hle : fuel ≤ fuel') :
    insertFix fuel' h head tar = .ok r := by
  induction fuel generalizing h tar fuel' with
  | zero => cases hr
  | succ fuel ih =>
    obtain ⟨fuel', rfl⟩ : ∃ m, fuel' = m + 1 := ⟨fuel' - 1, by omega⟩
    simp only [insertFix] at hr ⊢
    split at hr
    next hcol =>
      rw [if_pos hcol]
      obtain ⟨par, hpar, hr⟩ := bind_eq_ok hr
      rw [hpar, ok_bind]
      split at hr
      next hpcol =>
        rw [if_pos hpcol]
        obtain ⟨b, hstep, hr⟩ := bind_eq_ok hr
        rw [hstep, ok_bind]
        split at hr
        next hroot => rwa [if_pos hroot]
        next hroot =>
          rw [if_neg hroot]
          exact ih hr (by omega)
      next hpcol => rwa [if_neg hpcol]
    next hcol => rwa [if_neg hcol]

/-- The invariant of the loop. -/
def Climbing (head : Option Nat) (a : Heap K V × Nat) : Prop :=
  ∃ p X n, Climb a.1 head a.2 p X n ∧ p.length ≤ rbtreeNodePoolNum

theorem climbing_turn {a : Heap K V × Nat} (ha : Climbing head a) (hcond : InsertCond a.1 a.2) :
    ∃ b, insertFixStep a.1 a.2 = .ok b ∧ depth b.1 b.2 + 2 = depth a.1 a.2 ∧
      ((b.1 b.2).par ≠ none → Climbing head b) := by
  obtain ⟨p, X, n, hc, hlen⟩ := ha
  obtain ⟨f, q, rfl⟩ := List.exists_cons_of_ne_nil hc.inner
  obtain ⟨hpar, hcol, hpcol⟩ := hc.colors
  obtain ⟨hred, par, hpar', hpred⟩ := hcond
  obtain rfl : f.id = par := Option.some.inj (hpar.symm.trans hpar')
  obtain ⟨h', tar', p', X', hok, hR⟩ := hc.turn (hcol.symm.trans hred) (hpcol.symm.trans hpred)
  obtain ⟨f', g', heq⟩ := hR.above_eq
  have hlen' : p'.length ≤ rbtreeNodePoolNum := by
    simp only [heq, List.length_cons] at hlen
    omega
  have hup : depth h' tar' = p'.length := depth_plug hR.edit.shape hR.root hlen'
  have hdown := depth_plug hc.shape hc.root hlen
  refine ⟨(h', tar'), hok, ?_, fun hne => ⟨p', X', n + 1, hR.climb hc ?_, hlen'⟩⟩
  · simp only [hup, hdown, heq, List.length_cons]
  · rintro rfl
    exact hne (hR.edit.shape.focus.at_root hR.root).1

theorem Climbing.reached {a b : Heap K V × Nat} (ha : Climbing head a)
    (hr : ReflTransGen InsertTurn a b) : Climbing head b := by
  induction hr with
  | refl => exact ha
  | tail _ hturn ih =>
    obtain ⟨hcond, hok, hne⟩ := hturn
    obtain ⟨b', hok', -, hkeep⟩ := climbing_turn ih hcond
    obtain rfl := Except.ok.inj (hok'.symm.trans hok)
    exact hkeep hne

theorem Climbing.ends (hc : Climbing head (h, tar)) : InsertEnds h head tar := by
  refine ⟨fun a hr hcond => ?_, ?_⟩
  · obtain ⟨b, hok, hup, -⟩ := climbing_turn (hc.reached hr) hcond
    exact ⟨b, hok, hup⟩
  · obtain ⟨p, X, n, hclimb, hlen⟩ := hc
    have hd : depth h tar = p.length := depth_plug hclimb.shape hclimb.root hlen
    obtain ⟨h', head', hfix, -⟩ := insert_fix_spec (p.length + 1) hclimb (Nat.lt_succ_self _)
    exact ⟨(h', head'), fun fuel hlt => insertFix_mono hfix (by omega)⟩

end Insert

section Delete

variable {tar tmp : Nat} {d : Tree Nat K V} {x p : Path Nat K V} {flag : Bool}

/-- The other child of the parent of `tar`. -/
def sibling (h : Heap K V) (tar tmp : Nat) : Option Nat :=
  if (h tmp).left = some tar then (h tmp).right else (h tmp).left

/-- A bound for the iterations that are left. Below a red node one is enough. -/
def deleteMeasure (h : Heap K V) (flag : Bool) (tar : Nat) : Nat :=
  if flag then (if h.isRed (h tar).par then 1 else depth h tar + 1) else 0

/-- One iteration of the fix-up loop of `rbtree_delete`. -/
def DeleteTurn (a b : Heap K V × Bool × Nat) : Prop :=
  a.2.1 = true ∧ ∃ tmp, (a.1 a.2.2).par = some tmp ∧ deleteFixStep a.1 a.2.2 tmp = .ok b

/-- What an iteration with a black sibling does. -/
def ClearsOrClimbs (h h' : Heap K V) (tar tmp : Nat) (flag : Bool) (tar' : Nat) : Prop :=
  tar' = tmp ∧ (flag = false ∨ depth h' tar' + 1 = depth h tar)

/-- What an iteration with the red sibling `v` does: `tar` goes one level down, and
the next iteration clears `flag`. -/
def DropsOnce (h h' : Heap K V) (tar v : Nat) (flag : Bool) (tar' : Nat) : Prop :=
  flag = true ∧ tar' = tar ∧ depth h' tar = depth h tar + 1 ∧ (h' tar).par = some v ∧
    (h' v).color = .red ∧ ∃ h'', deleteFixStep h' tar v = .ok (h'', false, v)

/-- Every iteration of the loop lowers the measure, and the loop has a result, the same
for every bound on the iterations above the measure. -/
structure DeleteEnds (h : Heap K V) (flag : Bool) (tar : Nat) : Prop where
  lowers : ∀ h₁ tar₁ tmp, ReflTransGen DeleteTurn (h, flag, tar) (h₁, true, tar₁) →
    (h₁ tar₁).par = some tmp → ∃ h₂ flag₂ tar₂ v,
      deleteFixStep h₁ tar₁ tmp = .ok (h₂, flag₂, tar₂) ∧
      deleteMeasure h₂ flag₂ tar₂ < deleteMeasure h₁ true tar₁ ∧
      sibling h₁ tar₁ tmp = some v ∧
      ((h₁ v).color = .black → ClearsOrClimbs h₁ h₂ tar₁ tmp flag₂ tar₂) ∧
      ((h₁ v).color = .red → DropsOnce h₁ h₂ tar₁ v flag₂ tar₂)
  returns : ∃ h', ∀ fuel, deleteMeasure h flag tar < fuel → deleteFix fuel h flag tar = .ok h'

theorem deleteFix_mono {fuel fuel' : Nat} {r : Heap K V} (hr : deleteFix fuel h flag tar = .ok r)
    (hle : fuel ≤ fuel') : deleteFix fuel' h flag tar = .ok r := by
  induction fuel generalizing h flag tar fuel' with
  | zero => cases hr
  | succ fuel ih =>
    obtain ⟨fuel', rfl⟩ : ∃ m, fuel' = m + 1 := ⟨fuel' - 1, by omega⟩
    cases flag with
    | false => exact hr
    | true =>
      cases hpar : (h tar).par with
      | none => simpa only [deleteFix, hpar] using hr
      | some tmp =>
        simp only [deleteFix, hpar] at hr ⊢
        obtain ⟨b, hstep, hr⟩ := bind_eq_ok hr
        rw [hstep, ok_bind]
        exact ih hr (by omega)

/-- The tree in which the gap is, with at most as many nodes as the pool. -/
structure Bounded (h : Heap K V) (flag : Bool) (tar : Nat) (d : Tree Nat K V)
    (x p : Path Nat K V) : Prop where
  sink : Sink h flag tar d x p
  size : (Path.plug (x ++ p) d).ids.length ≤ rbtreeNodePoolNum

namespace Bounded

theorem length_le (hb : Bounded h flag tar d x p) : p.length ≤ rbtreeNodePoolNum := by
  have hsize := hb.size
  have hle := Path.length_le_ids (x ++ p)
  rw [length_ids_plug] at hsize
  rw [List.length_append] at hle
  omega

theorem shape (hb : Bounded h flag tar d x p) : Shape h none (p.plug (x.plug d)) := by
  have hs := hb.sink.shape
  rwa [Path.plug_append] at hs

theorem depth_eq (hb : Bounded h true tar d x p) : depth h tar = p.length :=
  depth_plug hb.shape (hb.sink.short rfl).1 hb.length_le

theorem par_eq (hb : Bounded h true tar d x p) : (h tar).par = p.top :=
  (hb.shape.focus.at_root (hb.sink.short rfl).1).1

theorem measure_eq (hb : Bounded h flag tar d x p) :
    deleteMeasure h flag tar + 1 = rounds flag p := by
  cases flag with
  | false => rfl
  | true =>
    simp only [deleteMeasure, rounds, if_true, hb.par_eq, hb.depth_eq]
    cases p with
    | nil => rfl
    | cons f p =>
      have hf := (repr_plug.mp hb.shape.repr).2.1
      cases hc : f.color <;> simp [Path.top, Heap.isRed, hf, Path.color, hc]

theorem of_round {h' : Heap K V} {flag' : Bool} {tar' : Nat} {x' p' : Path Nat K V}
    (hb : Bounded h flag tar d x p) (hk : Sink h' flag' tar' d x' p')
    (hr : Round h h' d (x ++ p) (x' ++ p')) : Bounded h' flag' tar' d x' p' := by
  refine ⟨hk, ?_⟩
  rw [hr.edit.length hb.sink.shape.nodup]
  exact hb.size

/-- The sibling and its colour, as the loop reads them. -/
theorem sibling_eq {f : Crumb Nat K V} (hb : Bounded h true tar d x (f :: p)) :
    sibling h tar f.id = f.sib.root ∧ ∀ v, f.sib.root = some v → (h v).color = f.sib.color := by
  have hX := (hb.sink.short rfl).1
  have hs := hb.sink.focus
  obtain ⟨-, -, -, hnd, hdisj⟩ := (nodup_mk _ _ _ _ _ _ _).mp hs.nodup
  obtain ⟨hid, -, hsib⟩ := repr_mk.mp hs.repr
  have hne : f.sib.root ≠ some tar := root_ne_of_disjoint hdisj (root_mem hX)
  refine ⟨?_, fun v hv => (Shape.at_root ⟨hsib, hnd⟩ hv).2⟩
  rw [sibling, hid, hX]
  cases f.side with
  | left => simp
  | right => simp [hne]

end Bounded

theorem levels_congr (hpar : ∀ i, (h' i).par = (h i).par) : levels h' n i = levels h n i := by
  induction n generalizing i with
  | zero => rfl
  | succ n ih => simp only [levels, hpar, ih]

section Turn

variable {s : Side} {v : Nat} {c : Color} {tk vk : K} {tv vv : V} {q : Option Nat}
  {X a b W : Tree Nat K V} {tar' : Nat}

/-- With a black sibling the loop goes on at `tmp`, if at all, and then no link has
changed. -/
theorem black_turn (hX : X.root = some tar)
    (hs : Shape h q (mk s tmp c X tk tv (mk s v .black a vk vv b)))
    (hok : deleteFixStep h tar tmp = .ok (h', flag, tar')) :
    tar' = tmp ∧ (flag = true → c = .black ∧ ∀ i, (h' i).par = (h i).par) := by
  rw [fix_step_black hX hs] at hok
  split at hok
  · obtain ⟨w, -, hok⟩ := bind_eq_ok hok
    obtain ⟨h₁, -, hok⟩ := bind_eq_ok hok
    cases hok
    exact ⟨rfl, Bool.noConfusion⟩
  split at hok
  · obtain ⟨w, -, hok⟩ := bind_eq_ok hok
    obtain ⟨h₁, -, hok⟩ := bind_eq_ok hok
    cases hok
    exact ⟨rfl, Bool.noConfusion⟩
  · cases hok
    refine ⟨rfl, fun hc => ⟨of_decide_eq_true hc, fun i => ?_⟩⟩
    simp only [Heap.setColor, mod_apply]
    split <;> split <;> rfl

/-- Below a red node an iteration clears `flag`. -/
theorem cleared_below_red (hk : Sink h true tar d x (⟨s, tmp, .red, tk, tv, W⟩ :: p)) :
    ∃ h', deleteFixStep h tar tmp = .ok (h', false, tmp) := by
  obtain ⟨hX, n, -, -, hp⟩ := hk.short rfl
  obtain ⟨h', flag, tar', -, -, hok, -⟩ := delete_fix_step_spec hk
  cases hp with
  | red hW hWc =>
    obtain ⟨v, a, vk, vv, b, rfl, -⟩ := hW.exists_mk hWc s
    obtain ⟨rfl, hflag⟩ := black_turn hX hk.focus hok
    cases flag with
    | false => exact ⟨h', hok⟩
    | true => cases (hflag rfl).1

theorem black_sibling_turn (hb : Bounded h true tar d x (⟨s, tmp, c, tk, tv, mk s v .black a vk vv b⟩ :: p))
    (hok : deleteFixStep h tar tmp = .ok (h', flag, tar')) :
    ClearsOrClimbs h h' tar tmp flag tar' := by
  obtain ⟨rfl, hflag⟩ := black_turn (hb.sink.short rfl).1 hb.sink.focus hok
  refine ⟨rfl, ?_⟩
  cases flag with
  | false => exact .inl rfl
  | true =>
    refine .inr ?_
    have hlen := hb.length_le
    rw [List.length_cons] at hlen
    have hup : depth h tar' = p.length :=
      depth_plug (t := mk s tar' c _ tk tv _) hb.shape (root_mk _ _ _ _ _ _ _) (by omega)
    rw [depth, levels_congr (hflag rfl).2, ← depth, hup, hb.depth_eq, List.length_cons]

theorem red_sibling_drops (hb : Bounded h true tar d x (⟨s, tmp, c, tk, tv, mk s v .red a vk vv b⟩ :: p))
    (hok : deleteFixStep h tar tmp = .ok (h', flag, tar')) : DropsOnce h h' tar v flag tar' := by
  obtain ⟨h₁, hok₁, hk, hr, rfl⟩ := red_sibling_turn hb.sink
  cases hok₁.symm.trans hok
  have hb' := hb.of_round hk hr
  refine ⟨rfl, rfl, ?_, hb'.par_eq, ?_, cleared_below_red hk⟩
  · simp only [hb'.depth_eq, hb.depth_eq, List.length_cons]
  · rw [(repr_plug.mp hb'.shape.repr).2.1, cell_color]

end Turn

/-- What an iteration that starts with the parent `tmp` of `tar` does. -/
theorem Bounded.turn {f : Crumb Nat K V} (hb : Bounded h true tar d x (f :: p)) :
    ∃ h₂ flag₂ tar₂ v, deleteFixStep h tar f.id = .ok (h₂, flag₂, tar₂) ∧
      deleteMeasure h₂ flag₂ tar₂ < deleteMeasure h true tar ∧ sibling h tar f.id = some v ∧
      ((h v).color = .black → ClearsOrClimbs h h₂ tar f.id flag₂ tar₂) ∧
      ((h v).color = .red → DropsOnce h h₂ tar v flag₂ tar₂) ∧
      ∃ x' p', Bounded h₂ flag₂ tar₂ d x' p' := by
  obtain ⟨h₂, flag₂, tar₂, x', p', hok, hk', hr, hlt⟩ := delete_fix_step_spec hb.sink
  have hb' := hb.of_round hk' hr
  have hm : deleteMeasure h₂ flag₂ tar₂ < deleteMeasure h true tar := by
    have h1 := hb.measure_eq
    have h2 := hb'.measure_eq
    omega
  obtain ⟨hsib, hcol⟩ := hb.sibling_eq
  obtain ⟨s, tmp, c, tk, tv, W⟩ := f
  obtain ⟨-, n, -, -, hp⟩ := hb.sink.short rfl
  cases hc : W.color with
  | red =>
    obtain ⟨v, a, vk, vv, b, rfl, -⟩ := hp.sib.exists_mk_red hc s
    have hv := hcol v (root_mk _ _ _ _ _ _ _)
    refine ⟨h₂, flag₂, tar₂, v, hok, hm, by simpa using hsib, fun hv' => ?_,
      fun _ => red_sibling_drops hb hok, x', p', hb'⟩
    rw [hv] at hv'
    simp at hv'
  | black =>
    obtain ⟨v, a, vk, vv, b, rfl, -⟩ := hp.sib.exists_mk hc s
    have hv := hcol v (root_mk _ _ _ _ _ _ _)
    refine ⟨h₂, flag₂, tar₂, v, hok, hm, by simpa using hsib, fun _ => black_sibling_turn hb hok,
      fun hv' => ?_, x', p', hb'⟩
    rw [hv] at hv'
    simp at hv'

theorem Bounded.reached {a b : Heap K V × Bool × Nat} (hb : Bounded a.1 a.2.1 a.2.2 d x p)
    (hr : ReflTransGen DeleteTurn a b) : ∃ x' p', Bounded b.1 b.2.1 b.2.2 d x' p' := by
  induction hr with
  | refl => exact ⟨x, p, hb⟩
  | @tail b e _ hturn ih =>
    obtain ⟨h₁, flag₁, tar₁⟩ := b
    obtain ⟨rfl, tmp, hpar, hok⟩ := hturn
    obtain ⟨x', p', hb'⟩ := ih
    have htop := hb'.par_eq.symm.trans hpar
    cases p' with
    | nil => cases htop
    | cons f p' =>
      obtain rfl : f.id = tmp := Option.some.inj htop
      obtain ⟨h₂, flag₂, tar₂, v, hok', -, -, -, -, hkeep⟩ := hb'.turn
      obtain rfl := Except.ok.inj (hok'.symm.trans hok)
      exact hkeep

theorem Bounded.ends (hb : Bounded h flag tar d x p) : DeleteEnds h flag tar := by
  refine ⟨fun h₁ tar₁ tmp hr hpar => ?_, ?_⟩
  · obtain ⟨x', p', hb'⟩ := Bounded.reached (a := (h, flag, tar)) hb hr
    have htop := hb'.par_eq.symm.trans hpar
    cases p' with
    | nil => cases htop
    | cons f p' =>
      obtain rfl : f.id = tmp := Option.some.inj htop
      obtain ⟨h₂, flag₂, tar₂, v, hok, hm, hsib, hblack, hred, -⟩ := hb'.turn
      exact ⟨h₂, flag₂, tar₂, v, hok, hm, hsib, hblack, hred⟩
  · obtain ⟨h', y, hfix, -⟩ := delete_fix_spec (rounds flag p) hb.sink (Nat.le_refl _)
    have hm := hb.measure_eq
    exact ⟨h', fun fuel hlt => deleteFix_mono hfix (by omega)⟩

end Delete

section Reached

variable {s : State K V} {T : Nat → Tree Nat K V} {fl : List Nat} {fuel : Nat} {tree : RbtreeT K}

theorem insert_ends (hf : rbtreeNodePoolNum + 2 ≤ fuel) (hP : Pooled s T fl) {t : Nat}
    (ht : s.trees[t]? = some tree) (k : K) (v : V) {tar tmp : Nat} {pool : Pool K V}
    (halloc : rbtreeNodeAlloc s.pool = .ok (tar, pool)) (hhead : tree.head = some tmp) :
    ∃ h₁, insertDescend tree.comp tar fuel (fresh pool.heap tar k v) tmp = .ok h₁ ∧
      InsertEnds h₁ tree.head tar := by
  have hL := hP.linked t tree ht
  have hlen := hP.length_le t
  have he : rbtreeNodeAlloc s.pool ≠ .error .abort := by
    rw [halloc]
    intro heq
    cases heq
  obtain ⟨tar', ls', n', fl', hok, ha⟩ := alloc_spec hP.queue he
  cases hok.symm.trans halloc
  have hnew := ha.not_mem (T := T t) (fun i hi => ⟨fun h1 => hP.free t hi h1, hP.mem_lt hi⟩)
  obtain ⟨h₁, f, p, hdesc, -, -, hple, hclimb, -⟩ := descend_climb tree.comp
    (fresh_shape hL.shape hnew k v) hL.redBlack (hL.head.trans hhead) hnew (fresh_self _ _ k v)
    (show (T t).ids.length < fuel by omega)
  rw [hL.head] at hclimb
  exact ⟨h₁, hdesc, Climbing.ends ⟨f :: p, _, 0, hclimb, hple.trans hlen⟩⟩

theorem delete_ends (hf : rbtreeNodePoolNum + 2 ≤ fuel) (hP : Pooled s T fl) {t i : Nat}
    (ht : s.trees[t]? = some tree) {k : K}
    (hsearch : rbtreeSearch tree.comp fuel s.pool.heap tree.head k = .ok (some i)) :
    ∃ h₁ head d, deleteSelect fuel s.pool.heap tree.head i = .ok (h₁, head, d) ∧
      DeleteEnds h₁ (decide ((h₁ d).color = .black)) d := by
  have hL := hP.linked t tree ht
  have hlen := hP.length_le t
  rw [← hL.head] at hsearch ⊢
  obtain ⟨pa, c, l, k₀, v₀, r, -, -, h₁, d, dc, y, dk, dv, hselect, hsel, -⟩ :=
    search_select hL.shape hL.redBlack hsearch (by omega)
  have hcol : (h₁ d).color = dc := (hsel.edit.shape.focus.at_root rfl).2
  refine ⟨h₁, _, d, hselect, ?_⟩
  rw [hcol]
  refine Bounded.ends ⟨hsel.sink, ?_⟩
  exact (hsel.edit.length hL.shape.nodup).trans_le hlen

/-- In every state that insertions and deletions reach, for every tree and every key:
the fix-up loops of an insertion and of a deletion of a key that is there both end. -/
theorem fix_loops_end (hf : rbtreeNodePoolNum + 2 ≤ fuel) (h : Heap K V) (q : Queue)
    (ops : List (Op K V)) (s : State K V) (hrun : run (step fuel) (State.init h q) ops = some s)
    (t : Nat) (tree : RbtreeT K) (ht : s.trees[t]? = some tree) (k : K) :
    (∀ v tar pool tmp, rbtreeNodeAlloc s.pool = .ok (tar, pool) → tree.head = some tmp →
      ∃ h₁, insertDescend tree.comp tar fuel (fresh pool.heap tar k v) tmp = .ok h₁ ∧
        InsertEnds h₁ tree.head tar) ∧
    (Present fuel s tree k →
      ∃ i h₁ head d, rbtreeSearch tree.comp fuel s.pool.heap tree.head k = .ok (some i) ∧
        deleteSelect fuel s.pool.heap tree.head i = .ok (h₁, head, d) ∧
        DeleteEnds h₁ (decide ((h₁ d).color = .black)) d) := by
  obtain ⟨T, fl, hP, hsorted⟩ := run_kept hf hrun
  refine ⟨fun v tar pool tmp halloc hhead => insert_ends hf hP ht k v halloc hhead, fun hpres => ?_⟩
  obtain ⟨i, hsearch⟩ := hpres.found hf hP hsorted ht
  obtain ⟨h₁, head, d, hselect, hends⟩ := delete_ends hf hP ht hsearch
  exact ⟨i, h₁, head, d, hsearch, hselect, hends⟩

/-- A black root with two red children, below which a further insertion has to recolour. -/
def threeKeys : List (Op Nat Nat) :=
  [.alloc natOrder, .insert 0 4 40, .insert 0 2 20, .insert 0 6 60]

theorem fix_loops_end_three :
    ∃ s tree, run (step 1026) (State.init blankHeap blankQueue) threeKeys = some s ∧
      s.trees[0]? = some tree ∧
      (∃ tar pool tmp h₁, rbtreeNodeAlloc s.pool = .ok (tar, pool) ∧ tree.head = some tmp ∧
        insertDescend tree.comp tar 1026 (fresh pool.heap tar 4 44) tmp = .ok h₁ ∧
        InsertEnds h₁ tree.head tar) ∧
      ∃ i h₁ head d, deleteSelect 1026 s.pool.heap tree.head i = .ok (h₁, head, d) ∧
        DeleteEnds h₁ (decide ((h₁ d).color = .black)) d := by
  let s := (run (step 1026) (State.init blankHeap blankQueue) threeKeys).get (by decide +kernel)
  have hrun : run (step 1026) (State.init blankHeap blankQueue) threeKeys = some s :=
    (Option.some_get _).symm
  let tree := s.trees.head (by decide +kernel)
  have ht : s.trees[0]? = some tree := List.head?_eq_some_head _ ▸ List.head?_eq_getElem?.symm
  let tmp := tree.head.get (by decide +kernel)
  let r := (rbtreeNodeAlloc s.pool).toOption.get (by decide +kernel)
  have halloc : rbtreeNodeAlloc s.pool = .ok r := by
    have hr : (rbtreeNodeAlloc s.pool).toOption = some r := (Option.some_get _).symm
    cases ha : rbtreeNodeAlloc s.pool with
    | error e => simp [ha, Except.toOption] at hr
    | ok r' =>
      rw [ha] at hr
      exact congrArg Except.ok (Option.some.inj hr)
  have hpres : Present 1026 s tree 4 := .inr ⟨natOrder_total, by decide +kernel⟩
  obtain ⟨hins, hdel⟩ := fix_loops_end (by decide) blankHeap blankQueue threeKeys s hrun 0 tree ht 4
  have hhead : tree.head = some tmp := (Option.some_get _).symm
  obtain ⟨h₁, hdesc, hends⟩ := hins 44 r.1 r.2 tmp halloc hhead
  obtain ⟨i, h₂, head, d, -, hselect, hends'⟩ := hdel hpres
  exact ⟨s, tree, hrun, ht, ⟨r.1, r.2, tmp, h₁, halloc, hhead, hdesc, hends⟩, i, h₂, head, d, hselect,
    hends'⟩

end Reached

end Dmos.Proofs.FixTermination
