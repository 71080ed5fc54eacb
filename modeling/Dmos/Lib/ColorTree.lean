import Mathlib.Data.List.Basic

namespace Dmos.Lib

inductive Color where
  | red
  | black
  deriving DecidableEq, Repr

theorem Color.eq_black_iff (c : Color) : c = .black ↔ c ≠ .red := by cases c <;> simp

inductive Side where
  | left
  | right
  deriving DecidableEq, Repr

def Side.other : Side → Side
  | .left => .right
  | .right => .left

@[simp] theorem Side.other_left : Side.left.other = .right := rfl
@[simp] theorem Side.other_right : Side.right.other = .left := rfl

/-- Binary trees with coloured nodes. A node has an identity, so that a tree can
be compared with nodes in a heap. -/
inductive Tree (I K V : Type) where
  | nil
  | node (id : I) (c : Color) (l : Tree I K V) (k : K) (v : V) (r : Tree I K V)

variable {I K V : Type}

namespace Tree

def root : Tree I K V → Option I
  | nil => none
  | node id _ _ _ _ _ => some id

def ids : Tree I K V → List I
  | nil => []
  | node id _ l _ _ r => id :: (l.ids ++ r.ids)

/-- The keys and values in order. -/
def entries : Tree I K V → List (K × V)
  | nil => []
  | node _ _ l k v r => l.entries ++ (k, v) :: r.entries

/-- The colour of the root; the empty tree counts as black. -/
def color : Tree I K V → Color
  | nil => .black
  | node _ c _ _ _ _ => c

@[simp] theorem root_nil : (nil : Tree I K V).root = none := rfl

@[simp] theorem root_node (id : I) (c : Color) (l r : Tree I K V) (k : K) (v : V) :
    (node id c l k v r).root = some id := rfl

/-- A node with its children named by their side: `near` hangs on side `s`. -/
def mk (s : Side) (id : I) (c : Color) (near : Tree I K V) (k : K) (v : V) (far : Tree I K V) :
    Tree I K V :=
  match s with
  | .left => node id c near k v far
  | .right => node id c far k v near

/-- Every node is a `mk` on either side. -/
theorem node_eq_mk (s : Side) (id : I) (c : Color) (l : Tree I K V) (k : K) (v : V)
    (r : Tree I K V) : ∃ a b, node id c l k v r = mk s id c a k v b := by
  cases s
  · exact ⟨l, r, rfl⟩
  · exact ⟨r, l, rfl⟩

theorem mk_other (s : Side) (id : I) (c : Color) (a b : Tree I K V) (k : K) (v : V) :
    mk s id c a k v b = mk s.other id c b k v a := by cases s <;> rfl

section Mk

variable (s : Side) (id : I) (c : Color) (a b : Tree I K V) (k : K) (v : V)

@[simp] theorem root_mk : (mk s id c a k v b).root = some id := by cases s <;> rfl

@[simp] theorem color_mk : (mk s id c a k v b).color = c := by cases s <;> rfl

@[simp] theorem mem_ids_mk (i : I) :
    i ∈ (mk s id c a k v b).ids ↔ i = id ∨ i ∈ a.ids ∨ i ∈ b.ids := by
  cases s <;> simp [mk, ids, or_comm]

theorem nodup_mk : (mk s id c a k v b).ids.Nodup ↔
    id ∉ a.ids ∧ id ∉ b.ids ∧ a.ids.Nodup ∧ b.ids.Nodup ∧ a.ids.Disjoint b.ids := by
  cases s
  · simp only [mk, ids, List.nodup_cons, List.mem_append, not_or, List.nodup_append]
    grind [List.Disjoint]
  · simp only [mk, ids, List.nodup_cons, List.mem_append, not_or, List.nodup_append]
    grind [List.Disjoint]

end Mk

theorem root_mem {t : Tree I K V} {i : I} (h : t.root = some i) : i ∈ t.ids := by
  cases t with
  | nil => cases h
  | node id c l k v r =>
    obtain rfl : id = i := Option.some.inj h
    simp [ids]

theorem root_ne {t : Tree I K V} {i : I} (h : i ∉ t.ids) : t.root ≠ some i :=
  fun hr => h (root_mem hr)

theorem root_ne_of_disjoint {t u : Tree I K V} {i : I} (hd : t.ids.Disjoint u.ids)
    (hi : i ∈ t.ids) : u.root ≠ some i :=
  root_ne (fun hu => hd hi hu)

theorem root_eq_none {t : Tree I K V} (h : t.root = none) : t = nil := by
  cases t with
  | nil => rfl
  | node => cases h

theorem root_eq_some {t : Tree I K V} {i : I} (h : t.root = some i) :
    ∃ c l k v r, t = node i c l k v r := by
  cases t with
  | nil => cases h
  | node id c l k v r =>
    obtain rfl : id = i := Option.some.inj h
    exact ⟨c, l, k, v, r, rfl⟩

/-- No red node has a red child, and every path down has `n` black nodes. -/
inductive Balanced : Tree I K V → Nat → Prop where
  | nil : Balanced nil 0
  | red {id : I} {l r : Tree I K V} {k : K} {v : V} {n : Nat} :
    Balanced l n → Balanced r n → l.color = .black → r.color = .black →
    Balanced (node id .red l k v r) n
  | black {id : I} {l r : Tree I K V} {k : K} {v : V} {n : Nat} :
    Balanced l n → Balanced r n → Balanced (node id .black l k v r) (n + 1)

section Balanced

variable {s : Side} {id : I} {a b : Tree I K V} {k : K} {v : V} {n : Nat}

theorem balanced_mk_red : (mk s id .red a k v b).Balanced n ↔
    a.Balanced n ∧ b.Balanced n ∧ a.color = .black ∧ b.color = .black := by
  cases s
  · exact ⟨fun h => by cases h with | red h1 h2 h3 h4 => exact ⟨h1, h2, h3, h4⟩,
      fun h => .red h.1 h.2.1 h.2.2.1 h.2.2.2⟩
  · exact ⟨fun h => by cases h with | red h1 h2 h3 h4 => exact ⟨h2, h1, h4, h3⟩,
      fun h => .red h.2.1 h.1 h.2.2.2 h.2.2.1⟩

theorem balanced_mk_black : (mk s id .black a k v b).Balanced n ↔
    ∃ m, n = m + 1 ∧ a.Balanced m ∧ b.Balanced m := by
  cases s
  · exact ⟨fun h => by cases h with | black h1 h2 => exact ⟨_, rfl, h1, h2⟩,
      fun ⟨m, hn, h1, h2⟩ => hn ▸ .black h1 h2⟩
  · exact ⟨fun h => by cases h with | black h1 h2 => exact ⟨_, rfl, h2, h1⟩,
      fun ⟨m, hn, h1, h2⟩ => hn ▸ .black h2 h1⟩

/-- A tree of positive black height with a black root is a black node. -/
theorem Balanced.exists_mk {t : Tree I K V} (h : t.Balanced (n + 1)) (hc : t.color = .black)
    (s : Side) : ∃ id a k v b, t = mk s id .black a k v b ∧ a.Balanced n ∧ b.Balanced n := by
  cases h with
  | red => cases hc
  | black hl hr =>
    cases s
    · exact ⟨_, _, _, _, _, rfl, hl, hr⟩
    · exact ⟨_, _, _, _, _, rfl, hr, hl⟩

theorem Balanced.exists_mk_red {t : Tree I K V} (h : t.Balanced n) (hc : t.color = .red)
    (s : Side) : ∃ id a k v b, t = mk s id .red a k v b ∧ a.Balanced n ∧ b.Balanced n ∧
      a.color = .black ∧ b.color = .black := by
  cases h with
  | nil => cases hc
  | black => cases hc
  | red hl hr hlc hrc =>
    cases s
    · exact ⟨_, _, _, _, _, rfl, hl, hr, hlc, hrc⟩
    · exact ⟨_, _, _, _, _, rfl, hr, hl, hrc, hlc⟩

end Balanced

/-- Balanced, with a black root. -/
def RedBlack (t : Tree I K V) : Prop := (∃ n, t.Balanced n) ∧ t.color = .black

/-- Making the root black keeps a tree balanced. -/
theorem Balanced.blacken {s : Side} {id : I} {c : Color} {a b : Tree I K V} {k : K} {v : V}
    {n : Nat} (h : (mk s id c a k v b).Balanced n) : (mk s id .black a k v b).RedBlack := by
  cases c with
  | red =>
    obtain ⟨ha, hb, -⟩ := balanced_mk_red.mp h
    exact ⟨⟨n + 1, balanced_mk_black.mpr ⟨n, rfl, ha, hb⟩⟩, color_mk _ _ _ _ _ _ _⟩
  | black => exact ⟨⟨n, h⟩, color_mk _ _ _ _ _ _ _⟩

end Tree

/-- A step of the way from a hole up to the root: the node above, the side on
which the hole hangs, and the other subtree of the node. -/
structure Crumb (I K V : Type) where
  side : Side
  id : I
  color : Color
  key : K
  val : V
  sib : Tree I K V

/-- A tree with a hole, from the hole upwards. -/
abbrev Path (I K V : Type) := List (Crumb I K V)

def Crumb.fill (f : Crumb I K V) (t : Tree I K V) : Tree I K V :=
  .mk f.side f.id f.color t f.key f.val f.sib

namespace Path

def plug : Path I K V → Tree I K V → Tree I K V
  | [], t => t
  | f :: p, t => plug p (f.fill t)

/-- The node above the hole. -/
def top : Path I K V → Option I
  | [] => none
  | f :: _ => some f.id

/-- The colour of the node above the hole. The place above the root counts as
red, so that the root has to be black. -/
def color : Path I K V → Color
  | [] => .red
  | f :: _ => f.color

def ids : Path I K V → List I
  | [] => []
  | f :: p => f.id :: (f.sib.ids ++ ids p)

theorem length_le_ids (p : Path I K V) : p.length ≤ (ids p).length := by
  induction p with
  | nil => simp
  | cons f p ih =>
    simp only [ids, List.length_cons, List.length_append]
    omega

/-- The entries in front of the hole. -/
def before : Path I K V → List (K × V)
  | [] => []
  | f :: p => before p ++ (match f.side with
    | .left => []
    | .right => f.sib.entries ++ [(f.key, f.val)])

/-- The entries after the hole. -/
def after : Path I K V → List (K × V)
  | [] => []
  | f :: p => (match f.side with
    | .left => (f.key, f.val) :: f.sib.entries
    | .right => []) ++ after p

theorem entries_plug (p : Path I K V) (t : Tree I K V) :
    (p.plug t).entries = p.before ++ t.entries ++ p.after := by
  induction p generalizing t with
  | nil => simp [plug, before, after]
  | cons f p ih =>
    rw [plug, ih]
    cases hs : f.side <;> simp [Crumb.fill, hs, Tree.mk, Tree.entries, before, after]

theorem plug_append (p q : Path I K V) (t : Tree I K V) :
    Path.plug (p ++ q) t = q.plug (p.plug t) := by
  induction p generalizing t with
  | nil => rfl
  | cons f p ih => exact ih _

theorem before_append (p q : Path I K V) : before (p ++ q) = before q ++ before p := by
  induction p with
  | nil => simp [before]
  | cons f p ih => simp [before, ih]

theorem after_append (p q : Path I K V) : after (p ++ q) = after p ++ after q := by
  induction p with
  | nil => simp [after]
  | cons f p ih => simp [after, ih]

theorem entries_plug_congr (p : Path I K V) {t t' : Tree I K V} (h : t'.entries = t.entries) :
    (p.plug t').entries = (p.plug t).entries := by
  rw [entries_plug, entries_plug, h]

/-- What is above the hole decides the root, if anything is. -/
theorem root_plug {p : Path I K V} (hp : p ≠ []) (t t' : Tree I K V) :
    (p.plug t').root = (p.plug t).root := by
  induction p generalizing t t' with
  | nil => exact absurd rfl hp
  | cons f p ih =>
    cases p with
    | nil => simp [plug, Crumb.fill]
    | cons g p => exact ih (by simp) _ _

theorem root_plug_congr (p : Path I K V) {t t' : Tree I K V} (h : t'.root = t.root) :
    (p.plug t').root = (p.plug t).root := by
  cases p with
  | nil => exact h
  | cons f p => exact root_plug (by simp) t t'

theorem perm_ids_fill (f : Crumb I K V) (t : Tree I K V) :
    (f.fill t).ids.Perm (t.ids ++ f.id :: f.sib.ids) := by
  unfold Crumb.fill
  cases f.side
  · exact List.perm_middle.symm
  · refine (List.Perm.cons _ List.perm_append_comm).trans ?_
    exact List.perm_middle.symm

theorem perm_ids_plug (p : Path I K V) (t : Tree I K V) :
    (p.plug t).ids.Perm (t.ids ++ p.ids) := by
  induction p generalizing t with
  | nil => simp [plug, ids]
  | cons f p ih =>
    refine (ih _).trans (((perm_ids_fill f t).append_right _).trans ?_)
    simp [ids]

/-- A tree that lacks a subtree of black height `n` at the hole. -/
inductive Balanced : Path I K V → Nat → Prop where
  | nil {n : Nat} : Balanced [] n
  | red {s : Side} {id : I} {k : K} {v : V} {t : Tree I K V} {p : Path I K V} {n : Nat} :
    t.Balanced n → t.color = .black → p.color = .black → Balanced p n →
    Balanced (⟨s, id, .red, k, v, t⟩ :: p) n
  | black {s : Side} {id : I} {k : K} {v : V} {t : Tree I K V} {p : Path I K V} {n : Nat} :
    t.Balanced n → Balanced p (n + 1) → Balanced (⟨s, id, .black, k, v, t⟩ :: p) n

theorem Balanced.sib {f : Crumb I K V} {p : Path I K V} {n : Nat}
    (h : Path.Balanced (f :: p) n) : f.sib.Balanced n := by
  cases h with
  | red ht => exact ht
  | black ht => exact ht

/-- Not both the subtree and the node above it are red. -/
def Fits (p : Path I K V) (t : Tree I K V) : Prop := t.color = .black ∨ p.color = .black

/-- A balanced tree with a black root from a hole and what fits in it. -/
theorem Balanced.plug {p : Path I K V} {t : Tree I K V} {n : Nat} (hp : p.Balanced n)
    (ht : t.Balanced n) (hf : p.Fits t) : (p.plug t).RedBlack := by
  induction hp generalizing t with
  | nil =>
    rcases hf with h | h
    · exact ⟨⟨_, ht⟩, h⟩
    · cases h
  | red hs hsc hpc _ ih =>
    rcases hf with h | h
    · exact ih (Tree.balanced_mk_red.mpr ⟨ht, hs, h, hsc⟩) (.inr hpc)
    · cases h
  | black hs _ ih =>
    exact ih (Tree.balanced_mk_black.mpr ⟨_, rfl, ht, hs⟩) (.inl (Tree.color_mk _ _ _ _ _ _ _))

/-- One step down from a node that fits. -/
theorem Balanced.down {p : Path I K V} {s : Side} {id : I} {c : Color} {a b : Tree I K V} {k : K}
    {v : V} {n : Nat} (hp : p.Balanced n) (ht : (Tree.mk s id c a k v b).Balanced n)
    (hf : p.Fits (.mk s id c a k v b)) :
    ∃ m, Balanced (⟨s, id, c, k, v, b⟩ :: p) m ∧ a.Balanced m ∧
      Fits (⟨s, id, c, k, v, b⟩ :: p) a := by
  cases c with
  | red =>
    obtain ⟨ha, hb, hac, hbc⟩ := Tree.balanced_mk_red.mp ht
    rcases hf with h | h
    · simp at h
    · exact ⟨n, .red hb hbc h hp, ha, .inl hac⟩
  | black =>
    obtain ⟨m, rfl, ha, hb⟩ := Tree.balanced_mk_black.mp ht
    exact ⟨m, .black hb hp, ha, .inr rfl⟩

/-- The way down to any subtree of a red-black tree. -/
theorem Balanced.focus {p z : Path I K V} {t : Tree I K V} {n : Nat} (hp : p.Balanced n)
    (ht : (z.plug t).Balanced n) (hf : p.Fits (z.plug t)) :
    ∃ m, Balanced (z ++ p) m ∧ t.Balanced m ∧ Fits (z ++ p) t := by
  induction z generalizing t with
  | nil => exact ⟨n, hp, ht, hf⟩
  | cons f z ih =>
    obtain ⟨m, hz, hft, hfit⟩ := ih (t := f.fill t) ht hf
    exact hz.down hft hfit

end Path

namespace Tree

theorem RedBlack.focus {p : Path I K V} {t : Tree I K V} (h : (p.plug t).RedBlack) :
    ∃ n, p.Balanced n ∧ t.Balanced n ∧ p.Fits t := by
  obtain ⟨⟨n, hb⟩, hc⟩ := h
  simpa using Path.Balanced.focus (p := []) .nil hb (.inl hc)

/-- Neither the balance nor the colour depends on the entries. -/
theorem Balanced.entry {s : Side} {id : I} {c : Color} {a b : Tree I K V} {k : K} {v : V} {n : Nat}
    (h : (mk s id c a k v b).Balanced n) (k' : K) (v' : V) : (mk s id c a k' v' b).Balanced n := by
  cases c with
  | red => exact balanced_mk_red.mpr (balanced_mk_red.mp h)
  | black => exact balanced_mk_black.mpr (balanced_mk_black.mp h)

theorem RedBlack.entry {p : Path I K V} {s : Side} {id : I} {c : Color} {a b : Tree I K V} {k : K}
    {v : V} (h : (p.plug (mk s id c a k v b)).RedBlack) (k' : K) (v' : V) :
    (p.plug (mk s id c a k' v' b)).RedBlack := by
  obtain ⟨n, hp, ht, hf⟩ := h.focus
  exact hp.plug (ht.entry k' v') (by simpa [Path.Fits] using hf)

/-- Below black height one there is at most a red leaf. -/
theorem Balanced.leaf {t : Tree I K V} (h : t.Balanced 0) :
    t = .nil ∨ ∃ id k v, t = .node id .red .nil k v .nil := by
  have hnil : ∀ {u : Tree I K V}, u.Balanced 0 → u.color = .black → u = .nil := by
    intro u hu hc
    cases hu with
    | nil => rfl
    | red => cases hc
  cases h with
  | nil => exact .inl rfl
  | red hl hr hlc hrc =>
    obtain rfl := hnil hl hlc
    obtain rfl := hnil hr hrc
    exact .inr ⟨_, _, _, rfl⟩

/-- Beside an empty subtree there is at most a red leaf. -/
theorem Balanced.beside_nil {s : Side} {id : I} {c : Color} {t : Tree I K V} {k : K} {v : V}
    {n : Nat} (h : (mk s id c .nil k v t).Balanced n) :
    t = .nil ∨ ∃ id k v, t = .node id .red .nil k v .nil := by
  cases c with
  | red =>
    obtain ⟨hn, ht, -⟩ := balanced_mk_red.mp h
    cases hn
    exact ht.leaf
  | black =>
    obtain ⟨m, rfl, hn, ht⟩ := balanced_mk_black.mp h
    cases hn
    exact ht.leaf

end Tree

end Dmos.Lib
