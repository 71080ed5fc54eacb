import Dmos.Lib.ColorTree

namespace Dmos.Lib

variable {I K V : Type}

/-- A three-way comparison that induces a total preorder. `0 < comp a b` says that
`a` is strictly before `b`, `comp a b = 0` that they are equivalent. -/
structure TotalPreorder (comp : K → K → Int) : Prop where
  swap : ∀ a b, 0 < comp a b ↔ comp b a < 0
  trans : ∀ a b c, 0 ≤ comp a b → 0 ≤ comp b c → 0 ≤ comp a c

namespace TotalPreorder

variable {comp : K → K → Int} {a b c : K}

theorem le_swap (h : TotalPreorder comp) (hab : comp a b ≤ 0) : 0 ≤ comp b a := by
  have := h.swap a b
  omega

theorem eq_swap (h : TotalPreorder comp) (hab : comp a b = 0) : comp b a = 0 := by
  have h1 := h.swap a b
  have h2 := h.swap b a
  omega

theorem refl (h : TotalPreorder comp) (a : K) : comp a a = 0 := by
  have := h.swap a a
  omega

theorem lt_of_le_of_lt (h : TotalPreorder comp) (hab : 0 ≤ comp a b) (hbc : 0 < comp b c) :
    0 < comp a c := by
  by_contra hac
  have hcb := h.trans c a b (h.le_swap (by omega)) hab
  have := (h.swap b c).mp hbc
  omega

theorem lt_of_lt_of_le (h : TotalPreorder comp) (hab : 0 < comp a b) (hbc : 0 ≤ comp b c) :
    0 < comp a c := by
  by_contra hac
  have hba := h.trans b c a hbc (h.le_swap (by omega))
  have := (h.swap a b).mp hab
  omega

end TotalPreorder

/-- Entries in the (weak) order of the comparison. -/
def Sorted (comp : K → K → Int) (l : List (K × V)) : Prop :=
  l.Pairwise (fun x y => 0 ≤ comp x.1 y.1)

variable {comp : K → K → Int}

theorem sorted_iff_keys {l : List (K × V)} :
    Sorted comp l ↔ (l.map Prod.fst).Pairwise (fun a b => 0 ≤ comp a b) := by
  rw [Sorted, List.pairwise_map]

/-- The order depends on the keys only, and survives when some go. -/
theorem Sorted.of_sublist_keys {l l' : List (K × V)} (h : Sorted comp l)
    (hs : (l'.map Prod.fst).Sublist (l.map Prod.fst)) : Sorted comp l' :=
  sorted_iff_keys.mpr ((sorted_iff_keys.mp h).sublist hs)

namespace Path

variable {p : Path I K V} {t : Tree I K V}

/-- Whatever is in front of the hole is not after some node that the hole is to
the right of. -/
theorem before_le (hc : TotalPreorder comp) (hs : Sorted comp (p.plug t).entries) {e : K × V}
    (he : e ∈ p.before) : ∃ f ∈ p, f.side = .right ∧ 0 ≤ comp e.1 f.key := by
  induction p generalizing t with
  | nil => cases he
  | cons f p ih =>
    rw [before, List.mem_append] at he
    rcases he with he | he
    · obtain ⟨g, hg, hr⟩ := ih hs he
      exact ⟨g, List.mem_cons_of_mem _ hg, hr⟩
    · cases hside : f.side with
      | left => simp [hside] at he
      | right =>
        refine ⟨f, List.mem_cons_self, hside, ?_⟩
        simp only [hside, List.mem_append, List.mem_singleton] at he
        rcases he with he | rfl
        · have hs' : Sorted comp (before p ++ (f.sib.entries ++ (f.key, f.val) ::
              (t.entries ++ after p))) := by simpa [entries_plug, before, after, hside] using hs
          have hsib := (List.pairwise_append.mp hs').2.1
          exact (List.pairwise_append.mp hsib).2.2 e he _ List.mem_cons_self
        · simp [hc.refl]

/-- Whatever is after the hole is not in front of some node that the hole is to
the left of. -/
theorem le_after (hc : TotalPreorder comp) (hs : Sorted comp (p.plug t).entries) {e : K × V}
    (he : e ∈ p.after) : ∃ f ∈ p, f.side = .left ∧ 0 ≤ comp f.key e.1 := by
  induction p generalizing t with
  | nil => cases he
  | cons f p ih =>
    rw [after, List.mem_append] at he
    rcases he with he | he
    · cases hside : f.side with
      | right => simp [hside] at he
      | left =>
        refine ⟨f, List.mem_cons_self, hside, ?_⟩
        simp only [hside, List.mem_cons] at he
        rcases he with rfl | he
        · simp [hc.refl]
        · have hs' : Sorted comp ((before p ++ t.entries) ++ ((f.key, f.val) ::
              f.sib.entries ++ after p)) := by simpa [entries_plug, before, after, hside] using hs
          have hsib := (List.pairwise_append.mp hs').2.1
          have hsib' := (List.pairwise_append.mp hsib).1
          exact (List.pairwise_cons.mp hsib').1 e he
    · obtain ⟨g, hg, hr⟩ := ih hs he
      exact ⟨g, List.mem_cons_of_mem _ hg, hr⟩

/-- The place for key `k`: not in front of what is to its left, not after what is
to its right. -/
def Aims (comp : K → K → Int) (k : K) (p : Path I K V) : Prop :=
  ∀ f ∈ p, match f.side with
    | .right => 0 < comp f.key k
    | .left => comp f.key k ≤ 0

/-- An entry put where its key aims keeps the order. -/
theorem Aims.sorted {k : K} {v : V} {t' : Tree I K V} (ha : Aims comp k p)
    (hc : TotalPreorder comp) (hs : Sorted comp (p.plug t).entries) (ht : t.entries = [])
    (ht' : t'.entries = [(k, v)]) : Sorted comp (p.plug t').entries := by
  have hb : ∀ e ∈ p.before, 0 ≤ comp e.1 k := by
    intro e he
    obtain ⟨f, hf, hside, hle⟩ := before_le hc hs he
    have hk := ha f hf
    rw [hside] at hk
    exact hc.trans _ _ _ hle (Int.le_of_lt hk)
  have hf : ∀ e ∈ p.after, 0 ≤ comp k e.1 := by
    intro e he
    obtain ⟨f, hf, hside, hle⟩ := le_after hc hs he
    have hk := ha f hf
    rw [hside] at hk
    exact hc.trans _ _ _ (hc.le_swap hk) hle
  rw [entries_plug, ht, List.append_nil] at hs
  obtain ⟨h1, h2, h3⟩ := List.pairwise_append.mp hs
  rw [entries_plug, ht', List.append_assoc]
  refine List.pairwise_append.mpr ⟨h1, List.pairwise_cons.mpr ⟨hf, h2⟩, ?_⟩
  intro x hx y hy
  rcases List.mem_cons.mp hy with rfl | hy
  · exact hb x hx
  · exact h3 x hx y hy

/-- Nothing on the way to the hole is equivalent to `k`, and `k` is sent on to
the right side. -/
def Misses (comp : K → K → Int) (k : K) (p : Path I K V) : Prop :=
  ∀ f ∈ p, match f.side with
    | .right => 0 < comp f.key k
    | .left => comp f.key k < 0

theorem Misses.ne {k : K} (ha : Misses comp k p) (hc : TotalPreorder comp)
    (hs : Sorted comp (p.plug t).entries) {e : K × V} (he : e ∈ p.before ∨ e ∈ p.after) :
    comp e.1 k ≠ 0 := by
  rcases he with he | he
  · obtain ⟨f, hf, hside, hle⟩ := before_le hc hs he
    have hk := ha f hf
    rw [hside] at hk
    have hlt := hc.lt_of_le_of_lt hle hk
    omega
  · obtain ⟨f, hf, hside, hle⟩ := le_after hc hs he
    have hk := ha f hf
    rw [hside] at hk
    have hlt := hc.lt_of_lt_of_le ((hc.swap k f.key).mpr hk) hle
    have hgt := (hc.swap k e.1).mp hlt
    omega

end Path

end Dmos.Lib
