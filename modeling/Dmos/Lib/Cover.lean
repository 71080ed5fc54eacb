import Mathlib.Data.Finset.Card
import Mathlib.Data.Finset.Range

namespace Dmos.Lib

/-- A partial map from `m` holders reaches at most `m` of the items. -/
theorem le_of_cover {m n : Nat} (f : Nat → Option Nat)
    (h : ∀ t < n, ∃ c < m, f c = some t) : n ≤ m := by
  choose! g hg using h
  have hmaps : ∀ t ∈ Finset.range n, g t ∈ Finset.range m := by
    intro t ht
    exact Finset.mem_range.mpr (hg t (Finset.mem_range.mp ht)).1
  have hinj : Set.InjOn g (Finset.range n : Set Nat) := by
    intro t ht u hu he
    have h1 := (hg t (by simpa using ht)).2
    have h2 := (hg u (by simpa using hu)).2
    rw [he, h2] at h1
    exact (Option.some.inj h1).symm
  simpa using Finset.card_le_card_of_injOn g hmaps hinj

/-- Fewer holders than items leave some item without one. -/
theorem exists_uncovered {m n : Nat} (f : Nat → Option Nat) (h : m < n) :
    ∃ t < n, ∀ c < m, f c ≠ some t := by
  by_contra hc
  push Not at hc
  have := le_of_cover f hc
  omega

/-- The holders of the items in `X` stay exclusive when one of them moves to an item
that no other holds. -/
theorem exclusive_move {m c : Nat} {f f' : Nat → Option Nat} {X : Nat → Prop} {n : Nat}
    (hc : f' c = some n) (hother : ∀ d, d ≠ c → f' d = f d)
    (hex : ∀ d < m, ∀ e < m, ∀ t, X t → f d = some t → f e = some t → d = e)
    (hfree : X n → ∀ d < m, f d ≠ some n) :
    ∀ d < m, ∀ e < m, ∀ t, X t → f' d = some t → f' e = some t → d = e := by
  intro d hd e he t hX ht hu
  by_cases hdc : d = c
  · by_cases hec : e = c
    · rw [hdc, hec]
    · rw [hdc, hc] at ht
      rw [hother e hec] at hu
      obtain rfl := Option.some.inj ht
      exact absurd hu (hfree hX e he)
  · rw [hother d hdc] at ht
    by_cases hec : e = c
    · rw [hec, hc] at hu
      obtain rfl := Option.some.inj hu
      exact absurd ht (hfree hX d hd)
    · rw [hother e hec] at hu
      exact hex d hd e he t hX ht hu

end Dmos.Lib
