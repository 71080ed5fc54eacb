import Mathlib.Data.List.ReduceOption
import Mathlib.Data.List.Perm.Basic

namespace Dmos.Lib

variable {α : Type}

/-- Puts an element into the first free slot. On the way it takes the place of each
element of larger rank, which is carried on in its stead. Returns the slots and what
is left over when there was no free one. -/
def displace (rank : α → Nat) : List (Option α) → α → List (Option α) × Option α
  | [], a => ([], some a)
  | none :: s, a => (some a :: s, none)
  | some b :: s, a =>
    if rank b > rank a then
      let (s', d) := displace rank s b
      (some a :: s', d)
    else
      let (s', d) := displace rank s a
      (some b :: s', d)

variable (rank : α → Nat)

theorem displace_free (a : α) {s : List (Option α)} (h : none ∈ s) :
    (displace rank s a).2 = none ∧
      ((displace rank s a).1.reduceOption).Perm (a :: s.reduceOption) := by
  induction s generalizing a with
  | nil => cases h
  | cons o s ih =>
    cases o with
    | none => exact ⟨rfl, .rfl⟩
    | some b =>
      have hs : none ∈ s := by simpa using h
      unfold displace
      split
      · obtain ⟨hd, hp⟩ := ih b hs
        exact ⟨hd, by simpa using hp⟩
      · obtain ⟨hd, hp⟩ := ih a hs
        refine ⟨hd, ?_⟩
        simp only [List.reduceOption_cons_of_some]
        exact (hp.cons b).trans (.swap a b _)

/-- With no slot free, one element of largest rank is left over. -/
theorem displace_full (a : α) {s : List (Option α)} (h : none ∉ s) :
    ∃ d, (displace rank s a).2 = some d ∧
      (d :: (displace rank s a).1.reduceOption).Perm (a :: s.reduceOption) ∧
      ∀ x ∈ a :: s.reduceOption, rank x ≤ rank d := by
  induction s generalizing a with
  | nil => exact ⟨a, rfl, .rfl, by simp⟩
  | cons o s ih =>
    cases o with
    | none => exact absurd List.mem_cons_self h
    | some b =>
      have hs : none ∉ s := fun hmem => h (List.mem_cons_of_mem _ hmem)
      unfold displace
      split
      · rename_i hlt
        obtain ⟨d, hd, hp, hmax⟩ := ih b hs
        refine ⟨d, hd, ?_, ?_⟩
        · simp only [List.reduceOption_cons_of_some]
          exact (List.Perm.swap a d _).trans (hp.cons a)
        · intro x hx
          simp only [List.reduceOption_cons_of_some] at hx
          rcases List.mem_cons.mp hx with rfl | hx
          · exact Nat.le_trans (Nat.le_of_lt hlt) (hmax b List.mem_cons_self)
          · exact hmax x hx
      · rename_i hge
        obtain ⟨d, hd, hp, hmax⟩ := ih a hs
        refine ⟨d, hd, ?_, ?_⟩
        · simp only [List.reduceOption_cons_of_some]
          exact (List.Perm.swap b d _).trans ((hp.cons b).trans (.swap a b _))
        · intro x hx
          simp only [List.reduceOption_cons_of_some, List.mem_cons] at hx
          rcases hx with rfl | rfl | hx
          · exact hmax x List.mem_cons_self
          · exact Nat.le_trans (Nat.le_of_not_lt hge) (hmax a List.mem_cons_self)
          · exact hmax x (List.mem_cons_of_mem _ hx)

end Dmos.Lib
