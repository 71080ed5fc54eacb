import Mathlib.Data.Finset.Card
import Mathlib.Data.Finset.Dedup
import Mathlib.Data.List.Chain
import Dmos.Lib.Linked
import Dmos.Queue

namespace Dmos.Proofs.QueueCheck
open Queue Lib

variable {q : Queue} {H : Finset QueueRef} {tmp : QueueRef} {us l : List QueueRef} {fuel : Nat}

/-- A finite heap of nodes with the queue's sentinels: every link is null or stays in it. -/
structure Heap (H : Finset QueueRef) (q : Queue) : Prop where
  head : .head ∈ H
  tail : .tail ∈ H
  next : ∀ r ∈ H, ∀ s ∈ (q r).next, s ∈ H
  prev : ∀ r ∈ H, ∀ s ∈ (q r).prev, s ∈ H

/-- `b` follows `a`, and both links say so. -/
def Joined (q : Queue) (a b : QueueRef) : Prop := (q a).next = some b ∧ (q b).prev = some a

/-- The outer links are null, and the way from the head along `next` meets distinct nodes,
each with its predecessor as `prev`, and ends at the tail. -/
def Intact (q : Queue) : Prop :=
  (q .head).prev = none ∧ (q .tail).next = none ∧
    ∃ l : List QueueRef, l.Nodup ∧ l.head? = some .head ∧ l.getLast? = some .tail ∧
      l.IsChain (Joined q)

/-- The nodes that the loop has met, the last one first. -/
structure Met (H : Finset QueueRef) (q : Queue) (tmp : QueueRef) (us : List QueueRef) : Prop where
  chain : (tmp :: us).IsChain fun b a => Joined q a b
  first : (tmp :: us).getLast? = some .head
  inside : ∀ r ∈ tmp :: us, r ∈ H

/-- The head has no predecessor, so no node is met twice. -/
theorem Met.nodup (h : Met H q tmp us) (hhead : (q .head).prev = none) : (tmp :: us).Nodup := by
  have htrail : Trail (fun r => (q r).prev) (some tmp) (tmp :: us) := by
    apply Trail.of_isChain
    · exact h.chain.imp fun _ _ hj => hj.2
    · intro b hb
      rw [h.first] at hb
      rw [← Option.some.inj hb]
      exact hhead
  exact htrail.nodup

theorem length_le_card (hn : l.Nodup) (hl : ∀ r ∈ l, r ∈ H) : l.length ≤ H.card := by
  rw [← List.toFinset_card_of_nodup hn]
  exact Finset.card_le_card fun r hr => hl r (List.mem_toFinset.mp hr)

theorem Met.step {next : QueueRef} (h : Met H q tmp us) (hH : Heap H q) (hj : Joined q tmp next) :
    Met H q next (tmp :: us) := by
  refine ⟨List.isChain_cons_cons.mpr ⟨hj, h.chain⟩, by simpa using h.first, ?_⟩
  intro r hr
  rcases List.mem_cons.mp hr with rfl | hr
  · exact hH.next tmp (h.inside tmp List.mem_cons_self) _ hj.1
  · exact h.inside r hr

/-- The nodes met are a way from the head. -/
theorem Met.path (h : Met H q tmp us) (hhead : (q .head).prev = none) :
    ((tmp :: us).reverse).Nodup ∧ (tmp :: us).reverse.head? = some .head ∧
      (tmp :: us).reverse.getLast? = some tmp ∧ (tmp :: us).reverse.IsChain (Joined q) :=
  ⟨List.nodup_reverse.mpr (h.nodup hhead), by rw [List.head?_reverse, h.first],
    by rw [List.getLast?_reverse]; rfl, List.isChain_reverse.mpr h.chain⟩

/-- The loop ends before it has met more nodes than there are, and is right when it
returns true. -/
theorem checkLoop_total (hH : Heap H q) (hhead : (q .head).prev = none)
    (htail : (q .tail).next = none) (h : Met H q tmp us) (hf : H.card < fuel + (tmp :: us).length) :
    ∃ b, checkLoop q fuel tmp = .ok b ∧ (b = true → Intact q) := by
  induction fuel generalizing tmp us with
  | zero =>
    have hle := length_le_card (h.nodup hhead) h.inside
    omega
  | succ fuel ih =>
    rw [checkLoop]
    cases hn : (q tmp).next with
    | none =>
      refine ⟨decide (tmp = .tail), rfl, ?_⟩
      intro hb
      obtain ⟨hnd, hfirst, hlast, hchain⟩ := h.path hhead
      exact ⟨hhead, htail, _, hnd, hfirst, by rw [hlast, of_decide_eq_true hb], hchain⟩
    | some next =>
      by_cases hp : (q next).prev = some tmp
      · have hj : Joined q tmp next := ⟨hn, hp⟩
        obtain ⟨b, hb, htrue⟩ := ih (h.step hH hj) (by simp only [List.length_cons] at hf ⊢; omega)
        refine ⟨b, ?_, htrue⟩
        simp [hp, hn, hb]
      · exact ⟨false, by simp [hp]; rfl, fun hb => Bool.noConfusion hb⟩

/-- On the rest of a way to the tail the loop finds nothing wrong. -/
theorem checkLoop_path (htail : (q .tail).next = none) (hchain : (tmp :: us).IsChain (Joined q))
    (hlast : (tmp :: us).getLast? = some .tail) (hf : (tmp :: us).length ≤ fuel) :
    checkLoop q fuel tmp = .ok true := by
  induction us generalizing tmp fuel with
  | nil =>
    obtain ⟨fuel, rfl⟩ := Nat.exists_eq_add_of_le' (show 1 ≤ fuel from hf)
    have htmp : tmp = .tail := Option.some.inj hlast
    rw [htmp, checkLoop, htail]
    rfl
  | cons next us ih =>
    obtain ⟨fuel, rfl⟩ := Nat.exists_eq_add_of_le' (Nat.le_trans (Nat.le_add_left 1 _) hf)
    obtain ⟨hj, hrest⟩ := List.isChain_cons_cons.mp hchain
    have hloop := ih hrest (by simpa using hlast) (Nat.le_of_succ_le_succ hf)
    simp [checkLoop, hj.1, hj.2, hloop]

/-- A way from the head stays in the heap. -/
theorem path_inside (hH : Heap H q) (htmp : tmp ∈ H) (hchain : (tmp :: us).IsChain (Joined q)) :
    ∀ r ∈ tmp :: us, r ∈ H := by
  induction us generalizing tmp with
  | nil =>
    intro r hr
    rwa [List.mem_singleton.mp hr]
  | cons next us ih =>
    obtain ⟨hj, hrest⟩ := List.isChain_cons_cons.mp hchain
    intro r hr
    rcases List.mem_cons.mp hr with rfl | hr
    · exact htmp
    · exact ih (hH.next tmp htmp next hj.1) hrest r hr

/-- On every finite heap the check returns, and it returns true exactly on intact queues. -/
theorem queueListCheck_exact (q : Queue) (H : Finset QueueRef) (hH : Heap H q) (fuel : Nat)
    (hf : H.card ≤ fuel) : ∃ b, queueListCheck fuel q = .ok b ∧ (b = true ↔ Intact q) := by
  rw [queueListCheck]
  by_cases hhead : (q .head).prev = none
  · rw [if_neg (not_not_intro hhead)]
    by_cases htail : (q .tail).next = none
    · rw [if_neg (not_not_intro htail)]
      have hmet : Met H q .head [] := ⟨List.isChain_singleton _, rfl, fun r hr => by
        rw [List.mem_singleton.mp hr]
        exact hH.head⟩
      obtain ⟨b, hb, htrue⟩ := checkLoop_total hH hhead htail hmet (Nat.lt_succ_of_le hf)
      refine ⟨b, hb, htrue, ?_⟩
      rintro ⟨_, _, l, hnd, hfirst, hlast, hchain⟩
      cases l with
      | nil => cases hfirst
      | cons r us =>
        obtain rfl : r = .head := Option.some.inj hfirst
        have hlen := length_le_card hnd (path_inside hH hH.head hchain)
        rw [checkLoop_path htail hchain hlast (Nat.le_trans hlen hf)] at hb
        exact (Except.ok.inj hb).symm
    · rw [if_pos htail]
      exact ⟨false, rfl, fun hb => Bool.noConfusion hb, fun hi => absurd hi.2.1 htail⟩
  · rw [if_pos hhead]
    exact ⟨false, rfl, fun hb => Bool.noConfusion hb, fun hi => absurd hi.1 hhead⟩

/-- A node linked to itself: the loop stops at once, whatever the fuel. -/
theorem self_loop_rejected :
    ∃ b, queueListCheck 3 (fun r => match r with
        | .head => ⟨none, some (.node 0)⟩
        | .tail => ⟨some .head, none⟩
        | .node _ => ⟨some (.node 0), some (.node 0)⟩) = .ok b ∧
      (b = true ↔ Intact (fun r => match r with
        | .head => ⟨none, some (.node 0)⟩
        | .tail => ⟨some .head, none⟩
        | .node _ => ⟨some (.node 0), some (.node 0)⟩)) := by
  apply queueListCheck_exact _ {.head, .tail, .node 0} _ 3 (by decide)
  exact ⟨by decide, by decide, by decide, by decide⟩

end Dmos.Proofs.QueueCheck
