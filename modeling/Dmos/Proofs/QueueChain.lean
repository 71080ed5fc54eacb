import Dmos.Lib.Linked
import Dmos.Queue

namespace Dmos.Proofs.QueueChain

open Dmos.Lib Dmos.Queue

variable {q q' : Queue} {l u v : List Nat} {x : Nat} {a b c : QueueRef}

@[simp] theorem setNext_next (q : Queue) (a r : QueueRef) (p : Option QueueRef) :
    ((q.setNext a p) r).next = if r = a then p else (q r).next := by
  by_cases h : r = a
  · simp [setNext, h]
  · simp [setNext, h]

@[simp] theorem setNext_prev (q : Queue) (a r : QueueRef) (p : Option QueueRef) :
    ((q.setNext a p) r).prev = (q r).prev := by
  by_cases h : r = a
  · simp [setNext, h]
  · simp [setNext, h]

@[simp] theorem setPrev_prev (q : Queue) (a r : QueueRef) (p : Option QueueRef) :
    ((q.setPrev a p) r).prev = if r = a then p else (q r).prev := by
  by_cases h : r = a
  · simp [setPrev, h]
  · simp [setPrev, h]

@[simp] theorem setPrev_next (q : Queue) (a r : QueueRef) (p : Option QueueRef) :
    ((q.setPrev a p) r).next = (q r).next := by
  by_cases h : r = a
  · simp [setPrev, h]
  · simp [setPrev, h]

/-- What an insertion does to the links, from either of the neighbours. -/
theorem insert_apply (hac : (q a).next = some c) :
    ∃ q', queueInsert q (some b) (some a) = .ok q' ∧
      (∀ r, (q' r).next = if r = a then some b else if r = b then some c else (q r).next) ∧
      ∀ r, (q' r).prev = if r = b then some a else if r = c then some b else (q r).prev := by
  refine ⟨_, by simp [queueInsert, hac]; rfl, fun r => ?_, fun r => ?_⟩
  · simp
  · simp

theorem insert_prev_apply (hca : (q c).prev = some a) (hn : [a, b, c].Nodup) :
    ∃ q', queueInsertPrev q (some b) (some c) = .ok q' ∧
      (∀ r, (q' r).next = if r = a then some b else if r = b then some c else (q r).next) ∧
      ∀ r, (q' r).prev = if r = b then some a else if r = c then some b else (q r).prev := by
  refine ⟨_, by simp [queueInsertPrev, hca]; rfl, fun r => ?_, fun r => ?_⟩
  · simp only [setPrev_next, setNext_next]
    grind
  · simp only [setNext_prev, setPrev_prev]
    grind

theorem remove_apply (hab : (q b).prev = some a) (hbc : (q b).next = some c) :
    ∃ q', queueRemove q b = .ok q' ∧
      (∀ r, (q' r).next = if r = b then none else if r = a then some c else (q r).next) ∧
      ∀ r, (q' r).prev = if r = b then none else if r = c then some a else (q r).prev := by
  refine ⟨_, by simp [queueRemove, hab, hbc]; rfl, fun r => ?_, fun r => ?_⟩
  · simp
  · simp

/-- The queue from sentinel to sentinel. -/
def refs (l : List Nat) : List QueueRef := .head :: (l.map .node ++ [.tail])

theorem nodup_refs {l : List Nat} (hl : l.Nodup) : (refs l).Nodup := by
  have hm : (l.map QueueRef.node).Nodup :=
    List.Pairwise.map QueueRef.node (fun a b h => by simpa using h) hl
  unfold refs
  grind

/-- The queue holds the nodes `l`, in this order: with its sentinels it is linked in both
directions. -/
def Holds (q : Queue) (l : List Nat) : Prop :=
  Linked (fun r => (q r).next) (fun r => (q r).prev) (refs l)

theorem init_holds (q : Queue) : Holds q.queueListInit [] := by
  refine ⟨by simp [refs], ?_, ?_⟩
  · simp [refs, Trail, queueListInit]
  · simp [refs, Trail, queueListInit]

theorem Holds.nodup (hs : Holds q l) : l.Nodup := by
  have hn := Linked.nodup hs
  simp only [refs, List.nodup_cons, List.nodup_append] at hn
  exact List.Nodup.of_map _ hn.2.1

def front (u : List Nat) : List QueueRef := .head :: u.map .node
def rear (v : List Nat) : List QueueRef := v.map .node ++ [.tail]

theorem refs_append (u v : List Nat) : refs (u ++ v) = front u ++ rear v := by
  simp [refs, front, rear]

theorem refs_middle (u : List Nat) (x : Nat) (v : List Nat) :
    refs (u ++ x :: v) = front u ++ .node x :: rear v := by
  simp [refs, front, rear]

/-- The neighbours of the gap between `u` and `v`. -/
def before (u : List Nat) : QueueRef := (front u).getLast (by simp [front])
def after (v : List Nat) : QueueRef := (rear v).head (by simp [rear])

theorem front_last (u : List Nat) : (front u).getLast? = some (before u) :=
  List.getLast?_eq_some_getLast _

theorem rear_head (v : List Nat) : (rear v).head? = some (after v) := List.head?_eq_some_head _

@[simp] theorem before_append (u : List Nat) (p : Nat) : before (u ++ [p]) = .node p := by
  simp [before, front]

theorem Holds.next_before (hs : Holds q (u ++ v)) : (q (before u)).next = some (after v) := by
  have h := hs
  rw [Holds, refs_append, ← List.dropLast_append_getLast? _ (front_last u), List.append_assoc] at h
  exact h.next_eq.trans (rear_head v)

theorem Holds.prev_after (hs : Holds q (u ++ v)) : (q (after v)).prev = some (before u) := by
  have h := hs
  rw [Holds, refs_append, ← List.cons_head?_tail (rear_head v)] at h
  exact h.prev_eq.trans (front_last u)

theorem Holds.next_node (hs : Holds q (u ++ x :: v)) : (q (.node x)).next = some (after v) := by
  rw [List.append_cons] at hs
  simpa using hs.next_before

theorem before_mem (u : List Nat) : before u ∈ front u := List.mem_of_getLast? (front_last u)

theorem after_mem (v : List Nat) : after v ∈ rear v := List.mem_of_head? (rear_head v)

/-- A node and its neighbours. -/
theorem gap (hn : (u ++ x :: v).Nodup) : [before u, .node x, after v].Nodup := by
  have h := nodup_refs hn
  rw [refs_middle] at h
  obtain ⟨-, hxy, hne⟩ := List.nodup_append.mp h
  have h1 := hne _ (before_mem u) (.node x) (by simp)
  have h2 := hne _ (before_mem u) _ (List.mem_cons_of_mem _ (after_mem v))
  have h3 : .node x ≠ after v := fun he => (List.nodup_cons.mp hxy).1 (he ▸ after_mem v)
  simp [h1, h2, h3]

/-- A node that is not in the queue is none of the three. -/
theorem outside {i : Nat} (hi : i ∉ u ++ x :: v) :
    .node i ≠ before u ∧ QueueRef.node i ≠ .node x ∧ .node i ≠ after v := by
  have h : .node i ∉ front u ++ .node x :: rear v := by
    rw [← refs_middle]
    simpa [refs] using hi
  refine ⟨fun he => ?_, fun he => ?_, fun he => ?_⟩
  · exact h (he ▸ List.mem_append_left _ (before_mem u))
  · exact h (he ▸ by simp)
  · exact h (he ▸ List.mem_append_right _ (List.mem_cons_of_mem _ (after_mem v)))

theorem QueueNode.eq_of {m n : QueueNode} (hn : m.next = n.next) (hp : m.prev = n.prev) : m = n := by
  cases m
  cases n
  simp_all

theorem Holds.nodup_put (hs : Holds q (u ++ v)) (hx : x ∉ u ++ v) : (u ++ x :: v).Nodup :=
  List.nodup_middle.mpr (List.nodup_cons.mpr ⟨hx, hs.nodup⟩)

/-- What an insertion leaves behind: the node sits in the gap. -/
theorem Holds.put (hs : Holds q (u ++ v)) (hx : x ∉ u ++ v)
    (hn : ∀ r, (q' r).next = if r = before u then some (.node x)
      else if r = .node x then some (after v) else (q r).next)
    (hp : ∀ r, (q' r).prev = if r = .node x then some (before u)
      else if r = after v then some (.node x) else (q r).prev) :
    Holds q' (u ++ x :: v) ∧ ∀ i ∉ u ++ x :: v, q' (.node i) = q (.node i) := by
  have hnd := gap (hs.nodup_put hx)
  have hbx : before u ≠ .node x := fun he => by simp [he] at hnd
  refine ⟨?_, fun i hi => ?_⟩
  · rw [Holds, refs_append] at hs
    rw [Holds, refs_middle]
    refine hs.insert (b := .node x) ?_ (fun r => ?_) (fun r => ?_)
    · rw [← refs_append]
      simpa [refs] using hx
    · rw [hn, front_last, rear_head]
      by_cases hr : r = before u
      · simp [hr, hbx]
      · simp [hr, Ne.symm hr]
    · rw [hp, front_last, rear_head]
      simp [eq_comm]
  · obtain ⟨hb, hix, ha⟩ := outside hi
    apply QueueNode.eq_of
    · rw [hn, if_neg hb, if_neg hix]
    · rw [hp, if_neg hix, if_neg ha]

theorem insert_holds (hs : Holds q (u ++ v)) (hx : x ∉ u ++ v) :
    ∃ q', queueInsert q (some (.node x)) (some (before u)) = .ok q' ∧ Holds q' (u ++ x :: v) ∧
      ∀ i ∉ u ++ x :: v, q' (.node i) = q (.node i) := by
  obtain ⟨q', hok, hn, hp⟩ := insert_apply hs.next_before
  exact ⟨q', hok, hs.put hx hn hp⟩

theorem insert_prev_holds (hs : Holds q (u ++ v)) (hx : x ∉ u ++ v) :
    ∃ q', queueInsertPrev q (some (.node x)) (some (after v)) = .ok q' ∧ Holds q' (u ++ x :: v) ∧
      ∀ i ∉ u ++ x :: v, q' (.node i) = q (.node i) := by
  obtain ⟨q', hok, hn, hp⟩ := insert_prev_apply hs.prev_after (gap (hs.nodup_put hx))
  exact ⟨q', hok, hs.put hx hn hp⟩

theorem enque_holds (hs : Holds q l) (hx : x ∉ l) :
    ∃ q', queueListEnque q (some (.node x)) = .ok q' ∧ Holds q' (l ++ [x]) ∧
      ∀ i ∉ l ++ [x], q' (.node i) = q (.node i) := by
  rw [← List.append_nil l] at hs hx
  have hlast : (q .tail).prev = some (before l) := hs.prev_after
  rw [queueListEnque, hlast]
  exact insert_holds hs hx

theorem remove_holds (hs : Holds q (u ++ x :: v)) :
    ∃ q', queueRemove q (.node x) = .ok q' ∧ Holds q' (u ++ v) ∧ q' (.node x) = ⟨none, none⟩ ∧
      ∀ i ∉ u ++ x :: v, q' (.node i) = q (.node i) := by
  have hprev : (q (.node x)).prev = some (before u) := hs.prev_after
  have hl := hs
  rw [Holds, refs_middle] at hl
  obtain ⟨q', hok, hn, hp⟩ := remove_apply hprev hs.next_node
  refine ⟨q', hok, ?_, ?_, fun i hi => ?_⟩
  · rw [Holds, refs_append]
    refine hl.remove (fun r => ?_) (fun r => ?_)
    · rw [hn, front_last, rear_head]
      simp [eq_comm]
    · rw [hp, front_last, rear_head]
      simp [eq_comm]
  · apply QueueNode.eq_of
    · rw [hn, if_pos rfl]
    · rw [hp, if_pos rfl]
  · obtain ⟨hb, hix, ha⟩ := outside hi
    apply QueueNode.eq_of
    · rw [hn, if_neg hix, if_neg hb]
    · rw [hp, if_neg hix, if_neg ha]

theorem Holds.first (hs : Holds q l) : (q .head).next = some (after l) := next_before (u := []) hs

theorem Holds.last (hs : Holds q l) : (q .tail).next = none := by
  have h := hs
  rw [Holds, ← List.append_nil l, refs_append] at h
  exact h.next_eq (v := [])

theorem Holds.forth (hs : Holds q l) :
    Trail (fun r => (q r).next) (q .head).next (l.map .node ++ [.tail]) :=
  (Linked.forth hs).2

theorem Holds.back (hs : Holds q l) :
    Trail (fun r => (q r).prev) (q .tail).prev (l.reverse.map .node ++ [.head]) := by
  have h := Linked.back hs
  have hrev : (refs l).reverse = .tail :: (l.reverse.map .node ++ [.head]) := by simp [refs]
  rw [hrev] at h
  exact h.2

theorem is_empty_holds (hs : Holds q l) : queueListIsEmpty q = .ok (decide (l = [])) := by
  cases l with
  | nil =>
    have hf : (q .head).next = some .tail := hs.first
    simp [queueListIsEmpty, hf, hs.last, pure, Except.pure]
  | cons i l =>
    have hf : (q .head).next = some (.node i) := hs.first
    simp [queueListIsEmpty, hf, hs.next_node (u := []), pure, Except.pure]

theorem top_holds (hs : Holds q l) : queueListTop q = .ok (l.head?.map .node) := by
  cases l with
  | nil => simp [queueListTop, is_empty_holds hs, pure, Except.pure]
  | cons i l =>
    have hf : (q .head).next = some (.node i) := hs.first
    simp [queueListTop, is_empty_holds hs, hf, pure, Except.pure]

theorem pop_empty (hs : Holds q []) : queueListPop q = .ok (none, q) := by
  simp [queueListPop, is_empty_holds hs, pure, Except.pure]

theorem pop_holds (hs : Holds q (x :: l)) :
    ∃ q', queueListPop q = .ok (some (.node x), q') ∧ Holds q' l ∧ q' (.node x) = ⟨none, none⟩ ∧
      ∀ i ∉ x :: l, q' (.node i) = q (.node i) := by
  obtain ⟨q', hok, hrest⟩ := remove_holds (u := []) hs
  have hf : (q .head).next = some (.node x) := hs.first
  refine ⟨q', ?_, hrest⟩
  simp [queueListPop, is_empty_holds hs, hf, hok, pure, Except.pure]

end Dmos.Proofs.QueueChain
