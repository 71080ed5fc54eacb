import Dmos.Lib.Linked
import Dmos.Lib.Run
import Dmos.Proofs.QueueChain
import Dmos.Proofs.QueueCheck

namespace Dmos.Proofs.QueueSeq

open Dmos.Lib Dmos.Queue Dmos.Proofs.QueueChain

variable {q q' : Queue} {l u v : List Nat} {x : Nat} {a b c : QueueRef}

theorem find_loop (hs : Holds q (u ++ v)) (que : Option QueueRef) {fuel : Nat}
    (hf : v.length < fuel) :
    findLoop q que fuel (some (after v)) = .ok (decide (∃ i ∈ v, que = some (.node i))) := by
  induction v generalizing u fuel with
  | nil =>
    obtain ⟨fuel, rfl⟩ := Nat.exists_eq_add_one_of_ne_zero (Nat.ne_of_gt hf)
    rfl
  | cons i v ih =>
    obtain ⟨fuel, rfl⟩ := Nat.exists_eq_add_one_of_ne_zero (Nat.ne_of_gt (Nat.zero_lt_of_lt hf))
    have hi : after (i :: v) = .node i := rfl
    have hnext := hs.next_node
    rw [List.append_cons] at hs
    have hrest := ih hs (by simpa using hf)
    rw [hi, findLoop, if_neg (by simp)]
    by_cases hq : que = some (.node i)
    · simp [hq, pure, Except.pure]
    · rw [if_neg (Ne.symm hq), deref_some, ok_bind, hnext, hrest]
      simp [hq]

theorem find_holds (hs : Holds q l) (que : Option QueueRef) {fuel : Nat} (hf : l.length < fuel) :
    queueListFind fuel q que = .ok (decide (∃ i ∈ l, que = some (.node i))) := by
  rw [queueListFind, hs.first]
  exact find_loop (u := []) hs que hf

theorem check_holds (hs : Holds q l) {fuel : Nat} (hf : l.length + 2 ≤ fuel) :
    queueListCheck fuel q = .ok true := by
  have hfirst : (q .head).prev = none := Linked.prev_eq (u := []) hs
  rw [queueListCheck, if_neg (by simp [hfirst]), if_neg (by simp [hs.last])]
  have hchain : (refs l).IsChain (QueueCheck.Joined q) := Linked.isChain (u := []) hs
  have hlast : (refs l).getLast? = some .tail := by
    rw [refs, ← List.cons_append, List.getLast?_concat]
  have hlen : (refs l).length ≤ fuel := by
    simp only [refs, List.length_cons, List.length_append, List.length_map, List.length_nil]
    exact hf
  exact QueueCheck.checkLoop_path hs.last hchain hlast hlen

/-- The calls on a queue. -/
inductive Op where
  | enque (x : Nat)
  | insert (x : Nat) (prev : QueueRef)
  | insertPrev (x : Nat) (next : QueueRef)
  | remove (x : Nat)
  | pop
  | top
  deriving DecidableEq, Repr

namespace Op

/-- A call, with the pointer it returns. -/
def exec (q : Queue) : Op → Except Fault (Option QueueRef × Queue)
  | .enque x => do return (none, ← q.queueListEnque (some (.node x)))
  | .insert x prev => do return (none, ← q.queueInsert (some (.node x)) (some prev))
  | .insertPrev x next => do return (none, ← q.queueInsertPrev (some (.node x)) (some next))
  | .remove x => do return (none, ← q.queueRemove (.node x))
  | .pop => q.queueListPop
  | .top => do return (← q.queueListTop, q)

end Op

def insertAfter (x p : Nat) : List Nat → List Nat
  | [] => []
  | i :: l => if i = p then i :: x :: l else i :: insertAfter x p l

def insertBefore (x n : Nat) : List Nat → List Nat
  | [] => []
  | i :: l => if i = n then x :: i :: l else i :: insertBefore x n l

namespace Op

/-- What the calls are for: the result, and the sequence after it. -/
def spec (l : List Nat) : Op → Option Nat × List Nat
  | .enque x => (none, l ++ [x])
  | .insert x .head => (none, x :: l)
  | .insert x (.node p) => (none, insertAfter x p l)
  | .insert _ .tail => (none, l)
  | .insertPrev x .tail => (none, l ++ [x])
  | .insertPrev x (.node n) => (none, insertBefore x n l)
  | .insertPrev _ .head => (none, l)
  | .remove x => (none, l.erase x)
  | .pop => (l.head?, l.tail)
  | .top => (l.head?, l)

def next (l : List Nat) (op : Op) : List Nat := (op.spec l).2

/-- Nodes are inserted once, next to a sentinel or a member, and only members are
removed. -/
def Legal (l : List Nat) : Op → Prop
  | .enque x => x ∉ l
  | .insert x prev => x ∉ l ∧ (prev = .head ∨ ∃ p ∈ l, prev = .node p)
  | .insertPrev x next => x ∉ l ∧ (next = .tail ∨ ∃ n ∈ l, next = .node n)
  | .remove x => x ∈ l
  | .pop => True
  | .top => True

end Op

theorem insert_after_eq {p : Nat} (hp : p ∉ u) :
    insertAfter x p (u ++ p :: v) = u ++ p :: x :: v := by
  induction u with
  | nil => simp [insertAfter]
  | cons i u ih =>
    rw [List.mem_cons, not_or] at hp
    simp [insertAfter, Ne.symm hp.1, ih hp.2]

theorem insert_before_eq {n : Nat} (hn : n ∉ u) :
    insertBefore x n (u ++ n :: v) = u ++ x :: n :: v := by
  induction u with
  | nil => simp [insertBefore]
  | cons i u ih =>
    rw [List.mem_cons, not_or] at hn
    simp [insertBefore, Ne.symm hn.1, ih hn.2]

/-- What holds after a call on the queue that held `l`. -/
structure After (q : Queue) (l : List Nat) (q' : Queue) (l' : List Nat) : Prop where
  seq : Holds q' l'
  removed : ∀ i ∈ l, i ∉ l' → q' (.node i) = ⟨none, none⟩
  frame : ∀ i ∉ l, i ∉ l' → q' (.node i) = q (.node i)

theorem After.of_put {v' : List Nat} (hl : l = u ++ v')
    (h : Holds q' (u ++ x :: v') ∧ ∀ i ∉ u ++ x :: v', q' (.node i) = q (.node i)) :
    After q l q' (u ++ x :: v') := by
  subst hl
  refine ⟨h.1, fun i hi hi' => absurd ?_ hi', fun i _ hi' => h.2 i hi'⟩
  exact List.mem_append.mpr ((List.mem_append.mp hi).imp id (List.mem_cons_of_mem _))

theorem After.of_remove
    (h : Holds q' (u ++ v) ∧ q' (.node x) = ⟨none, none⟩ ∧
      ∀ i ∉ u ++ x :: v, q' (.node i) = q (.node i)) :
    After q (u ++ x :: v) q' (u ++ v) := by
  refine ⟨h.1, fun i hi hi' => ?_, fun i hi _ => h.2.2 i hi⟩
  obtain rfl : i = x := by
    simp only [List.mem_append, List.mem_cons] at hi hi'
    grind
  exact h.2.1

/-- One call. -/
theorem exec_spec (hs : Holds q l) (op : Op) (hop : op.Legal l) :
    ∃ q', op.exec q = .ok ((op.spec l).1.map .node, q') ∧ After q l q' (op.spec l).2 := by
  cases op with
  | enque x =>
    obtain ⟨q', hok, h⟩ := enque_holds hs hop
    exact ⟨q', by simp [Op.exec, Op.spec, hok, pure, Except.pure], .of_put (by simp) h⟩
  | insert x prev =>
    obtain ⟨hx, rfl | ⟨p, hp, rfl⟩⟩ := hop
    · obtain ⟨q', hok, h⟩ := insert_holds (u := []) hs hx
      have hok' : queueInsert q (some (.node x)) (some .head) = .ok q' := hok
      exact ⟨q', by simp [Op.exec, Op.spec, hok', pure, Except.pure], .of_put (u := []) rfl h⟩
    · obtain ⟨u, v, hpx, rfl, -⟩ := List.exists_erase_eq hp
      have hsplit := List.append_cons u p v
      rw [hsplit] at hs hx
      obtain ⟨q', hok, h⟩ := insert_holds hs hx
      rw [before_append] at hok
      refine ⟨q', by simp [Op.exec, Op.spec, hok, pure, Except.pure], ?_⟩
      rw [Op.spec, insert_after_eq hpx, hsplit, List.append_cons u p (x :: v)]
      exact .of_put rfl h
  | insertPrev x next =>
    obtain ⟨hx, rfl | ⟨n, hn, rfl⟩⟩ := hop
    · rw [← List.append_nil l] at hs hx
      obtain ⟨q', hok, h⟩ := insert_prev_holds hs hx
      have hok' : queueInsertPrev q (some (.node x)) (some .tail) = .ok q' := hok
      exact ⟨q', by simp [Op.exec, Op.spec, hok', pure, Except.pure], .of_put (by simp) h⟩
    · obtain ⟨u, v, hnx, rfl, -⟩ := List.exists_erase_eq hn
      obtain ⟨q', hok, h⟩ := insert_prev_holds hs hx
      have hok' : queueInsertPrev q (some (.node x)) (some (.node n)) = .ok q' := hok
      refine ⟨q', by simp [Op.exec, Op.spec, hok', pure, Except.pure], ?_⟩
      rw [Op.spec, insert_before_eq hnx]
      exact .of_put rfl h
  | remove x =>
    obtain ⟨u, v, -, rfl, herase⟩ := List.exists_erase_eq hop
    obtain ⟨q', hok, h⟩ := remove_holds hs
    refine ⟨q', by simp [Op.exec, Op.spec, hok, pure, Except.pure], ?_⟩
    rw [Op.spec, herase]
    exact .of_remove h
  | pop =>
    cases l with
    | nil => exact ⟨q, pop_empty hs, hs, fun i hi => absurd hi List.not_mem_nil, fun _ _ _ => rfl⟩
    | cons i l =>
      obtain ⟨q', hok, h⟩ := pop_holds hs
      exact ⟨q', hok, .of_remove (u := []) h⟩
  | top =>
    refine ⟨q, ?_, hs, fun i hi hi' => absurd hi hi', fun _ _ _ => rfl⟩
    simp [Op.exec, Op.spec, top_holds hs, pure, Except.pure]

theorem run_holds (hs : Holds q l) (ops : List Op) (hops : LegalRun Op.next Op.Legal l ops) :
    ∃ q', run (callStep Op.exec) q ops = some q' ∧ Holds q' (ops.foldl Op.next l) := by
  refine run_simulates (fun q l op hs hop => ?_) ops q l hs hops
  obtain ⟨q', hok, h⟩ := exec_spec hs op hop
  exact ⟨q', callStep_ok hok, h.seq⟩

/-- After any calls on a fresh queue, the queue is the sequence `l` that they make
of the empty one: both walks meet it and the queries answer for it. Any further
call then does to `l` what it is for; a node that it takes out has null links, and
a node outside keeps its links. -/
theorem queue_is_sequence (q₀ : Queue) (ops : List Op) (hops : LegalRun Op.next Op.Legal [] ops) :
    ∃ q l, run (callStep Op.exec) q₀.queueListInit ops = some q ∧ l = ops.foldl Op.next [] ∧ l.Nodup ∧
      Trail (fun r => (q r).next) (q .head).next (l.map .node ++ [.tail]) ∧
      Trail (fun r => (q r).prev) (q .tail).prev (l.reverse.map .node ++ [.head]) ∧
      queueListIsEmpty q = .ok (decide (l = [])) ∧
      (∀ que fuel, l.length < fuel →
        queueListFind fuel q que = .ok (decide (∃ i ∈ l, que = some (.node i)))) ∧
      (∀ fuel, l.length + 2 ≤ fuel → queueListCheck fuel q = .ok true) ∧
      (l = [] → queueListPop q = .ok (none, q) ∧ queueListTop q = .ok none) ∧
      ∀ op : Op, op.Legal l →
        ∃ q', op.exec q = .ok ((op.spec l).1.map .node, q') ∧
          run (callStep Op.exec) q₀.queueListInit (ops ++ [op]) = some q' ∧
          (op = .top → q' = q) ∧
          (∀ i ∈ l, i ∉ (op.spec l).2 → q' (.node i) = ⟨none, none⟩) ∧
          ∀ i ∉ l, i ∉ (op.spec l).2 → q' (.node i) = q (.node i) := by
  obtain ⟨q, hrun, hs⟩ := run_holds (init_holds q₀) ops hops
  refine ⟨q, _, hrun, rfl, hs.nodup, hs.forth, hs.back, is_empty_holds hs,
    fun que fuel => find_holds hs que, fun fuel => check_holds hs, fun hnil => ?_, fun op hop => ?_⟩
  · rw [hnil] at hs
    exact ⟨pop_empty hs, top_holds hs⟩
  · obtain ⟨q', hok, h⟩ := exec_spec hs op hop
    refine ⟨q', hok, run_append_some hrun (run_singleton (callStep_ok hok)), fun htop => ?_,
      h.removed, h.frame⟩
    subst htop
    simp only [Op.exec, top_holds hs, ok_bind, pure, Except.pure, Except.ok.injEq,
      Prod.mk.injEq] at hok
    exact hok.2.symm

theorem queue_is_sequence_five :
    LegalRun Op.next Op.Legal []
        [.enque 0, .insert 1 .head, .insertPrev 2 (.node 0), .remove 1, .pop] ∧
      ∃ q l, run (callStep Op.exec) (queueListInit fun _ => ⟨none, none⟩)
        [.enque 0, .insert 1 .head, .insertPrev 2 (.node 0), .remove 1, .pop] = some q ∧
        l = [0] ∧ Trail (fun r => (q r).next) (q .head).next (l.map .node ++ [.tail]) := by
  have hl : LegalRun Op.next Op.Legal []
      [.enque 0, .insert 1 .head, .insertPrev 2 (.node 0), .remove 1, .pop] := by
    simp [LegalRun, Op.Legal, Op.next, Op.spec, insertBefore]
  obtain ⟨q, l, hrun, hev, -, hforth, -⟩ := queue_is_sequence (fun _ => ⟨none, none⟩) _ hl
  exact ⟨hl, q, l, hrun, hev, hforth⟩

end Dmos.Proofs.QueueSeq
