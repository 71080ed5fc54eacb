import Mathlib.Data.Fintype.Card
import Mathlib.Data.Fintype.Fin
import Dmos.Lib.Linked
import Dmos.Lib.Run
import Dmos.ListT

namespace Dmos.Proofs.ListSeq

open Dmos.Lib Dmos.ListT

variable {t t' : ListT} {l u v : List NodeId} {x node : NodeId}

@[simp] theorem setNext_next (t : ListT) (node r : NodeId) (p : Option NodeId) :
    ((t.setNext node p).links r).next = if r = node then p else (t.links r).next := by
  by_cases h : r = node
  · simp [setNext, h]
  · simp [setNext, h]

@[simp] theorem setNext_pre (t : ListT) (node r : NodeId) (p : Option NodeId) :
    ((t.setNext node p).links r).pre = (t.links r).pre := by
  by_cases h : r = node
  · simp [setNext, h]
  · simp [setNext, h]

@[simp] theorem setPre_pre (t : ListT) (node r : NodeId) (p : Option NodeId) :
    ((t.setPre node p).links r).pre = if r = node then p else (t.links r).pre := by
  by_cases h : r = node
  · simp [setPre, h]
  · simp [setPre, h]

@[simp] theorem setPre_next (t : ListT) (node r : NodeId) (p : Option NodeId) :
    ((t.setPre node p).links r).next = (t.links r).next := by
  by_cases h : r = node
  · simp [setPre, h]
  · simp [setPre, h]

@[simp] theorem setNext_first (t : ListT) (node : NodeId) (p : Option NodeId) :
    (t.setNext node p).first = t.first := rfl

@[simp] theorem setNext_last (t : ListT) (node : NodeId) (p : Option NodeId) :
    (t.setNext node p).last = t.last := rfl

@[simp] theorem setNext_isEmpty (t : ListT) (node : NodeId) (p : Option NodeId) :
    (t.setNext node p).listIsEmpty = t.listIsEmpty := rfl

@[simp] theorem setPre_first (t : ListT) (node : NodeId) (p : Option NodeId) :
    (t.setPre node p).first = t.first := rfl

@[simp] theorem setPre_last (t : ListT) (node : NodeId) (p : Option NodeId) :
    (t.setPre node p).last = t.last := rfl

@[simp] theorem setPre_isEmpty (t : ListT) (node : NodeId) (p : Option NodeId) :
    (t.setPre node p).listIsEmpty = t.listIsEmpty := rfl

@[simp] theorem setNextOf_next (t : ListT) (p n : Option NodeId) (r : NodeId) :
    ((t.setNextOf p n).links r).next = if p = some r then n else (t.links r).next := by
  cases p with
  | none => simp [setNextOf]
  | some a => simp [setNextOf, eq_comm]

@[simp] theorem setNextOf_pre (t : ListT) (p n : Option NodeId) (r : NodeId) :
    ((t.setNextOf p n).links r).pre = (t.links r).pre := by
  cases p with
  | none => rfl
  | some a => simp [setNextOf]

@[simp] theorem setPreOf_pre (t : ListT) (p n : Option NodeId) (r : NodeId) :
    ((t.setPreOf p n).links r).pre = if p = some r then n else (t.links r).pre := by
  cases p with
  | none => simp [setPreOf]
  | some a => simp [setPreOf, eq_comm]

@[simp] theorem setPreOf_next (t : ListT) (p n : Option NodeId) (r : NodeId) :
    ((t.setPreOf p n).links r).next = (t.links r).next := by
  cases p with
  | none => rfl
  | some a => simp [setPreOf]

/-- Writing links leaves the ends and the count alone. -/
theorem setNextOf_rest (t : ListT) (p n : Option NodeId) :
    (t.setNextOf p n).first = t.first ∧ (t.setNextOf p n).last = t.last ∧
      (t.setNextOf p n).count = t.count := by
  cases p <;> exact ⟨rfl, rfl, rfl⟩

theorem setPreOf_rest (t : ListT) (p n : Option NodeId) :
    (t.setPreOf p n).first = t.first ∧ (t.setPreOf p n).last = t.last ∧
      (t.setPreOf p n).count = t.count := by
  cases p <;> exact ⟨rfl, rfl, rfl⟩

theorem ListNode.eq_of {m n : ListNode} (hn : m.next = n.next) (hp : m.pre = n.pre) : m = n := by
  cases m
  cases n
  simp_all

/-- The list is the sequence `l` of nodes. -/
structure Rep (t : ListT) (l : List NodeId) : Prop where
  linked : Linked (fun r => (t.links r).next) (fun r => (t.links r).pre) l
  first : t.first = l.head?
  last : t.last = l.getLast?
  count : t.count.toNat = l.length

theorem init_rep (t : ListT) : Rep t.listInit [] := ⟨.nil, rfl, rfl, rfl⟩

/-- The count does not overflow: members are distinct, and there are not that many
nodes. -/
theorem length_lt (hn : l.Nodup) : l.length < 2 ^ 31 := by
  have hle := hn.length_le_card
  rw [Fintype.card_fin] at hle
  exact Nat.lt_of_le_of_lt hle (by decide)

theorem Rep.is_empty (hr : Rep t l) : t.listIsEmpty = decide (l = []) := by
  have h0 : t.count = 0#32 ↔ l = [] := by
    rw [← List.length_eq_zero_iff, ← hr.count]
    exact BitVec.toNat_inj.symm
  simp [listIsEmpty, h0]

theorem Rep.count_toInt (hr : Rep t l) : t.listCount.toInt = l.length := by
  have hlt := length_lt hr.linked.nodup
  rw [listCount, BitVec.toInt_eq_toNat_of_lt, hr.count]
  rw [hr.count]
  omega

/-- What holds after a call on the list that held `l`. -/
structure After (t : ListT) (l : List NodeId) (t' : ListT) (l' : List NodeId) : Prop where
  rep : Rep t' l'
  removed : ∀ i ∈ l, i ∉ l' → t'.links i = ⟨none, none⟩
  frame : ∀ i ∉ l, i ∉ l' → t'.links i = t.links i

/-- Putting a node in between `u` and `v`. -/
theorem Rep.put (hr : Rep t (u ++ v)) (hx : x ∉ u ++ v)
    (hn : ∀ r, (t'.links r).next = if r = x then v.head?
      else if u.getLast? = some r then some x else (t.links r).next)
    (hp : ∀ r, (t'.links r).pre = if r = x then u.getLast?
      else if v.head? = some r then some x else (t.links r).pre)
    (hfirst : t'.first = (u ++ x :: v).head?) (hlast : t'.last = (u ++ x :: v).getLast?)
    (hcount : t'.count = t.count + 1) : After t (u ++ v) t' (u ++ x :: v) := by
  have hl := hr.linked.insert hx hn hp
  have hlt := length_lt hl.nodup
  refine ⟨⟨hl, hfirst, hlast, ?_⟩, fun i hi hi' => absurd ?_ hi', fun i hi hi' => ?_⟩
  · simp only [List.length_append, List.length_cons] at hlt ⊢
    have hc := hr.count
    rw [List.length_append] at hc
    rw [hcount, BitVec.toNat_add, hc, show (1 : BitVec 32).toNat = 1 from rfl]
    omega
  · exact List.mem_append.mpr ((List.mem_append.mp hi).imp id (List.mem_cons_of_mem _))
  · have hix : i ≠ x := fun he => hi' (by simp [he])
    rw [List.mem_append, not_or] at hi
    apply ListNode.eq_of
    · rw [hn, if_neg hix, if_neg fun he => hi.1 (List.mem_of_getLast? he)]
    · rw [hp, if_neg hix, if_neg fun he => hi.2 (List.mem_of_head? he)]

/-- Taking the node between `u` and `v` out. -/
theorem Rep.take (hr : Rep t (u ++ x :: v))
    (hn : ∀ r, (t'.links r).next = if r = x then none
      else if u.getLast? = some r then v.head? else (t.links r).next)
    (hp : ∀ r, (t'.links r).pre = if r = x then none
      else if v.head? = some r then u.getLast? else (t.links r).pre)
    (hfirst : t'.first = (u ++ v).head?) (hlast : t'.last = (u ++ v).getLast?)
    (hcount : t'.count = t.count - 1) : After t (u ++ x :: v) t' (u ++ v) := by
  refine ⟨⟨hr.linked.remove hn hp, hfirst, hlast, ?_⟩, fun i hi hi' => ?_, fun i hi hi' => ?_⟩
  · have hlt := length_lt hr.linked.nodup
    have hc := hr.count
    simp only [List.length_append, List.length_cons] at hlt hc ⊢
    rw [hcount, BitVec.toNat_sub, hc, show (1 : BitVec 32).toNat = 1 from rfl]
    omega
  · obtain rfl : i = x := by
      simp only [List.mem_append, List.mem_cons] at hi hi'
      grind
    apply ListNode.eq_of
    · rw [hn, if_pos rfl]
    · rw [hp, if_pos rfl]
  · have hix : i ≠ x := fun he => hi (by simp [he])
    rw [List.mem_append, not_or] at hi'
    apply ListNode.eq_of
    · rw [hn, if_neg hix, if_neg fun he => hi'.1 (List.mem_of_getLast? he)]
    · rw [hp, if_neg hix, if_neg fun he => hi'.2 (List.mem_of_head? he)]

theorem insert_first_spec (hr : Rep t l) (hx : x ∉ l) :
    ∃ t', listInsertFirst t x = .ok t' ∧ After t l t' (x :: l) := by
  have he := hr.is_empty
  have hf := hr.first
  have hlast := hr.last
  cases l with
  | nil =>
    refine ⟨_, by simp [listInsertFirst, he]; rfl, hr.put (u := []) hx (fun r => ?_) (fun r => ?_)
      rfl rfl rfl⟩
    · simp [hf]
    · simp
  | cons f l =>
    have hxf : x ≠ f := fun h => hx (by simp [h])
    refine ⟨_, by simp [listInsertFirst, he, hf]; rfl, hr.put (u := []) hx (fun r => ?_)
      (fun r => ?_) rfl ?_ rfl⟩
    · simp
    · by_cases h : r = x
      · simp [h, hxf]
      · simp [h, eq_comm]
    · simpa using hlast

theorem insert_last_spec (hr : Rep t l) (hx : x ∉ l) :
    ∃ t', listInsertLast t x = .ok t' ∧ After t l t' (l ++ [x]) := by
  have he := hr.is_empty
  have hf := hr.first
  have hlast := hr.last
  rw [← List.append_nil l] at hr hx
  obtain rfl | ⟨u, f, rfl⟩ := List.eq_nil_or_concat' l
  · refine ⟨_, by simp [listInsertLast, he]; rfl, hr.put hx (fun r => ?_) (fun r => ?_) rfl rfl rfl⟩
    · simp
    · simp [hlast]
  · have hxf : x ≠ f := fun h => hx (by simp [h])
    rw [List.getLast?_concat] at hlast
    have he' : t.listIsEmpty = false := by simp [he]
    refine ⟨_, by simp [listInsertLast, he', hlast]; rfl, ?_⟩
    have hnil := List.append_nil (u ++ [f])
    rw [← hnil, List.append_assoc _ [] [x]]
    refine hr.put hx (fun r => ?_) (fun r => ?_) ?_ ?_ rfl
    · by_cases h : r = x
      · simp [h, hxf]
      · simp [h, eq_comm]
    · simp
    · simp [hf]
    · simp

theorem delete_first_nil (hr : Rep t []) : listDeleteFirst t = .ok (none, t) := by
  simp [listDeleteFirst, hr.is_empty, pure, Except.pure]

theorem delete_first_cons (hr : Rep t (x :: l)) :
    ∃ t', listDeleteFirst t = .ok (some x, t') ∧ After t (x :: l) t' l := by
  have he := hr.is_empty
  have hf := hr.first
  have hlast := hr.last
  have hnext := hr.linked.next_eq (u := [])
  cases l with
  | nil =>
    refine ⟨_, by simp [listDeleteFirst, he, hf, hnext]; rfl, hr.take (u := []) (fun r => ?_)
      (fun r => ?_) ?_ rfl rfl⟩
    · simp
    · simp
    · simp
  | cons f l =>
    refine ⟨_, by simp [listDeleteFirst, he, hf, hnext]; rfl, hr.take (u := []) (fun r => ?_)
      (fun r => ?_) ?_ ?_ rfl⟩
    · simp
    · simp [eq_comm]
    · simp
    · simpa using hlast

theorem delete_ends (t : ListT) (x : NodeId) :
    (listDelete t x).2.first = (if some x = t.first then (t.links x).next else t.first) ∧
      (listDelete t x).2.last = (if some x = t.last then (t.links x).pre else t.last) ∧
      (listDelete t x).2.count = t.count - 1 := by
  simp [listDelete, setNext, setPre, setNextOf_rest, setPreOf_rest]

theorem delete_spec (hr : Rep t (u ++ x :: v)) :
    (listDelete t x).1 = x ∧ After t (u ++ x :: v) (listDelete t x).2 (u ++ v) := by
  have hnext := hr.linked.next_eq
  have hpre := hr.linked.prev_eq
  obtain ⟨hfirst, hlast, hcount⟩ := delete_ends t x
  obtain ⟨-, hxy, hne⟩ := List.nodup_append.mp hr.linked.nodup
  have hx : x ∉ u := fun h => hne x h x (by simp) rfl
  have hy : x ∉ v := (List.nodup_cons.mp hxy).1
  have hxl : u.getLast? ≠ some x := fun h => hx (List.mem_of_getLast? h)
  refine ⟨rfl, hr.take (fun r => ?_) (fun r => ?_) ?_ ?_ hcount⟩
  · simp [listDelete, hnext, hpre, hxl]
  · simp [listDelete, hnext, hpre, hxl]
  · rw [hfirst, hnext, hr.first]
    cases u with
    | nil => simp
    | cons a u => simp [show x ≠ a from fun h => hx (by simp [h])]
  · rw [hlast, hpre, hr.last]
    obtain rfl | ⟨w, z, rfl⟩ := List.eq_nil_or_concat' v
    · simp
    · have hz : (u ++ x :: (w ++ [z])).getLast? = some z := by
        rw [← List.cons_append, ← List.append_assoc, List.getLast?_concat]
      rw [hz, if_neg (fun h => hy (by simp [Option.some.inj h])), ← List.append_assoc,
        List.getLast?_concat]

/-- The calls on a list. -/
inductive Op where
  | insertFirst (node : NodeId)
  | insertLast (node : NodeId)
  | deleteFirst
  | delete (node : NodeId)
  deriving DecidableEq, Repr

namespace Op

/-- A call, with the pointer it returns. -/
def exec (t : ListT) : Op → Except Fault (Option NodeId × ListT)
  | .insertFirst node => do return (none, ← t.listInsertFirst node)
  | .insertLast node => do return (none, ← t.listInsertLast node)
  | .deleteFirst => t.listDeleteFirst
  | .delete node => .ok (some (t.listDelete node).1, (t.listDelete node).2)

/-- What the calls are for: the result, and the sequence after it. -/
def spec (l : List NodeId) : Op → Option NodeId × List NodeId
  | .insertFirst node => (none, node :: l)
  | .insertLast node => (none, l ++ [node])
  | .deleteFirst => (l.head?, l.tail)
  | .delete node => (some node, l.erase node)

def next (l : List NodeId) (op : Op) : List NodeId := (op.spec l).2

/-- Nodes are inserted once, and only members are deleted. -/
def Legal (l : List NodeId) : Op → Prop
  | .insertFirst node => node ∉ l
  | .insertLast node => node ∉ l
  | .deleteFirst => True
  | .delete node => node ∈ l

end Op

/-- One call. -/
theorem exec_spec (hr : Rep t l) (op : Op) (hop : op.Legal l) :
    ∃ t', op.exec t = .ok ((op.spec l).1, t') ∧ After t l t' (op.spec l).2 := by
  cases op with
  | insertFirst node =>
    obtain ⟨t', hok, h⟩ := insert_first_spec hr hop
    exact ⟨t', by simp [Op.exec, Op.spec, hok, pure, Except.pure], h⟩
  | insertLast node =>
    obtain ⟨t', hok, h⟩ := insert_last_spec hr hop
    exact ⟨t', by simp [Op.exec, Op.spec, hok, pure, Except.pure], h⟩
  | deleteFirst =>
    cases l with
    | nil =>
      exact ⟨t, delete_first_nil hr, hr, fun i hi => absurd hi List.not_mem_nil, fun _ _ _ => rfl⟩
    | cons x l => exact delete_first_cons hr
  | delete node =>
    obtain ⟨u, v, -, rfl, herase⟩ := List.exists_erase_eq hop
    obtain ⟨-, h⟩ := delete_spec hr
    refine ⟨(listDelete t node).2, rfl, ?_⟩
    rw [Op.spec, herase]
    exact h

theorem run_rep (hr : Rep t l) (ops : List Op) (hops : LegalRun Op.next Op.Legal l ops) :
    ∃ t', run (callStep Op.exec) t ops = some t' ∧ Rep t' (ops.foldl Op.next l) := by
  refine run_simulates (fun t l op hr hop => ?_) ops t l hr hops
  obtain ⟨t', hok, h⟩ := exec_spec hr op hop
  exact ⟨t', callStep_ok hok, h.rep⟩

/-- After any calls on a fresh list, the list is the sequence `l` that they make of
the empty one: both walks meet it, and the count is its length. Any further call
then does to `l` what it is for; a node that it takes out has null links, and a
node outside keeps its links. -/
theorem list_is_sequence (t₀ : ListT) (ops : List Op) (hops : LegalRun Op.next Op.Legal [] ops) :
    ∃ t l, run (callStep Op.exec) t₀.listInit ops = some t ∧ l = ops.foldl Op.next [] ∧ l.Nodup ∧
      Trail (fun r => (t.links r).next) t.listFirst l ∧
      Trail (fun r => (t.links r).pre) t.listLast l.reverse ∧
      (t.listFirst = none ↔ l = []) ∧ (t.listLast = none ↔ l = []) ∧
      t.listCount.toInt = l.length ∧ t.listIsEmpty = decide (l = []) ∧
      (l = [] → listDeleteFirst t = .ok (none, t)) ∧
      ∀ op : Op, op.Legal l →
        ∃ t', op.exec t = .ok ((op.spec l).1, t') ∧
          run (callStep Op.exec) t₀.listInit (ops ++ [op]) = some t' ∧
          (∀ i ∈ l, i ∉ (op.spec l).2 → t'.links i = ⟨none, none⟩) ∧
          ∀ i ∉ l, i ∉ (op.spec l).2 → t'.links i = t.links i := by
  obtain ⟨t, hrun, hr⟩ := run_rep (init_rep t₀) ops hops
  have hforth := hr.linked.forth
  have hback := hr.linked.back
  rw [← hr.first] at hforth
  rw [List.head?_reverse, ← hr.last] at hback
  refine ⟨t, _, hrun, rfl, hr.linked.nodup, hforth, hback, ?_, ?_, hr.count_toInt, hr.is_empty,
    fun hnil => delete_first_nil (hnil ▸ hr), fun op hop => ?_⟩
  · rw [listFirst, hr.first, List.head?_eq_none_iff]
  · rw [listLast, hr.last, List.getLast?_eq_none_iff]
  · obtain ⟨t', hok, h⟩ := exec_spec hr op hop
    exact ⟨t', hok, run_append_some hrun (run_singleton (callStep_ok hok)), h.removed, h.frame⟩

theorem list_is_sequence_four :
    LegalRun Op.next Op.Legal [] [.insertFirst 0, .insertLast 1, .insertFirst 2, .delete 0] ∧
      ∃ t l, run (callStep Op.exec) (listInit ⟨none, none, 0, fun _ => ⟨none, none⟩⟩)
        [.insertFirst 0, .insertLast 1, .insertFirst 2, .delete 0] = some t ∧
        l = [2, 1] ∧ Trail (fun r => (t.links r).next) t.listFirst l := by
  have hl : LegalRun Op.next Op.Legal []
      [.insertFirst 0, .insertLast 1, .insertFirst 2, .delete 0] := by
    simp [LegalRun, Op.Legal, Op.next, Op.spec]
    decide
  obtain ⟨t, l, hrun, hev, -, hforth, -⟩ :=
    list_is_sequence ⟨none, none, 0, fun _ => ⟨none, none⟩⟩ _ hl
  refine ⟨hl, t, l, hrun, ?_, hforth⟩
  rw [hev]
  decide

end Dmos.Proofs.ListSeq
