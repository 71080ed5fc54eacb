import Mathlib.Data.List.Basic
import Mathlib.Data.List.Nodup

namespace Dmos.Lib

variable {α : Type}

/-- Following a link from the pointer `p` until it is null meets the nodes `l`. -/
def Trail (link : α → Option α) : Option α → List α → Prop
  | p, [] => p = none
  | p, a :: l => p = some a ∧ Trail link (link a) l

namespace Trail

variable {link link' : α → Option α} {p : Option α} {a b : α} {l u v w : List α}

theorem head (h : Trail link p l) : p = l.head? := by
  cases l with
  | nil => exact h
  | cons a l => exact h.1

theorem congr (h : Trail link p l) (hl : ∀ r ∈ l, link' r = link r) : Trail link' p l := by
  induction l generalizing p with
  | nil => exact h
  | cons a l ih =>
    refine ⟨h.1, ?_⟩
    rw [hl a (by simp)]
    exact ih h.2 fun r hr => hl r (by simp [hr])

theorem link_eq (h : Trail link p (u ++ b :: v)) : link b = v.head? := by
  induction u generalizing p with
  | nil => exact h.2.head
  | cons a u ih => exact ih h.2

theorem drop (h : Trail link p (u ++ v)) : Trail link v.head? v := by
  induction u generalizing p with
  | nil => exact h.head ▸ h
  | cons a u ih => exact ih h.2

theorem unique (hu : Trail link p u) (hv : Trail link p v) : u = v := by
  induction u generalizing p v with
  | nil =>
    cases v with
    | nil => rfl
    | cons b v => exact absurd (hv.1.symm.trans hu) (Option.some_ne_none b)
  | cons a u ih =>
    cases v with
    | nil => exact absurd (hu.1.symm.trans hv) (Option.some_ne_none a)
    | cons b v =>
      have hab : a = b := Option.some.inj (hu.1.symm.trans hv.1)
      rw [ih hu.2 (hab ▸ hv.2), hab]

/-- A trail that ends meets no node twice: the same trail would follow it both times. -/
theorem nodup (h : Trail link p l) : l.Nodup := by
  induction l generalizing p with
  | nil => exact List.nodup_nil
  | cons a l ih =>
    refine List.nodup_cons.mpr ⟨?_, ih h.2⟩
    intro ha
    obtain ⟨u, v, rfl⟩ := List.append_of_mem ha
    have hlater : Trail link (some a) (a :: v) := h.2.drop
    have hlen := congrArg List.length (unique (h.1 ▸ h) hlater)
    simp only [List.length_cons, List.length_append] at hlen
    omega

/-- Consecutive links, the last of them null. -/
theorem of_isChain (h : List.IsChain (fun b a => link b = some a) (a :: l))
    (hlast : ∀ b ∈ (a :: l).getLast?, link b = none) : Trail link (some a) (a :: l) := by
  induction l generalizing a with
  | nil => exact ⟨rfl, hlast a rfl⟩
  | cons b l ih =>
    obtain ⟨hab, hrest⟩ := List.isChain_cons_cons.mp h
    exact ⟨rfl, hab ▸ ih hrest fun c hc => hlast c (by simpa using hc)⟩

variable [DecidableEq α]

/-- Redirecting the link of the last node of `u` replaces all that follows it. -/
theorem splice (h : Trail link p (u ++ v)) (hz : Trail link' w.head? w) (hn : u.Nodup)
    (hl : ∀ r ∈ u, link' r = if u.getLast? = some r then w.head? else link r) :
    Trail link' (u ++ w).head? (u ++ w) := by
  induction u generalizing p with
  | nil => exact hz
  | cons a u ih =>
    obtain ⟨ha, hn⟩ := List.nodup_cons.mp hn
    cases u with
    | nil =>
      have hla := hl a (by simp)
      rw [List.getLast?_singleton, if_pos rfl] at hla
      exact ⟨rfl, hla ▸ hz⟩
    | cons c u =>
      have hlast : (a :: c :: u).getLast? = (c :: u).getLast? := by simp
      have hla : link' a = some c := by
        rw [hl a (by simp), hlast, if_neg (fun he => ha (List.mem_of_getLast? he))]
        exact h.2.1
      refine ⟨rfl, ?_⟩
      rw [hla]
      exact ih h.2 hn fun r hr => by rw [hl r (by simp [hr]), hlast]

theorem insert (h : Trail link p (u ++ v)) (hn : (u ++ b :: v).Nodup)
    (hl : ∀ r, link' r =
      if r = b then v.head? else if u.getLast? = some r then some b else link r) :
    Trail link' (u ++ b :: v).head? (u ++ b :: v) := by
  obtain ⟨hx, hby, hxy⟩ := List.nodup_append.mp hn
  refine h.splice ⟨rfl, ?_⟩ hx fun r hr => ?_
  · rw [hl b, if_pos rfl]
    refine h.drop.congr fun r hr => ?_
    rw [hl, if_neg, if_neg]
    · exact fun he => hxy r (List.mem_of_getLast? he) r (by simp [hr]) rfl
    · exact fun he => (List.nodup_cons.mp hby).1 (he ▸ hr)
  · rw [hl, if_neg (hxy r hr b (by simp))]
    rfl

theorem remove (h : Trail link p (u ++ b :: v)) (hn : (u ++ b :: v).Nodup)
    (hl : ∀ r, link' r =
      if r = b then none else if u.getLast? = some r then v.head? else link r) :
    Trail link' (u ++ v).head? (u ++ v) := by
  obtain ⟨hx, hby, hxy⟩ := List.nodup_append.mp hn
  have hb : Trail link (b :: v).head? (b :: v) := h.drop
  refine h.splice ?_ hx fun r hr => ?_
  · refine (drop (u := [b]) hb).congr fun r hr => ?_
    rw [hl, if_neg, if_neg]
    · exact fun he => hxy r (List.mem_of_getLast? he) r (by simp [hr]) rfl
    · exact fun he => (List.nodup_cons.mp hby).1 (he ▸ hr)
  · rw [hl, if_neg (hxy r hr b (by simp))]

end Trail

/-- The nodes `l` are linked in both directions, with null at both ends. -/
structure Linked (next prev : α → Option α) (l : List α) : Prop where
  nodup : l.Nodup
  forth : Trail next l.head? l
  back : Trail prev l.reverse.head? l.reverse

namespace Linked

variable {next prev next' prev' : α → Option α} {b : α} {l u v : List α}

theorem nil : Linked next prev ([] : List α) := ⟨.nil, rfl, rfl⟩

theorem reverse (h : Linked next prev l) : Linked prev next l.reverse :=
  ⟨List.nodup_reverse.mpr h.nodup, h.back, by simpa using h.forth⟩

theorem next_eq (h : Linked next prev (u ++ b :: v)) : next b = v.head? := h.forth.link_eq

theorem prev_eq (h : Linked next prev (u ++ b :: v)) : prev b = u.getLast? := by
  have hr := h.reverse
  rw [List.reverse_append, List.reverse_cons, List.append_assoc] at hr
  simpa using hr.next_eq

/-- Neighbours are linked to each other. -/
theorem isChain (h : Linked next prev (u ++ v)) :
    v.IsChain (fun a b => next a = some b ∧ prev b = some a) := by
  induction v generalizing u with
  | nil => exact .nil
  | cons a v ih =>
    rw [List.append_cons] at h
    cases v with
    | nil => exact .singleton a
    | cons b v =>
      refine List.isChain_cons_cons.mpr ⟨⟨?_, ?_⟩, ih h⟩
      · rw [← List.append_cons] at h
        exact h.next_eq
      · rw [h.prev_eq, List.getLast?_concat]

variable [DecidableEq α]

/-- Linking a new node in between `u` and `v`. -/
theorem insert (h : Linked next prev (u ++ v)) (hb : b ∉ u ++ v)
    (hn : ∀ r, next' r = if r = b then v.head? else if u.getLast? = some r then some b else next r)
    (hp : ∀ r, prev' r = if r = b then u.getLast? else if v.head? = some r then some b else prev r) :
    Linked next' prev' (u ++ b :: v) := by
  have hnd : (u ++ b :: v).Nodup := List.nodup_middle.mpr (List.nodup_cons.mpr ⟨hb, h.nodup⟩)
  have hrev : (u ++ b :: v).reverse = v.reverse ++ b :: u.reverse := by simp
  refine ⟨hnd, h.forth.insert hnd hn, ?_⟩
  have hback := h.back
  rw [List.reverse_append] at hback
  rw [hrev]
  refine hback.insert (hrev ▸ List.nodup_reverse.mpr hnd) fun r => ?_
  rw [hp, List.head?_reverse, List.getLast?_reverse]

/-- Linking the node between `u` and `v` out. -/
theorem remove (h : Linked next prev (u ++ b :: v))
    (hn : ∀ r, next' r = if r = b then none else if u.getLast? = some r then v.head? else next r)
    (hp : ∀ r, prev' r = if r = b then none else if v.head? = some r then u.getLast? else prev r) :
    Linked next' prev' (u ++ v) := by
  have hrev : (u ++ b :: v).reverse = v.reverse ++ b :: u.reverse := by simp
  have hback := h.back
  rw [hrev] at hback
  refine ⟨(List.nodup_cons.mp (List.nodup_middle.mp h.nodup)).2, h.forth.remove h.nodup hn, ?_⟩
  rw [List.reverse_append]
  refine hback.remove (hrev ▸ List.nodup_reverse.mpr h.nodup) fun r => ?_
  rw [hp, List.head?_reverse, List.getLast?_reverse]

end Linked

end Dmos.Lib
