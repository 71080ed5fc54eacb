import Mathlib.Data.List.Infix
import Mathlib.Tactic.IntervalCases
import Dmos.Printf
import Dmos.Strings

namespace Dmos.Proofs.StringSearch
open Lib Lib.Memory Strings Printf

variable {μ : Type} [Memory μ] {m : μ} {a b : Word} {s t : List Byte} {fuel n : Nat}

/-- A string and its terminator stand at `a`. -/
def StringAt (m : μ) (a : Word) (s : CString) : Prop := Holds m a (s.bytes ++ [0])

/-! ### Lengths -/

theorem load_end (h : Holds m a ([] ++ [0])) : load m a = 0 := (holds_cons.mp h).1

theorem load_first {x : Byte} (h : Holds m a (x :: s ++ [0])) :
    load m a = x ∧ Holds m (a + 1) (s ++ [0]) := holds_cons.mp h

/-- A string is shorter than the address space, since its terminator is not one of its
bytes. -/
theorem length_lt (hs : 0 ∉ s) (h : Holds m a (s ++ [0])) : s.length < 2 ^ 64 := by
  by_contra hge
  have hlt : s.length - 2 ^ 64 < s.length := by omega
  have hend : load m (cell a s.length) = 0 := load_end h.right
  have hsame : cell a s.length = cell a (s.length - 2 ^ 64) := by
    apply congrArg (a + ·)
    apply BitVec.eq_of_toNat_eq
    rw [BitVec.toNat_ofNat, BitVec.toNat_ofNat]
    omega
  have hbyte := h.left _ hlt
  rw [← hsame, hend] at hbyte
  exact hs (hbyte ▸ List.getElem_mem hlt)

theorem strlenLoop_eq (hs : 0 ∉ s) (h : Holds m a (s ++ [0])) (hf : s.length < fuel) (len : Word) :
    strlenLoop m fuel a len = some (cell len s.length) := by
  induction s generalizing fuel a len with
  | nil =>
    obtain ⟨fuel, rfl⟩ := Nat.exists_eq_add_one.mpr hf
    rw [strlenLoop, if_neg (not_not.mpr (load_end h)), List.length_nil, cell_zero]
  | cons x s ih =>
    obtain ⟨fuel, rfl⟩ := Nat.exists_eq_add_one.mpr (Nat.zero_lt_of_lt hf)
    obtain ⟨hx, hrest⟩ := load_first h
    have hne : load m a ≠ 0 := fun h0 => hs (by rw [← hx, h0]; exact List.mem_cons_self)
    rw [strlenLoop, if_pos hne, ih (fun h0 => hs (List.mem_cons_of_mem x h0)) hrest
      (by rw [List.length_cons] at hf; omega)]
    congr 1
    show cell (cell len 1) s.length = _
    rw [cell_cell, List.length_cons, Nat.add_comm]

theorem strlen_eq (hs : 0 ∉ s) (h : Holds m a (s ++ [0])) (hf : s.length < fuel) :
    ∃ l : Word, strlen fuel m a = some l ∧ l.toNat = s.length := by
  have hlt := length_lt hs h
  refine ⟨cell 0 s.length, strlenLoop_eq hs h hf 0, ?_⟩
  have hzero : (0 : Word).toNat = 0 := rfl
  rw [toNat_cell (by omega), hzero, Nat.zero_add]

/-! ### Comparisons -/

/-- An `int` has the sign of the lexicographic comparison. -/
def Orders (r : Int) (s t : List Byte) : Prop := (r < 0 ↔ s < t) ∧ (r = 0 ↔ s = t)

theorem difference_neg {x y : Byte} : difference x y < 0 ↔ x < y := by
  rw [difference, BitVec.lt_def]
  omega

theorem difference_zero {x y : Byte} : difference x y = 0 ↔ x = y := by
  rw [difference, ← BitVec.toNat_inj]
  omega

theorem orders_refl (s : List Byte) : Orders 0 s s :=
  ⟨iff_of_false (lt_irrefl 0) (List.lt_irrefl s), iff_of_true rfl rfl⟩

/-- The first difference decides. -/
theorem orders_cons_ne {x y : Byte} (h : x ≠ y) (s t : List Byte) :
    Orders (difference x y) (x :: s) (y :: t) := by
  constructor
  · rw [difference_neg, List.cons_lt_cons_iff]
    exact ⟨.inl, fun hor => hor.resolve_right fun heq => h heq.1⟩
  · rw [difference_zero, List.cons.injEq]
    exact ⟨fun heq => absurd heq h, And.left⟩

theorem Orders.cons {r : Int} (h : Orders r s t) (x : Byte) : Orders r (x :: s) (x :: t) := by
  refine ⟨h.1.trans ?_, h.2.trans ?_⟩
  · rw [List.cons_lt_cons_iff]
    exact ⟨fun hlt => .inr ⟨rfl, hlt⟩, fun hor => (hor.resolve_left (BitVec.lt_irrefl x)).2⟩
  · rw [List.cons.injEq]
    exact ⟨fun heq => ⟨rfl, heq⟩, And.right⟩

/-- A string that ends orders before one that does not. -/
theorem orders_nil_cons {y : Byte} (hy : y ≠ 0) (t : List Byte) : Orders (difference 0 y) [] (y :: t) := by
  have hne : (0 : Byte) ≠ y := hy.symm
  refine ⟨iff_of_true ?_ (List.nil_lt_cons y t), iff_of_false ?_ (List.cons_ne_nil y t).symm⟩
  · rw [difference_neg, BitVec.lt_def]
    exact Nat.pos_of_ne_zero fun h => hy (BitVec.eq_of_toNat_eq h)
  · exact fun h => hne (difference_zero.mp h)

theorem orders_cons_nil {x : Byte} (hx : x ≠ 0) (s : List Byte) : Orders (difference x 0) (x :: s) [] := by
  refine ⟨iff_of_false ?_ (List.not_lt_nil _), iff_of_false ?_ (List.cons_ne_nil x s)⟩
  · exact fun h => BitVec.not_lt_zero (difference_neg.mp h)
  · exact fun h => hx (difference_zero.mp h)

theorem orders_strncmpLoop (hs : 0 ∉ s) (ht : 0 ∉ t) (ha : Holds m a (s ++ [0]))
    (hb : Holds m b (t ++ [0])) : Orders (strncmpLoop m n a b) (s.take n) (t.take n) := by
  induction n generalizing s t a b with
  | zero => exact orders_refl []
  | succ n ih =>
    rw [strncmpLoop]
    cases s with
    | nil =>
      have hla := load_end ha
      rw [if_pos (.inr hla), hla]
      cases t with
      | nil =>
        rw [load_end hb]
        exact orders_refl []
      | cons y t =>
        rw [(load_first hb).1]
        exact orders_nil_cons (fun h => ht (h ▸ List.mem_cons_self)) _
    | cons x s =>
      obtain ⟨hla, ha'⟩ := load_first ha
      have hx : x ≠ 0 := fun h => hs (h ▸ List.mem_cons_self)
      rw [hla]
      cases t with
      | nil =>
        rw [load_end hb, if_pos (.inl hx)]
        exact orders_cons_nil hx _
      | cons y t =>
        obtain ⟨hlb, hb'⟩ := load_first hb
        rw [hlb]
        by_cases hxy : x = y
        · subst hxy
          rw [if_neg (not_or.mpr ⟨not_not.mpr rfl, hx⟩)]
          exact (ih (fun h => hs (List.mem_cons_of_mem x h)) (fun h => ht (List.mem_cons_of_mem x h))
            ha' hb').cons x
        · rw [if_pos (.inl hxy)]
          exact orders_cons_ne hxy _ _

/-- `memcmp` compares blocks of the same length, terminators or not. -/
theorem orders_memcmpLoop (hlen : s.length = t.length) (ha : Holds m a s) (hb : Holds m b t) :
    Orders (memcmpLoop m s.length a b) s t := by
  induction s generalizing t a b with
  | nil =>
    obtain rfl := List.eq_nil_of_length_eq_zero hlen.symm
    exact orders_refl []
  | cons x s ih =>
    obtain ⟨y, t, rfl⟩ := List.exists_cons_of_length_eq_add_one hlen.symm
    obtain ⟨hla, ha'⟩ := holds_cons.mp ha
    obtain ⟨hlb, hb'⟩ := holds_cons.mp hb
    rw [List.length_cons, memcmpLoop, hla, hlb]
    by_cases hxy : x = y
    · subst hxy
      rw [if_neg (not_not.mpr (difference_zero.mpr rfl))]
      exact (ih (by simpa using hlen) ha' hb').cons x
    · rw [if_pos (mt difference_zero.mp hxy)]
      exact orders_cons_ne hxy s t

/-! ### Searches -/

theorem memchrLoop_eq (c : Byte) (h : Holds m a s) (hn : n ≤ s.length) :
    memchrLoop m c n a = ((s.take n).idxOf? c).map (cell a) := by
  induction n generalizing s a with
  | zero => rfl
  | succ n ih =>
    obtain ⟨x, s, rfl⟩ := List.exists_cons_of_length_pos (show 0 < s.length by omega)
    obtain ⟨hx, hrest⟩ := holds_cons.mp h
    rw [memchrLoop, hx, List.take_succ_cons, List.idxOf?_cons]
    by_cases hxc : x = c
    · simp [hxc]
    · rw [if_neg hxc, ih hrest (by simpa using hn), if_neg (by simpa using hxc), Option.map_map]
      congr 1
      funext k
      show cell (cell a 1) k = _
      rw [cell_cell, Nat.add_comm]
      rfl

theorem strchr_eq (hs : 0 ∉ s) (h : Holds m a (s ++ [0])) (c : BitVec 32) (hf : s.length < fuel) :
    strchr m c fuel a = some (((s ++ [0]).idxOf? (c.setWidth 8)).map (cell a)) := by
  induction s generalizing fuel a with
  | nil =>
    obtain ⟨fuel, rfl⟩ := Nat.exists_eq_add_one.mpr hf
    have hend := load_end h
    rw [strchr, hend, List.nil_append, List.idxOf?_cons]
    by_cases hc : (0 : Byte) = c.setWidth 8
    · simp [← hc]
    · rw [if_pos hc, if_pos rfl, if_neg (by simpa using hc)]
      rfl
  | cons x s ih =>
    obtain ⟨fuel, rfl⟩ := Nat.exists_eq_add_one.mpr (Nat.zero_lt_of_lt hf)
    obtain ⟨hx, hrest⟩ := load_first h
    have hne : x ≠ 0 := fun h => hs (h ▸ List.mem_cons_self)
    rw [strchr, hx, List.cons_append, List.idxOf?_cons]
    by_cases hxc : x = c.setWidth 8
    · simp [hxc]
    · rw [if_pos hxc, if_neg hne, ih (fun h => hs (List.mem_cons_of_mem x h)) hrest
        (by rw [List.length_cons] at hf; omega), if_neg (by simpa using hxc), Option.map_map]
      congr 2
      funext k
      show cell (cell a 1) k = _
      rw [cell_cell, Nat.add_comm]
      rfl

/-- `t` stands in `s` at `k` and nowhere before. -/
def Leftmost (t s : List Byte) (k : Nat) : Prop := t <+: s.drop k ∧ ∀ j < k, ¬ t <+: s.drop j

theorem memcmp_prefix {l : Word} (hl : l.toNat = t.length) (hlen : t.length ≤ s.length)
    (ha : Holds m a (s ++ [0])) (hb : Holds m b (t ++ [0])) : memcmp m a b l = 0 ↔ t <+: s := by
  have htake : (s.take t.length).length = t.length := List.length_take_of_le hlen
  have hsplit : Holds m a (s.take t.length ++ (s.drop t.length ++ [0])) := by
    rwa [← List.append_assoc, List.take_append_drop]
  have h := (orders_memcmpLoop htake hsplit.left hb.left).2
  rw [htake, ← hl] at h
  rw [memcmp, h, List.prefix_iff_eq_take, hl, eq_comm]

/-- What the loop of `strstr` returns, by what is left of the haystack. -/
theorem strstrLoop_eq {l : Word} (hl : l.toNat = t.length) (ht : t ≠ []) (hb : Holds m b (t ++ [0]))
    (ha : Holds m a (s ++ [0])) :
    (∃ k, strstrLoop m b l s.length a = some (cell a k) ∧ Leftmost t s k) ∨
      (strstrLoop m b l s.length a = none ∧ ¬ t <:+: s) := by
  induction s generalizing a with
  | nil => exact .inr ⟨rfl, fun h => ht (List.infix_nil.mp h)⟩
  | cons x s ih =>
    rw [List.length_cons, strstrLoop]
    by_cases hlen : t.length ≤ s.length + 1
    · rw [if_pos (by rw [hl]; exact hlen)]
      have hcmp := memcmp_prefix (s := x :: s) hl hlen ha hb
      by_cases hpre : t <+: x :: s
      · refine .inl ⟨0, ?_, hpre, fun j hj => absurd hj (Nat.not_lt_zero j)⟩
        rw [if_pos (hcmp.mpr hpre), cell_zero]
      · rw [if_neg (mt hcmp.mp hpre)]
        rcases ih (load_first ha).2 with ⟨k, hk, hfound, hfirst⟩ | ⟨hnone, hnot⟩
        · refine .inl ⟨k + 1, ?_, hfound, fun j hj => ?_⟩
          · rw [hk]
            congr 1
            show cell (cell a 1) k = _
            rw [cell_cell, Nat.add_comm]
          · cases j with
            | zero => exact hpre
            | succ j => exact hfirst j (by omega)
        · exact .inr ⟨hnone, fun h => (List.infix_cons_iff.mp h).elim hpre hnot⟩
    · rw [if_neg (by rw [hl]; exact hlen)]
      exact .inr ⟨rfl, fun h => hlen h.length_le⟩

theorem strstr_eq (hs : 0 ∉ s) (ht : 0 ∉ t) (ha : Holds m a (s ++ [0])) (hb : Holds m b (t ++ [0]))
    (hfs : s.length < fuel) (hft : t.length < fuel) :
    (∃ k, strstr fuel m a b = some (some (cell a k)) ∧ Leftmost t s k) ∨
      (strstr fuel m a b = some none ∧ ¬ t <:+: s) := by
  obtain ⟨l2, hl2, hn2⟩ := strlen_eq ht hb hft
  obtain ⟨l1, hl1, hn1⟩ := strlen_eq hs ha hfs
  rw [strstr, hl2, hl1, Option.bind_eq_bind, Option.bind_some]
  by_cases hnil : t = []
  · subst hnil
    have hzero : l2 = 0 := BitVec.eq_of_toNat_eq hn2
    refine .inl ⟨0, ?_, List.nil_prefix, fun j hj => absurd hj (Nat.not_lt_zero j)⟩
    rw [if_pos hzero, cell_zero]
  · have hne : l2 ≠ 0 := fun h0 => hnil (List.eq_nil_of_length_eq_zero (by rw [← hn2, h0]; rfl))
    rw [if_neg hne, Option.bind_some, hn1]
    rcases strstrLoop_eq hn2 hnil hb ha with ⟨k, hk, hleft⟩ | ⟨hnone, hnot⟩
    · exact .inl ⟨k, congrArg some hk, hleft⟩
    · exact .inr ⟨congrArg some hnone, hnot⟩

/-- On two strings, `strncmp` orders the first `n` bytes as words in a dictionary and so does
`strcmp` for strings that `SIZE_MAX` covers, `strstr` finds the leftmost occurrence of the
second string in the first or that there is none, and `strchr` and `memchr` find the first
occurrence of a byte, where the terminator is a byte too. -/
theorem string_queries {μ : Type} [Memory μ] (m : μ) (a b : Word) (s t : CString)
    (ha : StringAt m a s) (hb : StringAt m b t) (fuel : Nat) (hs : s.bytes.length < fuel)
    (ht : t.bytes.length < fuel) :
    (∀ n : Word, Orders (strncmp m a b n) (s.bytes.take n.toNat) (t.bytes.take n.toNat)) ∧
    (s.bytes.length ≤ sizeMax.toNat → t.bytes.length ≤ sizeMax.toNat →
      Orders (strcmp m a b) s.bytes t.bytes) ∧
    ((∃ k, strstr fuel m a b = some (some (cell a k)) ∧ Leftmost t.bytes s.bytes k) ∨
      (strstr fuel m a b = some none ∧ ¬ t.bytes <:+: s.bytes)) ∧
    (∀ c : BitVec 32,
      strchr m c fuel a = some (((s.bytes ++ [0]).idxOf? (c.setWidth 8)).map (cell a))) ∧
    (∀ (c : BitVec 32) (n : Word), n.toNat ≤ s.bytes.length + 1 →
      memchr m a c n = (((s.bytes ++ [0]).take n.toNat).idxOf? (c.setWidth 8)).map (cell a)) := by
  have hcmp : ∀ n : Word, Orders (strncmp m a b n) (s.bytes.take n.toNat) (t.bytes.take n.toNat) :=
    fun n => orders_strncmpLoop s.nonzero t.nonzero ha hb
  refine ⟨hcmp, fun hls hlt => ?_, strstr_eq s.nonzero t.nonzero ha hb hs ht,
    fun c => strchr_eq s.nonzero ha c hs, fun c n hn => ?_⟩
  · have h := hcmp sizeMax
    rwa [List.take_of_length_le hls, List.take_of_length_le hlt] at h
  · exact memchrLoop_eq _ ha (by simpa using hn)

/-- `"abab"` at `0x100` and `"b"` at `0x200`. -/
theorem string_queries_abab :
    let s : CString := ⟨[0x61, 0x62, 0x61, 0x62], by decide⟩
    let t : CString := ⟨[0x62], by decide⟩
    let m : Word → Byte := fun a =>
      if a.toNat < 0x200 then (s.bytes ++ [0]).getD (a.toNat - 0x100) 0
      else (t.bytes ++ [0]).getD (a.toNat - 0x200) 0
    StringAt m 0x100 s ∧ StringAt m 0x200 t ∧
      strchr m 0x62 5 0x100 = some (some 0x101) := by
  intro s t m
  have hs : StringAt m 0x100 s := by
    intro i hi
    have hlt : i < 5 := hi
    interval_cases i <;> simp [m, s, load, cell]
  have ht : StringAt m 0x200 t := by
    intro i hi
    have hlt : i < 2 := hi
    interval_cases i <;> simp [m, t, load, cell]
  obtain ⟨-, -, -, hchr, -⟩ := string_queries m 0x100 0x200 s t hs ht 5 (by decide) (by decide)
  exact ⟨hs, ht, hchr 0x62⟩

end Dmos.Proofs.StringSearch
