import Dmos.Proofs.Numerals

namespace Dmos.Proofs.Atol
open Printf Numerals

variable {rd : Reader} {fmt : CString} {s : Nat} {l t ws ds : List Byte} {x : Byte}

/-- The bytes that a reader gives from an offset on. -/
def Spells (rd : Reader) (s : Nat) (l : List Byte) : Prop := ∀ k < l.length, rd (s + k) = l[k]?

theorem Spells.head (h : Spells rd s (x :: t)) : rd s = some x := by
  simpa using h 0 (by simp)

theorem Spells.tail (h : Spells rd s (x :: t)) : Spells rd (s + 1) t := by
  intro k hk
  have hk' := h (k + 1) (by rw [List.length_cons]; omega)
  rw [List.getElem?_cons_succ] at hk'
  rw [← hk', Nat.add_assoc, Nat.add_comm 1 k]

theorem Spells.drop (h : Spells rd s (ws ++ t)) : Spells rd (s + ws.length) t := by
  induction ws generalizing s with
  | nil => exact h
  | cons c ws ih =>
    have hrest := ih h.tail
    rwa [Nat.add_assoc, Nat.add_comm 1] at hrest

theorem read_of_lt {i : Nat} (h : i < fmt.bytes.length) :
    fmt.read i = some (fmt.bytes.get ⟨i, h⟩) := by
  rw [CString.read, if_pos h, List.getElem?_eq_getElem h]
  rfl

theorem read_terminator : fmt.read fmt.bytes.length = some 0 := by
  rw [CString.read, if_neg (Nat.lt_irrefl _), if_pos rfl]

theorem get_ne_zero {i : Nat} (h : i < fmt.bytes.length) : fmt.bytes.get ⟨i, h⟩ ≠ 0 := fun h0 =>
  fmt.nonzero (h0 ▸ List.get_mem _ _)

/-- A format is read from a place on, and then its terminator. -/
theorem spells_read {i : Nat} (hi : i ≤ fmt.bytes.length) (h : fmt.bytes.drop i = l) :
    Spells fmt.read i (l ++ [0]) := by
  intro k hk
  have hlen : l.length = fmt.bytes.length - i := by rw [← h, List.length_drop]
  rw [List.length_append, List.length_singleton] at hk
  rcases Nat.lt_or_eq_of_le (Nat.le_of_lt_succ hk) with hlt | rfl
  · rw [CString.read, if_pos (by omega), List.getElem?_append_left hlt, ← h, List.getElem?_drop]
  · rw [show i + l.length = fmt.bytes.length by omega, read_terminator, List.getElem?_append_right (by omega),
      Nat.sub_self]
    rfl

/-- A scan over a text that ends where the predicate does. -/
theorem skip_spells {pred : Byte → Bool} (h : Spells rd s (ws ++ x :: t)) (hws : ∀ c ∈ ws, pred c = true)
    (hx : pred x = false) (fuel : Nat) :
    skip rd pred fuel s = if ws.length < fuel then some (s + ws.length) else none := by
  induction ws generalizing s fuel with
  | nil =>
    cases fuel with
    | zero => rfl
    | succ fuel =>
      rw [skip, Spells.head h, Option.bind_some, hx]
      rfl
  | cons c ws ih =>
    cases fuel with
    | zero => rfl
    | succ fuel =>
      have hc : pred c = true := hws c List.mem_cons_self
      rw [skip, Spells.head h, Option.bind_some, if_pos hc,
        ih (Spells.tail h) (fun d hd => hws d (List.mem_cons_of_mem c hd)), List.length_cons,
        show s + 1 + ws.length = s + (ws.length + 1) by omega]
      simp only [Nat.add_lt_add_iff_right]

/-- The value of a digit string, from the value of what stands before it. -/
def valueFrom (a : Nat) (ds : List Byte) : Nat := ds.foldl (fun a c => a * 10 + (c - ch '0').toNat) a

theorem acc_step (a : Nat) (c : Byte) :
    BitVec.ofNat 64 a * 10 + (c - ch '0').setWidth 64 = BitVec.ofNat 64 (a * 10 + (c - ch '0').toNat) := by
  rw [BitVec.ofNat_add, BitVec.ofNat_mul, BitVec.ofNat_toNat]
  rfl

/-- The digit loop stops at the first character that is no digit. -/
theorem atolDigits_spells (h : Spells rd s (ds ++ x :: t)) (hds : ∀ c ∈ ds, isDigit c = true)
    (hx : isDigit x = false) (fuel a : Nat) :
    atolDigits rd fuel s (BitVec.ofNat 64 a) =
      if ds.length < fuel then some (BitVec.ofNat 64 (valueFrom a ds)) else none := by
  induction ds generalizing s fuel a with
  | nil =>
    cases fuel with
    | zero => rfl
    | succ fuel =>
      rw [atolDigits, Spells.head h, Option.bind_some, hx]
      simp [valueFrom]
  | cons c ds ih =>
    cases fuel with
    | zero => rfl
    | succ fuel =>
      have hc : isDigit c = true := hds c List.mem_cons_self
      have hc0 : c ≠ 0 := by
        rintro rfl
        exact absurd hc (by decide)
      rw [atolDigits, Spells.head h, Option.bind_some, if_neg hc0, if_pos hc, acc_step,
        ih (Spells.tail h) (fun d hd => hds d (List.mem_cons_of_mem c hd)), List.length_cons]
      simp only [Nat.add_lt_add_iff_right]
      rfl

/-- `atol` returns this value, and only this value. -/
def AtolIs (rd : Reader) (s : Nat) (v : Word) : Prop := ∀ w, (∃ fuel, atol rd fuel s = some w) ↔ w = v

theorem atolIs_of {v : Word} {n : Nat}
    (h : ∀ fuel, atol rd fuel s = if n < fuel then some v else none) : AtolIs rd s v := by
  intro w
  constructor
  · rintro ⟨fuel, hw⟩
    rw [h] at hw
    split at hw
    · exact (Option.some.inj hw).symm
    · cases hw
  · rintro rfl
    exact ⟨n + 1, by rw [h, if_pos (Nat.lt_succ_self n)]⟩

def isBlank (c : Byte) : Bool := c = ch ' ' || c = ch '\t'

/-- A signed number after blanks. -/
theorem atol_minus (h : Spells rd s (ws ++ ch '-' :: (ds ++ x :: t))) (hws : ∀ c ∈ ws, isBlank c = true)
    (hds : ∀ c ∈ ds, isDigit c = true) (hx : isDigit x = false) (fuel : Nat) :
    atol rd fuel s = if max ws.length ds.length < fuel then some (- BitVec.ofNat 64 (valueFrom 0 ds))
      else none := by
  have hrest := Spells.drop h
  have hskip : skip rd (fun c => c = ch ' ' || c = ch '\t') fuel s = _ :=
    skip_spells h hws (by decide) fuel
  have hdigits := atolDigits_spells (Spells.tail hrest) hds hx fuel 0
  rw [atol, hskip]
  by_cases hf : ws.length < fuel
  · rw [if_pos hf, Option.bind_some, Spells.head hrest, Option.bind_some, if_pos rfl,
      show (0 : Word) = BitVec.ofNat 64 0 from rfl, hdigits]
    by_cases hd : ds.length < fuel
    · rw [if_pos hd, if_pos (by omega)]
      rfl
    · rw [if_neg hd, if_neg (by omega)]
      rfl
  · rw [if_neg hf, if_neg (by omega)]
    rfl

theorem not_sign_of_digit : ∀ c : Byte, isDigit c = true →
    isBlank c = false ∧ c ≠ ch '-' ∧ c ≠ ch '+' := by
  decide +kernel

/-- A text that starts with a digit or another character that `atol` does not skip. -/
theorem head_of_digits (hds : ∀ c ∈ ds, isDigit c = true)
    (hx : ds = [] → isBlank x = false ∧ x ≠ ch '-' ∧ x ≠ ch '+') :
    ∃ c u, ds ++ x :: t = c :: u ∧ isBlank c = false ∧ c ≠ ch '-' ∧ c ≠ ch '+' := by
  cases ds with
  | nil => exact ⟨x, t, rfl, hx rfl⟩
  | cons d ds => exact ⟨d, ds ++ x :: t, rfl, not_sign_of_digit d (hds d List.mem_cons_self)⟩

/-- A number without a sign after blanks. -/
theorem atol_plain (h : Spells rd s (ws ++ (ds ++ x :: t))) (hws : ∀ c ∈ ws, isBlank c = true)
    (hds : ∀ c ∈ ds, isDigit c = true) (hx : isDigit x = false)
    (hnil : ds = [] → isBlank x = false ∧ x ≠ ch '-' ∧ x ≠ ch '+') (fuel : Nat) :
    atol rd fuel s = if max ws.length ds.length < fuel then some (BitVec.ofNat 64 (valueFrom 0 ds))
      else none := by
  have hrest := Spells.drop h
  obtain ⟨c, u, hcu, hb, hm, hp⟩ := head_of_digits (t := t) hds hnil
  have hskip : skip rd (fun c => c = ch ' ' || c = ch '\t') fuel s = _ :=
    skip_spells (hcu ▸ h) hws hb fuel
  have hdigits := atolDigits_spells hrest hds hx fuel 0
  rw [atol, hskip]
  rw [hcu] at hrest
  by_cases hf : ws.length < fuel
  · rw [if_pos hf, Option.bind_some, Spells.head hrest, Option.bind_some, if_neg hm, if_neg hp,
      show (0 : Word) = BitVec.ofNat 64 0 from rfl, hdigits]
    by_cases hd : ds.length < fuel
    · rw [if_pos hd, if_pos (by omega)]
    · rw [if_neg hd, if_neg (by omega)]
  · rw [if_neg hf, if_neg (by omega)]
    rfl

/-! ### Numbers in a format -/

/-- A predicate that fails on the terminator stops at a first byte. -/
theorem exists_stop {pred : Byte → Bool} (h0 : pred 0 = false) (l : List Byte) :
    ∃ x t, l ++ [0] = l.takeWhile pred ++ x :: t ∧ pred x = false ∧
      l.dropWhile pred ++ [0] = x :: t := by
  induction l with
  | nil => exact ⟨0, [], rfl, h0, rfl⟩
  | cons c l ih =>
    rw [List.takeWhile_cons, List.dropWhile_cons]
    by_cases hc : pred c = true
    · obtain ⟨x, t, hl, hx, hd⟩ := ih
      rw [if_pos hc, if_pos hc]
      exact ⟨x, t, congrArg (c :: ·) hl, hx, hd⟩
    · rw [if_neg hc, if_neg hc]
      exact ⟨c, l ++ [0], rfl, by simpa using hc, rfl⟩

theorem skip_read {pred : Byte → Bool} (h0 : pred 0 = false) {fuel i : Nat}
    (hi : i ≤ fmt.bytes.length) (hf : fmt.bytes.length < fuel) :
    skip fmt.read pred fuel i = some (i + ((fmt.bytes.drop i).takeWhile pred).length) := by
  obtain ⟨x, t, hl, hx, _⟩ := exists_stop h0 (fmt.bytes.drop i)
  have hle := (List.takeWhile_sublist (p := pred) (l := fmt.bytes.drop i)).length_le
  rw [List.length_drop] at hle
  rw [skip_spells (hl ▸ spells_read hi rfl) (fun c hc => List.mem_takeWhile_imp hc) hx, if_pos (by omega)]

/-- What `atol` makes of a text. -/
def atolList (l : List Byte) : Word :=
  match l.dropWhile isBlank with
  | [] => 0
  | c :: t =>
    if c = ch '-' then - BitVec.ofNat 64 (valueFrom 0 (t.takeWhile isDigit))
    else if c = ch '+' then BitVec.ofNat 64 (valueFrom 0 (t.takeWhile isDigit))
    else BitVec.ofNat 64 (valueFrom 0 ((c :: t).takeWhile isDigit))

theorem atolDigits_read {fuel i : Nat} (hi : i ≤ fmt.bytes.length) (hf : fmt.bytes.length < fuel) :
    atolDigits fmt.read fuel i 0 =
      some (BitVec.ofNat 64 (valueFrom 0 ((fmt.bytes.drop i).takeWhile isDigit))) := by
  obtain ⟨x, t, hl, hx, _⟩ := exists_stop (show isDigit 0 = false by decide) (fmt.bytes.drop i)
  have hle := (List.takeWhile_sublist (p := isDigit) (l := fmt.bytes.drop i)).length_le
  rw [List.length_drop] at hle
  rw [show (0 : Word) = BitVec.ofNat 64 0 from rfl,
    atolDigits_spells (hl ▸ spells_read hi rfl) (fun c hc => List.mem_takeWhile_imp hc) hx, if_pos (by omega)]

theorem drop_length_takeWhile (pred : Byte → Bool) (l : List Byte) :
    l.drop (l.takeWhile pred).length = l.dropWhile pred := by
  have hsplit : (l.takeWhile pred ++ l.dropWhile pred).drop (l.takeWhile pred).length =
      l.dropWhile pred := List.drop_left
  rwa [List.takeWhile_append_dropWhile] at hsplit

/-- `atol` reads no further than the terminator. -/
theorem atol_read {fuel i : Nat} (hi : i ≤ fmt.bytes.length) (hf : fmt.bytes.length < fuel) :
    atol fmt.read fuel i = some (atolList (fmt.bytes.drop i)) := by
  let s := i + ((fmt.bytes.drop i).takeWhile isBlank).length
  have hskip : skip fmt.read (fun c => c = ch ' ' || c = ch '\t') fuel i = some s :=
    skip_read (by decide) hi hf
  have hrest : (fmt.bytes.drop i).dropWhile isBlank = fmt.bytes.drop s := by
    rw [← drop_length_takeWhile, List.drop_drop]
  have hs : s ≤ fmt.bytes.length := by
    have hle := (List.takeWhile_sublist (p := isBlank) (l := fmt.bytes.drop i)).length_le
    rw [List.length_drop] at hle
    omega
  rw [atol, hskip, Option.bind_some, atolList, hrest]
  rcases Nat.lt_or_eq_of_le hs with hlt | heq
  · rw [read_of_lt hlt, Option.bind_some, atolDigits_read hlt hf, atolDigits_read hs hf,
      List.drop_eq_getElem_cons hlt]
    simp only [List.get_eq_getElem]
    split
    · rfl
    · split <;> rfl
  · rw [heq, read_terminator, Option.bind_some, if_neg (by decide), if_neg (by decide),
      atolDigits_read (Nat.le_refl _) hf]
    simp [valueFrom]

/-- How many characters of a text `fmtnum` passes over. -/
def numLen : List Byte → Nat
  | [] => 0
  | c :: t => if c = ch '-' then (t.takeWhile isDigit).length + 1 else ((c :: t).takeWhile isDigit).length

theorem numLen_le (l : List Byte) : numLen l ≤ l.length := by
  cases l with
  | nil => exact Nat.le_refl 0
  | cons c t =>
    rw [numLen]
    split
    · exact Nat.succ_le_succ (List.takeWhile_sublist _).length_le
    · exact (List.takeWhile_sublist _).length_le

/-- The width at a place of the format: it is read and passed over, unless it overflows
`len`. -/
theorem fmtnum_read {fuel i : Nat} (hi : i ≤ fmt.bytes.length) (hf : fmt.bytes.length < fuel) :
    fmtnum fmt.read fuel i = if numLen (fmt.bytes.drop i) < 2 ^ 31 then
      some ((atolList (fmt.bytes.drop i)).setWidth 32, i + numLen (fmt.bytes.drop i)) else none := by
  have hdigit0 : isDigit 0 = false := by decide
  rcases Nat.lt_or_eq_of_le hi with hlt | rfl
  · have hdrop := List.drop_eq_getElem_cons hlt
    rw [fmtnum, read_of_lt hlt, Option.bind_some, atol_read hi hf, hdrop, numLen]
    simp only [List.get_eq_getElem]
    by_cases hc : fmt.bytes[i] = ch '-'
    · rw [if_pos hc, if_pos hc, skip_read hdigit0 hlt hf, Option.bind_some, Option.bind_some]
      rw [show i + 1 + ((fmt.bytes.drop (i + 1)).takeWhile isDigit).length =
        i + (((fmt.bytes.drop (i + 1)).takeWhile isDigit).length + 1) by omega, Nat.add_sub_cancel_left]
    · rw [if_neg hc, if_neg hc, skip_read hdigit0 hi hf, Option.bind_some, Option.bind_some,
        Nat.add_sub_cancel_left, hdrop]
  · rw [fmtnum, read_terminator, Option.bind_some, if_neg (by decide), skip_read hdigit0 hi hf,
      atol_read hi hf]
    simp [numLen]

/-! ### The value of a numeral -/

theorem valueFrom_digits (a : Nat) {l : List Nat} (hl : ∀ d ∈ l, d < 10) :
    valueFrom a (l.map digitByte).reverse = a * 10 ^ l.length + Nat.ofDigits 10 l := by
  induction l with
  | nil => simp [valueFrom]
  | cons d l ih =>
    have hd := (digitByte_digit d (hl d List.mem_cons_self)).2
    have hrest := ih fun e he => hl e (List.mem_cons_of_mem d he)
    rw [valueFrom] at hrest ⊢
    rw [List.map_cons, List.reverse_cons, List.foldl_append, hrest, List.foldl_cons, List.foldl_nil,
      hd, Nat.ofDigits_cons, List.length_cons, Nat.pow_succ]
    ring

theorem valueFrom_numeral (n : Nat) : valueFrom 0 (numeral 10 n) = n := by
  rw [numeral]
  split
  · next h =>
    rw [h]
    rfl
  · rw [valueFrom_digits 0 fun d hd => Nat.digits_lt_base (by decide) hd, Nat.ofDigits_digits]
    omega

theorem isDigit_numeral (n : Nat) : ∀ c ∈ numeral 10 n, isDigit c = true := by
  intro c hc
  rw [numeral] at hc
  split at hc
  · rw [List.mem_singleton.mp hc]
    decide
  · rw [List.mem_reverse, List.mem_map] at hc
    obtain ⟨d, hd, rfl⟩ := hc
    exact (digitByte_digit d (Nat.digits_lt_base (by decide) hd)).1

end Dmos.Proofs.Atol
