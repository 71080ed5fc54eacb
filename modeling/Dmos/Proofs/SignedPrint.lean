import Dmos.Proofs.Directive
import Dmos.Proofs.Truncation

namespace Dmos.Proofs.SignedPrint
open Printf Numerals Atol Formatting Directive Truncation

variable {env : Env} {fmt : CString} {va : Nat → Word} {r : List Byte × Cursor} {W : Nat}
  {s : List Byte} {props : Strprops}

/-- The flags `0` and `-`, each at most once, in either order. -/
inductive Flags where
  | none | zero | minus | zeroMinus | minusZero
  deriving DecidableEq

def Flags.text : Flags → List Byte
  | .none => []
  | .zero => [ch '0']
  | .minus => [ch '-']
  | .zeroMinus => [ch '0', ch '-']
  | .minusZero => [ch '-', ch '0']

/-- The text goes to the left of its field. -/
def Flags.left : Flags → Bool
  | .none | .zero => false
  | .minus | .zeroMinus | .minusZero => true

/-- The decimal width; nothing for a width of zero. -/
def widthText (W : Nat) : List Byte := ((Nat.digits 10 W).map digitByte).reverse

theorem isDigit_widthText : ∀ c ∈ widthText W, isDigit c = true := by
  intro c hc
  rw [widthText, List.mem_reverse, List.mem_map] at hc
  obtain ⟨d, hd, rfl⟩ := hc
  exact (digitByte_digit d (Nat.digits_lt_base (by decide) hd)).1

theorem valueFrom_widthText (W : Nat) : valueFrom 0 (widthText W) = W := by
  rw [widthText, valueFrom_digits 0 fun d hd => Nat.digits_lt_base (by decide) hd, Nat.ofDigits_digits,
    Nat.zero_mul, Nat.zero_add]

/-- The bytes of `%`, the flags, the width, and `ld`. -/
def signedBytes (flags : Flags) (W : Nat) : List Byte :=
  ch '%' :: (flags.text ++ (widthText W ++ [ch 'l', ch 'd']))

theorem zero_not_mem_signedBytes (flags : Flags) (W : Nat) : 0 ∉ signedBytes flags W := by
  have hw : (0 : Byte) ∉ widthText W := fun h => absurd (isDigit_widthText 0 h) (by decide)
  have hf : (0 : Byte) ∉ flags.text := by cases flags <;> decide
  simp only [signedBytes, List.mem_cons, List.mem_append, List.not_mem_nil, not_or]
  exact ⟨by decide, hf, hw, by decide, by decide, not_false⟩

def signedFormat (flags : Flags) (W : Nat) : CString :=
  ⟨signedBytes flags W, zero_not_mem_signedBytes flags W⟩

/-! ### Numbers before a letter -/

theorem takeWhile_digits {x : Byte} {ds t : List Byte} (hds : ∀ c ∈ ds, isDigit c = true)
    (hx : isDigit x = false) : (ds ++ x :: t).takeWhile isDigit = ds := by
  rw [List.takeWhile_append_of_pos hds, List.takeWhile_cons, hx]
  simp

theorem atolList_minus {x : Byte} {ds t : List Byte} (hds : ∀ c ∈ ds, isDigit c = true)
    (hx : isDigit x = false) :
    atolList (ch '-' :: (ds ++ x :: t)) = - BitVec.ofNat 64 (valueFrom 0 ds) := by
  have hblank : (ch '-' :: (ds ++ x :: t)).dropWhile isBlank = ch '-' :: (ds ++ x :: t) := rfl
  rw [atolList, hblank]
  simp only
  rw [if_pos trivial, takeWhile_digits hds hx]

theorem atolList_plain {ds t : List Byte} (hds : ∀ c ∈ ds, isDigit c = true) :
    atolList (ds ++ ch 'l' :: t) = BitVec.ofNat 64 (valueFrom 0 ds) := by
  obtain ⟨c, u, hcu, hb, hm, hp⟩ := head_of_digits (t := t) hds
    (fun _ => show isBlank (ch 'l') = false ∧ ch 'l' ≠ ch '-' ∧ ch 'l' ≠ ch '+' by decide)
  have hblank : (ds ++ ch 'l' :: t).dropWhile isBlank = c :: u := by
    rw [hcu, List.dropWhile_cons, hb]
    rfl
  rw [atolList, hblank]
  simp only
  rw [if_neg hm, if_neg hp, ← hcu, takeWhile_digits hds (by decide)]

theorem numLen_minus {x : Byte} {ds t : List Byte} (hds : ∀ c ∈ ds, isDigit c = true)
    (hx : isDigit x = false) : numLen (ch '-' :: (ds ++ x :: t)) = ds.length + 1 := by
  rw [numLen, if_pos rfl, takeWhile_digits hds hx]

theorem numLen_plain {ds t : List Byte} (hds : ∀ c ∈ ds, isDigit c = true) :
    numLen (ds ++ ch 'l' :: t) = ds.length := by
  obtain ⟨c, u, hcu, _, hm, _⟩ := head_of_digits (t := t) hds
    (fun _ => show isBlank (ch 'l') = false ∧ ch 'l' ≠ ch '-' ∧ ch 'l' ≠ ch '+' by decide)
  rw [hcu, numLen, if_neg hm, ← hcu, takeWhile_digits hds (by decide)]

/-! ### The directive -/

theorem setWidth_width (W : Nat) : (BitVec.ofNat 64 W).setWidth 32 = BitVec.ofNat 32 W :=
  BitVec.setWidth_ofNat_of_le (by decide) W

theorem setWidth_neg_width (W : Nat) : (- BitVec.ofNat 64 W).setWidth 32 = - BitVec.ofNat 32 W := by
  rw [BitVec.setWidth_neg_of_le (by decide), setWidth_width]

/-- A width of fewer than `2^31` is written in ten digits. -/
theorem length_widthText (hW : W < 2 ^ 31) : (widthText W).length ≤ 10 := by
  rw [widthText, List.length_reverse, List.length_map]
  exact (Nat.digits_length_le_iff (by decide) W).mpr (by omega)

/-- A width starts with a digit that is no flag. -/
theorem label_widthText {c : Byte} {t : List Byte} (h : widthText W = c :: t) :
    Label.ofByte c = .number := by
  have hne : Nat.digits 10 W ≠ [] := by
    intro h0
    rw [widthText, h0] at h
    cases h
  have hc : digitByte ((Nat.digits 10 W).getLast hne) = c := by
    have hhead : (widthText W).head? = some c := by rw [h]; rfl
    rw [widthText, List.head?_reverse, List.getLast?_map, List.getLast?_eq_some_getLast hne] at hhead
    exact Option.some.inj hhead
  have hlt := Nat.digits_lt_base (by decide : 1 < 10) (List.getLast_mem hne)
  have h0 := Nat.getLast_digit_ne_zero 10 (Nat.digits_ne_nil_iff_ne_zero.mp hne)
  have hall : ∀ d < 10, d ≠ 0 → Label.ofByte (digitByte d) = .number := by decide
  rw [← hc]
  exact hall _ hlt h0

/-- What `ld` prints with the properties read so far. -/
def printed (env : Env) (fmt : CString) (va : Nat → Word) (props : Strprops) : List Byte × Cursor :=
  (strText (cstring (reverseLoop (intBuf env.digits (va 0) 10))) props, ⟨fmt.bytes.length, 1, []⟩)

theorem ends_ld (hl : [ch 'l', ch 'd'] <:+ fmt.bytes) (props : Strprops) :
    Ends env fmt va (.morefmt 0 props) [ch 'l', ch 'd'] (printed env fmt va props) := by
  refine Ends.long ?_ hl (by decide)
  have hd : Ends env fmt va (.morefmt (0 + 1) props) [ch 'd'] _ :=
    ends_convert (tail_suffix hl) (by decide)
  have hconv : convert push env va (ch 'd') (Label.ofByte (ch 'd')) (0 + 1) props [] (place fmt []) =
      printed env fmt va props := by
    have hlabel : Label.ofByte (ch 'd') = .signed := by decide
    rw [hlabel]
    simp only [convert, printInt_eq, foldl_push, List.nil_append, printed]
    rfl
  rwa [hconv] at hd

/-- The width after a zero flag: the number starts right after it. -/
theorem ends_zero_plain (hW : W < 2 ^ 31)
    (hl : ch '0' :: (widthText W ++ [ch 'l', ch 'd']) <:+ fmt.bytes) :
    Ends env fmt va (.morefmt 0 props) (ch '0' :: (widthText W ++ [ch 'l', ch 'd']))
      (printed env fmt va { props with pad := ch '0', npad := BitVec.ofNat 32 W }) := by
  have hlen := length_widthText hW
  have hnum : numLen (widthText W ++ [ch 'l', ch 'd']) = (widthText W).length :=
    numLen_plain isDigit_widthText
  refine Ends.zero ?_ hl (by decide) (by omega)
  rw [hnum, List.drop_left, atolList_plain isDigit_widthText, valueFrom_widthText, setWidth_width]
  exact ends_ld ((List.suffix_append _ _).trans (tail_suffix hl)) _

/-- A minus sign, then digits with the value of the width. -/
theorem ends_minus (props : Strprops) {ds : List Byte} (hds : ∀ c ∈ ds, isDigit c = true) (hval : valueFrom 0 ds = W)
    (hl : ch '-' :: (ds ++ [ch 'l', ch 'd']) <:+ fmt.bytes) :
    Ends env fmt va
      (.morefmt 0 { props with npad := (atolList (ch '-' :: (ds ++ [ch 'l', ch 'd']))).setWidth 32 })
      ((ch '-' :: (ds ++ [ch 'l', ch 'd'])).drop (numLen (ch '-' :: (ds ++ [ch 'l', ch 'd']))))
      (printed env fmt va { props with npad := - BitVec.ofNat 32 W }) := by
  rw [numLen_minus hds (by decide), List.drop_succ_cons, List.drop_left, atolList_minus hds (by decide),
    hval, setWidth_neg_width]
  exact ends_ld ((List.suffix_append _ _).trans (tail_suffix hl)) _

theorem numLen_signed {ds : List Byte} (hds : ∀ c ∈ ds, isDigit c = true) (hlen : ds.length ≤ 11) :
    numLen (ch '-' :: (ds ++ [ch 'l', ch 'd'])) < 2 ^ 31 := by
  rw [numLen_minus hds (by decide)]
  omega

/-- The width without flags. -/
theorem ends_plain (hW : W < 2 ^ 31) (hl : widthText W ++ [ch 'l', ch 'd'] <:+ fmt.bytes)
    (h0 : props.npad = 0) :
    Ends env fmt va (.morefmt 0 props) (widthText W ++ [ch 'l', ch 'd'])
      (printed env fmt va { props with npad := BitVec.ofNat 32 W }) := by
  have hlen := length_widthText hW
  cases hw : widthText W with
  | nil =>
    have hW0 : W = 0 := by rw [← valueFrom_widthText W, hw]; rfl
    rw [hw] at hl
    have hprops : { props with npad := BitVec.ofNat 32 W } = props := by
      rw [hW0]
      cases props
      exact congrArg₂ _ h0.symm rfl
    rw [hprops]
    exact ends_ld hl props
  | cons c t =>
    rw [hw] at hl hlen
    have hds : ∀ d ∈ c :: t, isDigit d = true := hw ▸ isDigit_widthText
    have hval : valueFrom 0 (c :: t) = W := by rw [← hw, valueFrom_widthText]
    have hnum : numLen (c :: (t ++ [ch 'l', ch 'd'])) = (c :: t).length := numLen_plain hds
    have hatol : atolList (c :: (t ++ [ch 'l', ch 'd'])) = BitVec.ofNat 64 (valueFrom 0 (c :: t)) :=
      atolList_plain hds
    have hlt : numLen (c :: (t ++ [ch 'l', ch 'd'])) < 2 ^ 31 := by omega
    rw [List.cons_append] at hl ⊢
    refine Ends.number ?_ hl (label_widthText hw) hlt
    rw [hnum, hatol, hval, setWidth_width, List.length_cons, List.drop_succ_cons, List.drop_left]
    exact ends_ld ((List.suffix_append t _).trans (tail_suffix hl)) _

/-- The properties that a directive ends with. -/
def Flags.strprops (flags : Flags) (W : Nat) : Strprops :=
  ⟨match flags with | .zero | .zeroMinus => ch '0' | _ => ch ' ',
    if flags.left then - BitVec.ofNat 32 W else BitVec.ofNat 32 W, false⟩

theorem ends_directive (flags : Flags) (hW : W < 2 ^ 31)
    (hl : flags.text ++ (widthText W ++ [ch 'l', ch 'd']) <:+ fmt.bytes) :
    Ends env fmt va (.morefmt 0 ⟨ch ' ', 0, false⟩)
      (flags.text ++ (widthText W ++ [ch 'l', ch 'd'])) (printed env fmt va (flags.strprops W)) := by
  have hlen := length_widthText hW
  have hval := valueFrom_widthText W
  have hdigits : ∀ c ∈ widthText W, isDigit c = true := isDigit_widthText
  cases flags with
  | none => exact ends_plain hW hl rfl
  | zero => exact ends_zero_plain hW hl
  | minus =>
    simp only [Flags.text, List.cons_append, List.nil_append] at hl ⊢
    exact (ends_minus _ hdigits hval hl).number hl (by decide) (numLen_signed hdigits (by omega))
  | zeroMinus =>
    simp only [Flags.text, List.cons_append, List.nil_append] at hl ⊢
    refine Ends.zero ?_ hl (by decide) (numLen_signed hdigits (by omega))
    exact ends_minus ⟨ch '0', 0, false⟩ hdigits hval (tail_suffix hl)
  | minusZero =>
    simp only [Flags.text, List.cons_append, List.nil_append] at hl ⊢
    have hds : ∀ c ∈ ch '0' :: widthText W, isDigit c = true := by
      intro c hc
      rcases List.mem_cons.mp hc with rfl | hc
      · decide
      · exact hdigits c hc
    exact (ends_minus _ hds hval hl).number hl (by decide)
      (numLen_signed hds (by rw [List.length_cons]; omega))

/-- What a directive prints when its width fits an `int`. -/
theorem format_signed (env : Env) (va : Nat → Word) (flags : Flags) (hW : W < 2 ^ 31) :
    format push env (signedFormat flags W) va [] =
      some (printed env (signedFormat flags W) va (flags.strprops W)) := by
  apply format_of_ends
  · exact (ends_directive flags hW (List.suffix_cons _ _)).percent (List.suffix_refl _)
  · apply shortWidths_of_length
    have hlen := length_widthText hW
    have hflags : flags.text.length ≤ 2 := by cases flags <;> decide
    simp only [signedFormat, signedBytes, List.length_cons, List.length_append, List.length_nil]
    omega

/-! ### Padding -/

theorem toInt_ofNat {n : Nat} (h : n < 2 ^ 31) : (BitVec.ofNat 32 n).toInt = n :=
  (toInt_ofNat_eq_iff n).mpr h

theorem toInt_neg_ofNat {n : Nat} (h : n < 2 ^ 31) : (- BitVec.ofNat 32 n).toInt = - (n : Int) := by
  rw [BitVec.toInt_neg, toInt_ofNat h]
  apply Int.bmod_eq_of_le
  · omega
  · omega

theorem toInt_sub_ofNat {n k : Nat} (hn : n < 2 ^ 31) (hk : k < 2 ^ 31) :
    (BitVec.ofNat 32 n - BitVec.ofNat 32 k).toInt = (n : Int) - k := by
  rw [BitVec.toInt_sub, toInt_ofNat hn, toInt_ofNat hk]
  apply Int.bmod_eq_of_le
  · omega
  · omega

/-- A text to the right of its field. -/
theorem strText_right (pad : Byte) (alt : Bool) (hW : W < 2 ^ 31) (hs : s.length < 2 ^ 31) :
    strText s ⟨pad, BitVec.ofNat 32 W, alt⟩ = List.replicate (W - s.length) pad ++ s := by
  simp only [strText, toInt_ofNat hW]
  rcases Nat.eq_zero_or_pos W with rfl | hpos
  · simp
  · have hleft : (0 : Int) < W := by omega
    rw [if_pos hleft, if_pos hleft, toInt_sub_ofNat hW hs, BitVec.sub_add_cancel, toInt_ofNat hW]
    rw [show ((W : Int) - s.length).toNat = W - s.length by omega,
      show (- (W : Int)).toNat = 0 by omega]
    simp

/-- A text to the left of its field is followed by blanks. -/
theorem strText_left (pad : Byte) (alt : Bool) (hW : W < 2 ^ 31) (hs : s.length < 2 ^ 31) :
    strText s ⟨pad, - BitVec.ofNat 32 W, alt⟩ = s ++ List.replicate (W - s.length) (ch ' ') := by
  have hright : ¬ (0 : Int) < - (W : Int) := by omega
  simp only [strText, toInt_neg_ofNat hW, if_neg hright, List.nil_append]
  rw [BitVec.add_comm, ← BitVec.sub_eq_add_neg, toInt_sub_ofNat hs hW]
  rcases Nat.eq_zero_or_pos W with rfl | hpos
  · simp
  · rw [if_pos (by omega), show (- ((s.length : Int) - W)).toNat = W - s.length by omega]

/-- The text of a directive: the number and what fills its field. -/
def fieldText (flags : Flags) (W : Nat) (s : List Byte) : List Byte :=
  if flags.left then s ++ List.replicate (W - s.length) (ch ' ')
  else List.replicate (W - s.length) (if flags = .zero then ch '0' else ch ' ') ++ s

theorem strText_flags (flags : Flags) (hW : W < 2 ^ 31) (hs : s.length < 2 ^ 31) :
    strText s (flags.strprops W) = fieldText flags W s := by
  cases flags with
  | none => exact strText_right (ch ' ') false hW hs
  | zero => exact strText_right (ch '0') false hW hs
  | minus => exact strText_left (ch ' ') false hW hs
  | zeroMinus => exact strText_left (ch '0') false hW hs
  | minusZero => exact strText_left (ch ' ') false hW hs

theorem length_fieldText (flags : Flags) (W : Nat) (s : List Byte) :
    (fieldText flags W s).length = max W s.length := by
  rw [fieldText]
  split <;> simp only [List.length_append, List.length_replicate] <;> omega

/-! ### The number -/

/-- The decimal form of a number. -/
def canonical (z : Int) : List Byte := (if z < 0 then [ch '-'] else []) ++ numeral 10 z.natAbs

/-- The digits of the least `long` as they are looked up: at indices that are not positive. -/
def leastDigits (env : Env) : List Byte :=
  ((Nat.digits 10 (2 ^ 63)).map fun d : Nat => env.digits (- (d : Int))).reverse

theorem digitLoop_table (env : Env) {m : Nat} (hm : m < 10 ^ 64) :
    digitLoop env.digits 10 64 m = (Nat.digits 10 m).map digitByte := by
  rw [show (10 : Int) = ((10 : Nat) : Int) from rfl, digitLoop_natCast env.digits (by decide) 64 m hm]
  apply List.map_congr_left
  intro d hd
  exact digits_eq env (Nat.lt_trans (Nat.digits_lt_base (by decide) hd) (by decide))

/-- A number that is not negative. -/
theorem reverse_intBuf_of_nonneg (env : Env) {n : Word} (h : ¬ n.toInt < 0) :
    reverseLoop (intBuf env.digits n 10) = numeral 10 n.toInt.natAbs := by
  have hlt := BitVec.toInt_lt (x := n)
  have hbound : n.toInt.natAbs < 10 ^ 64 := by omega
  have hloop : digitLoop env.digits 10 64 n.toInt = (Nat.digits 10 n.toInt.natAbs).map digitByte := by
    rw [← digitLoop_table env hbound, Int.natAbs_of_nonneg (by omega)]
  simp only [intBuf, if_neg h, hloop, reverseLoop_eq, numeral]
  by_cases h0 : n.toInt.natAbs = 0
  · simp [h0]
  · rw [if_neg h0, if_neg (by simp [Nat.digits_ne_nil_iff_ne_zero, h0])]

/-- A negative number that can be negated. -/
theorem reverse_intBuf_of_neg (env : Env) {n : Word} (h : n.toInt < 0) (hmin : n.toInt ≠ - 2 ^ 63) :
    reverseLoop (intBuf env.digits n 10) = ch '-' :: numeral 10 n.toInt.natAbs := by
  have hle := BitVec.le_toInt n
  have hbound : n.toInt.natAbs < 10 ^ 64 := by omega
  have hneg : (- n).toInt = (n.toInt.natAbs : Int) := by
    rw [BitVec.toInt_neg, Int.bmod_eq_of_le (by omega) (by omega)]
    omega
  simp only [intBuf, if_pos h, hneg, digitLoop_table env hbound, reverseLoop_eq, numeral]
  rw [if_neg (by simp), if_neg (by omega), List.reverse_append]
  rfl

/-- The least `long` is its own negation. -/
theorem reverse_intBuf_of_least (env : Env) {n : Word} (hmin : n.toInt = - 2 ^ 63) :
    reverseLoop (intBuf env.digits n 10) = ch '-' :: leastDigits env := by
  have hneg : (- n).toInt = - ((2 ^ 63 : Nat) : Int) := by
    rw [BitVec.toInt_neg, hmin]
    decide
  have hloop : digitLoop env.digits 10 64 (- ((2 ^ 63 : Nat) : Int)) =
      (Nat.digits 10 (2 ^ 63)).map fun d : Nat => env.digits (- (d : Int)) := by
    rw [digitLoop_neg, show (10 : Int) = ((10 : Nat) : Int) from rfl,
      digitLoop_natCast _ (by decide) 64 (2 ^ 63) (by decide)]
  have hlt : n.toInt < 0 := by omega
  simp only [intBuf, if_pos hlt, hneg, hloop, reverseLoop_eq, leastDigits]
  rw [if_neg (by simp), List.reverse_append]
  rfl

/-- The number as a string, before its padding. -/
def number (env : Env) (n : Word) : List Byte := cstring (reverseLoop (intBuf env.digits n 10))

theorem length_digitLoop_le (digits : Int → Byte) (base : Int) (fuel : Nat) (n : Int) :
    (digitLoop digits base fuel n).length ≤ fuel := by
  induction fuel generalizing n with
  | zero => exact Nat.le_refl 0
  | succ fuel ih =>
    rw [digitLoop]
    split
    · exact Nat.zero_le _
    · exact Nat.succ_le_succ (ih _)

theorem length_number_lt (env : Env) (n : Word) : (number env n).length < 2 ^ 31 := by
  have hcut := (List.takeWhile_sublist (p := (· ≠ (0 : Byte))) (l := reverseLoop (intBuf env.digits n 10))).length_le
  have hbuf : (intBuf env.digits n 10).length ≤ 65 := by
    have hloop := fun m => length_digitLoop_le env.digits 10 64 m
    simp only [intBuf]
    split
    · split
      · exact Nat.le_add_left 1 64
      · rw [List.length_append]
        exact Nat.succ_le_succ (hloop _)
    · split
      · exact Nat.le_add_left 1 64
      · exact Nat.le_succ_of_le (hloop _)
  rw [reverseLoop_eq, List.length_reverse] at hcut
  rw [number, cstring, reverseLoop_eq]
  omega

theorem number_eq (env : Env) {n : Word} (hmin : n.toInt ≠ - 2 ^ 63) :
    number env n = canonical n.toInt := by
  have hnz : ∀ c ∈ numeral 10 n.toInt.natAbs, c ≠ 0 := numeral_ne_zero (by decide) (by decide)
  rw [number, canonical]
  by_cases h : n.toInt < 0
  · rw [reverse_intBuf_of_neg env h hmin, if_pos h]
    apply cstring_eq
    intro c hc
    rcases List.mem_cons.mp hc with rfl | hc
    · decide
    · exact hnz c hc
  · rw [reverse_intBuf_of_nonneg env h, if_neg h]
    exact cstring_eq hnz

theorem number_least (env : Env) {n : Word} (hmin : n.toInt = - 2 ^ 63) :
    number env n = ch '-' :: cstring (leastDigits env) := by
  rw [number, reverse_intBuf_of_least env hmin]
  rfl

/-- The least `long` is printed when the bytes before the table are the digits too. -/
def DigitsBelow (env : Env) : Prop := ∀ d : Nat, 2 ≤ d → d ≤ 9 → env.around (- (d : Int)) = digitByte d

theorem digits_least :
    Nat.digits 10 (2 ^ 63) = [8, 0, 8, 5, 7, 7, 4, 5, 8, 6, 3, 0, 2, 7, 3, 3, 2, 2, 9] := by
  norm_num

theorem leastDigits_eq_iff (env : Env) :
    leastDigits env = numeral 10 (2 ^ 63) ↔ DigitsBelow env := by
  have hnum : numeral 10 (2 ^ 63) = ((Nat.digits 10 (2 ^ 63)).map digitByte).reverse := if_neg (by decide)
  rw [hnum, leastDigits, List.reverse_inj, List.map_inj_left]
  have hbelow : ∀ d : Nat, 2 ≤ d → env.digits (- (d : Int)) = env.around (- (d : Int)) := by
    intro d hd
    rw [Env.digits, if_neg (by omega)]
  constructor
  · intro h d h2 h9
    have hmem : ∀ d ≤ 9, 2 ≤ d → d ∈ Nat.digits 10 (2 ^ 63) := by
      rw [digits_least]
      decide
    rw [← hbelow d h2, h d (hmem d h9 h2)]
  · intro h d hd
    have hcases : ∀ d ∈ Nat.digits 10 (2 ^ 63), d = 0 ∨ 2 ≤ d ∧ d ≤ 9 := by
      rw [digits_least]
      decide
    rcases hcases d hd with rfl | ⟨h2, h9⟩
    · rfl
    · rw [hbelow d h2, h d h2 h9]

/-! ### Digit strings and their values -/

theorem digitByte_value : ∀ c : Byte, isDigit c = true →
    (c - ch '0').toNat < 10 ∧ digitByte (c - ch '0').toNat = c := by
  decide +kernel

theorem exists_digits {ds : List Byte} (h : ∀ c ∈ ds, isDigit c = true) :
    ∃ l : List Nat, (∀ d ∈ l, d < 10) ∧ ds = (l.map digitByte).reverse := by
  refine ⟨(ds.map fun c => (c - ch '0').toNat).reverse, ?_, ?_⟩
  · intro d hd
    rw [List.mem_reverse, List.mem_map] at hd
    obtain ⟨c, hc, rfl⟩ := hd
    exact (digitByte_value c (h c hc)).1
  · rw [List.map_reverse, List.reverse_reverse, List.map_map]
    exact (List.map_id' ds).symm.trans
      (List.map_congr_left fun c hc => (digitByte_value c (h c hc)).2.symm)

theorem valueFrom_lt {ds : List Byte} (h : ∀ c ∈ ds, isDigit c = true) :
    valueFrom 0 ds < 10 ^ ds.length := by
  obtain ⟨l, hl, rfl⟩ := exists_digits h
  rw [valueFrom_digits 0 hl, Nat.zero_mul, Nat.zero_add, List.length_reverse, List.length_map]
  exact Nat.ofDigits_lt_base_pow_length (by decide) hl

/-- Digit strings of one length with one value are equal. -/
theorem digits_ext {ds es : List Byte} (hd : ∀ c ∈ ds, isDigit c = true)
    (he : ∀ c ∈ es, isDigit c = true) (hlen : ds.length = es.length)
    (hval : valueFrom 0 ds = valueFrom 0 es) : ds = es := by
  obtain ⟨l, hl, rfl⟩ := exists_digits hd
  obtain ⟨m, hm, rfl⟩ := exists_digits he
  simp only [valueFrom_digits 0 hl, valueFrom_digits 0 hm, Nat.zero_mul, Nat.zero_add, List.length_reverse,
    List.length_map] at hval hlen
  rw [Nat.ofDigits_inj_of_len_eq (by decide) hlen hl hm hval]

theorem length_leastDigits (env : Env) : (leastDigits env).length = 19 := by
  rw [leastDigits, List.length_reverse, List.length_map, digits_least]
  rfl

theorem cut_initial (env : Env) : (cstring (leastDigits env)).takeWhile isDigit <+: leastDigits env :=
  (List.takeWhile_prefix _).trans (List.takeWhile_prefix _)

theorem length_leastDigits_cut (env : Env) :
    ((cstring (leastDigits env)).takeWhile isDigit).length ≤ 19 :=
  length_leastDigits env ▸ (cut_initial env).length_le

theorem valueFrom_least_iff (env : Env) :
    valueFrom 0 ((cstring (leastDigits env)).takeWhile isDigit) = 2 ^ 63 ↔ DigitsBelow env := by
  rw [← leastDigits_eq_iff]
  have hnumlen : (numeral 10 (2 ^ 63)).length = 19 := by
    rw [numeral, if_neg (by decide), List.length_reverse, List.length_map, digits_least]
    rfl
  have hlen := length_leastDigits env
  constructor
  · intro h
    let ds := (cstring (leastDigits env)).takeWhile isDigit
    have hpre : ds <+: leastDigits env := cut_initial env
    have hds : ∀ c ∈ ds, isDigit c = true := fun c hc => List.mem_takeWhile_imp hc
    have hle := hpre.length_le
    have hfull : ds.length = 19 := by
      by_contra hne
      have hlt := valueFrom_lt hds
      have hpow : 10 ^ ds.length ≤ 10 ^ 18 := Nat.pow_le_pow_right (by decide) (by omega)
      have hval : valueFrom 0 ds = 2 ^ 63 := h
      omega
    rw [← hpre.eq_of_length (by omega)]
    exact digits_ext hds (isDigit_numeral _) (by omega) (by rw [valueFrom_numeral]; exact h)
  · intro h
    have hnz := numeral_ne_zero (n := 2 ^ 63) (show 1 < 10 by decide) (by decide)
    rw [h, cstring_eq hnz, List.takeWhile_eq_self_iff.mpr (isDigit_numeral _), valueFrom_numeral]

end Dmos.Proofs.SignedPrint
