import Dmos.Proofs.SignedRoundTrip
import Dmos.Proofs.UnsignedPrint

namespace Dmos.Proofs.FormatLanguage
open Printf Numerals Atol Formatting Truncation SignedPrint

variable {env : Env} {fmt : CString} {va : Nat → Word} {mode mode' : Mode} {f x : Byte}
  {l l' t u s : List Byte} {c : Cursor} {k k' W : Nat} {rs rs' : List Word} {nlong : BitVec 32}
  {props : Strprops} {r : List Byte × Cursor}

/-! ### The language -/

/-- The letters of `case 'l'` and of `case 't': case 'z'`. -/
inductive Modifier where
  | l | t | z
  deriving DecidableEq

def Modifier.byte : Modifier → Byte
  | .l => ch 'l'
  | .t => ch 't'
  | .z => ch 'z'

inductive Conversion where
  | char | signed | unsigned | hex | pointer | string
  deriving DecidableEq

def Conversion.byte : Conversion → Byte
  | .char => ch 'c'
  | .signed => ch 'd'
  | .unsigned => ch 'u'
  | .hex => ch 'x'
  | .pointer => ch 'p'
  | .string => ch 's'

/-- A directive that takes an argument; its width fits an `int`. -/
structure Directive where
  alternate : Bool
  flags : Flags
  width : Nat
  modifiers : List Modifier
  conversion : Conversion
  fits : width < 2 ^ 31

/-- A format is a sequence of plain characters, `%%`, a `%` before a letter that means
nothing, and directives. -/
inductive Piece where
  | plain (c : Byte) (nonzero : c ≠ 0) (text : c ≠ ch '%')
  | percent
  | unknown (c : Byte) (other : Label.ofByte c = .other)
  | directive (d : Directive)

def Directive.tail (d : Directive) : List Byte :=
  d.modifiers.map Modifier.byte ++ [d.conversion.byte]

def Directive.bytes (d : Directive) : List Byte :=
  ch '%' :: ((if d.alternate then [ch '#'] else []) ++ (d.flags.text ++ (widthText d.width ++ d.tail)))

def Piece.bytes : Piece → List Byte
  | .plain c _ _ => [c]
  | .percent => [ch '%', ch '%']
  | .unknown c _ => [ch '%', c]
  | .directive d => d.bytes

def spell (ps : List Piece) : List Byte := ps.flatMap Piece.bytes

/-! ### What the code prints -/

/-- The `long` that `%d` takes: a modifier of any kind makes it the whole argument. -/
def Directive.signedArg (d : Directive) (arg : Word) : Word :=
  if d.modifiers = [] then (arg.setWidth 32).signExtend 64 else arg

def Flags.zeros (flags : Flags) : Bool := flags = .zero || flags = .zeroMinus

/-- A hexadecimal number in its field. The prefix of a field filled with zeros stands before
it, and takes two places of it unless the number is to the left. -/
def hexText (alternate : Bool) (flags : Flags) (W : Nat) (n : BitVec 32) : List Byte :=
  if alternate = false ∨ n = 0 then fieldText flags W (numeral 16 n.toNat)
  else if Flags.zeros flags then
    [ch '0', ch 'x'] ++ fieldText flags (if flags.left then W else W - 2) (numeral 16 n.toNat)
  else fieldText flags W ([ch '0', ch 'x'] ++ numeral 16 n.toNat)

/-- What the code prints for a directive and its argument. -/
def Directive.prints (env : Env) (d : Directive) (arg : Word) : List Byte :=
  match d.conversion with
  | .char => [arg.setWidth 8]
  | .signed => fieldText d.flags d.width (number env (d.signedArg arg))
  | .unsigned => fieldText d.flags d.width (numeral 10 (arg.setWidth 32).toNat)
  | .hex => hexText d.alternate d.flags d.width (arg.setWidth 32)
  | .pointer => hexText true d.flags d.width (env.word arg)
  | .string => fieldText d.flags d.width (env.strAt arg).bytes

/-- The pointers a directive reads through. -/
def Directive.reads (d : Directive) (arg : Word) : List Word :=
  match d.conversion with
  | .pointer | .string => [arg]
  | _ => []

/-- The pieces from argument `k` on, each with the argument that is next: a directive takes it. -/
def withArgs (va : Nat → Word) : Nat → List Piece → List (Piece × Word)
  | _, [] => []
  | k, .directive d :: ps => (.directive d, va k) :: withArgs va (k + 1) ps
  | k, p :: ps => (p, va k) :: withArgs va k ps

def Piece.prints (env : Env) (arg : Word) : Piece → List Byte
  | .plain c _ _ => [c]
  | .percent => [ch '%']
  | .unknown c _ => [c]
  | .directive d => d.prints env arg

def Piece.reads (arg : Word) : Piece → List Word
  | .directive d => d.reads arg
  | _ => []

/-- What the code prints for a format, and the pointers it reads through. -/
def printedAll (env : Env) (args : List (Piece × Word)) : List Byte :=
  args.flatMap fun a => a.1.prints env a.2

def readsAll (args : List (Piece × Word)) : List Word := args.flatMap fun a => a.1.reads a.2

/-- A string argument has a length that fits an `int`. -/
def Piece.Takes (env : Env) (arg : Word) : Piece → Prop
  | .directive d => d.conversion = .string → (env.strAt arg).bytes.length < 2 ^ 31
  | _ => True

/-! ### The bytes of a format -/

theorem modifier_ne_zero (m : Modifier) : m.byte ≠ 0 := by cases m <;> decide

theorem conversion_ne_zero (v : Conversion) : v.byte ≠ 0 := by cases v <;> decide

theorem zero_not_mem_tail (d : Directive) : 0 ∉ d.tail := by
  intro h
  rcases List.mem_append.mp h with h | h
  · obtain ⟨m, _, hm⟩ := List.mem_map.mp h
    exact modifier_ne_zero m hm
  · exact conversion_ne_zero d.conversion (List.mem_singleton.mp h).symm

theorem zero_not_mem_directive (d : Directive) : 0 ∉ d.bytes := by
  have hw : (0 : Byte) ∉ widthText d.width := fun h => absurd (isDigit_widthText 0 h) (by decide)
  have hf : (0 : Byte) ∉ d.flags.text := by cases d.flags <;> decide
  have ha : (0 : Byte) ∉ (if d.alternate then [ch '#'] else []) := by cases d.alternate <;> decide
  simp only [Directive.bytes, List.mem_cons, List.mem_append, not_or]
  exact ⟨by decide, ha, hf, hw, zero_not_mem_tail d⟩

theorem zero_not_mem_spell (ps : List Piece) : 0 ∉ spell ps := by
  intro h
  obtain ⟨p, _, hp⟩ := List.mem_flatMap.mp h
  cases p with
  | plain c h0 _ => exact h0 (List.mem_singleton.mp hp).symm
  | percent => exact absurd hp (by decide)
  | unknown c hc =>
    rcases List.mem_cons.mp hp with h | h
    · exact absurd h (by decide)
    · rw [← List.mem_singleton.mp h] at hc
      exact absurd hc (by decide)
  | directive d => exact zero_not_mem_directive d hp

/-- The format that a sequence of pieces spells. -/
def formatOf (ps : List Piece) : CString := ⟨spell ps, zero_not_mem_spell ps⟩

/-! ### Runs from inside a format -/

/-- The cursor where this much of the format is left, at an argument. -/
def spot (fmt : CString) (l : List Byte) (k : Nat) (rs : List Word) : Cursor :=
  ⟨fmt.bytes.length - l.length, k, rs⟩

/-- The rest is part of the format, and the run from there adds a text and ends. -/
def Prints (env : Env) (fmt : CString) (va : Nat → Word) (mode : Mode) (l : List Byte) (k : Nat)
    (rs : List Word) (r : List Byte × Cursor) : Prop :=
  l <:+ fmt.bytes ∧ ∃ fuel, formatLoop push env fmt va fuel mode [] (spot fmt l k rs) = some r

theorem at_spot (h : l <:+ fmt.bytes) : At fmt .text (spot fmt l k rs) false l :=
  ⟨Nat.sub_le _ _, (List.suffix_iff_eq_drop.mp h).symm, rfl⟩

theorem read_spot (h : f :: t <:+ fmt.bytes) : fmt.read (spot fmt (f :: t) k rs).fmt = some f := by
  have hat : At fmt .text (spot fmt (f :: t) k rs) false (f :: t) := at_spot h
  exact hat.read_cons.1

theorem spot_tail (h : f :: t <:+ fmt.bytes) (k : Nat) (rs : List Word) :
    { spot fmt (f :: t) k rs with fmt := (spot fmt (f :: t) k rs).fmt + 1 } = spot fmt t k rs := by
  have hle := h.length_le
  simp only [spot, List.length_cons, Cursor.mk.injEq, and_self, and_true] at hle ⊢
  omega

theorem prints_nil : Prints env fmt va .text [] k rs ([], ⟨fmt.bytes.length, k, rs⟩) := by
  have hat : At fmt .text (spot fmt [] k rs) false [] := at_spot List.nil_suffix
  exact ⟨List.nil_suffix, 1, by rw [formatLoop, hat.body_done push]; rfl⟩

/-- A pass that adds a text stands before the rest of the run. -/
theorem Prints.step (h : Prints env fmt va mode' l' k' rs' (t, c)) (hl : l <:+ fmt.bytes)
    (hb : body push env fmt va mode [] (spot fmt l k rs) = some (s, spot fmt l' k' rs', some mode')) :
    Prints env fmt va mode l k rs (s ++ t, c) := by
  obtain ⟨_, fuel, hrun⟩ := h
  refine ⟨hl, fuel + 1, ?_⟩
  rw [formatLoop, hb, Option.bind_some]
  simp only
  rw [formatLoop_eq push, hrun]
  simp

theorem Prints.plain (h : Prints env fmt va .text l k rs (t, c)) (hl : f :: l <:+ fmt.bytes)
    (h0 : f ≠ 0) (hf : f ≠ ch '%') : Prints env fmt va .text (f :: l) k rs (f :: t, c) := by
  apply h.step (s := [f]) hl
  rw [body, read_spot hl, Option.bind_some]
  simp only [if_neg h0, if_pos hf, spot_tail hl]
  rfl

theorem Prints.open (h : Prints env fmt va (.morefmt 0 ⟨ch ' ', 0, false⟩) l k rs (t, c))
    (hl : ch '%' :: l <:+ fmt.bytes) : Prints env fmt va .text (ch '%' :: l) k rs (t, c) := by
  apply h.step (s := []) hl
  rw [body, read_spot hl, Option.bind_some, spot_tail hl]
  rfl

theorem Prints.alternate
    (h : Prints env fmt va (.morefmt nlong { props with alternate := true }) l k rs (t, c))
    (hl : ch '#' :: l <:+ fmt.bytes) : Prints env fmt va (.morefmt nlong props) (ch '#' :: l) k rs (t, c) := by
  apply h.step (s := []) hl
  have hf : Label.ofByte (ch '#') = .alternate := by decide
  simp only [body, read_spot hl, Option.bind_some, spot_tail hl, hf]

/-- `nlong` after a modifier. -/
def Modifier.count (nlong : BitVec 32) : Modifier → BitVec 32
  | .l => nlong + 1
  | .t | .z => 1

theorem Prints.modifier (m : Modifier)
    (h : Prints env fmt va (.morefmt (m.count nlong) props) l k rs (t, c))
    (hl : m.byte :: l <:+ fmt.bytes) : Prints env fmt va (.morefmt nlong props) (m.byte :: l) k rs (t, c) := by
  apply h.step (s := []) hl
  rw [body, read_spot hl, Option.bind_some, spot_tail hl]
  cases m <;> rfl

theorem Prints.modifiers (ms : List Modifier)
    (h : Prints env fmt va (.morefmt (ms.foldl Modifier.count nlong) props) l k rs (t, c))
    (hl : ms.map Modifier.byte ++ l <:+ fmt.bytes) :
    Prints env fmt va (.morefmt nlong props) (ms.map Modifier.byte ++ l) k rs (t, c) := by
  induction ms generalizing nlong with
  | nil => exact h
  | cons m ms ih =>
    rw [List.map_cons, List.cons_append] at hl ⊢
    exact (ih h ((List.suffix_cons _ _).trans hl)).modifier m hl

/-! ### Flags and widths -/

/-- A character that ends a number and starts none. -/
def Stop (x : Byte) : Prop := isDigit x = false ∧ isBlank x = false ∧ x ≠ ch '-' ∧ x ≠ ch '+'

theorem atolList_stop {ds : List Byte} (hds : ∀ d ∈ ds, isDigit d = true) (hx : Stop x) :
    atolList (ds ++ x :: u) = BitVec.ofNat 64 (valueFrom 0 ds) := by
  obtain ⟨d, v, hdv, hb, hm, hp⟩ := head_of_digits (t := u) hds fun _ => hx.2
  have hblank : (ds ++ x :: u).dropWhile isBlank = d :: v := by
    rw [hdv, List.dropWhile_cons, hb]
    rfl
  rw [atolList, hblank]
  simp only
  rw [if_neg hm, if_neg hp, ← hdv, takeWhile_digits hds hx.1]

theorem numLen_stop {ds : List Byte} (hds : ∀ d ∈ ds, isDigit d = true) (hx : Stop x) :
    numLen (ds ++ x :: u) = ds.length := by
  obtain ⟨d, v, hdv, _, hm, _⟩ := head_of_digits (t := u) hds fun _ => hx.2
  rw [hdv, numLen, if_neg hm, ← hdv, takeWhile_digits hds hx.1]

/-- A width is read where it stands. -/
theorem width_spot (hl : l <:+ fmt.bytes) (hn : numLen l < 2 ^ 31)
    (hc : c = { spot fmt l k rs with fmt := (spot fmt l k rs).fmt + 1 }) (props : Strprops) :
    width fmt nlong props ([] : List Byte) c = some ([], spot fmt (l.drop (numLen l)) k rs,
      some (.morefmt nlong { props with npad := (atolList l).setWidth 32 })) := by
  have hlen := hl.length_le
  have hnle := numLen_le l
  have hat : At fmt .text (spot fmt l k rs) false l := at_spot hl
  rw [width, hc, Nat.add_sub_cancel, fmtnum_read hat.le (Nat.lt_succ_self _), hat.rest, if_pos hn,
    Option.map_some]
  simp only [spot, List.length_drop, Option.some.injEq, Prod.mk.injEq, Cursor.mk.injEq, and_true,
    true_and]
  omega

theorem Prints.number (h : Prints env fmt va
      (.morefmt nlong { props with npad := (atolList (f :: l)).setWidth 32 })
      ((f :: l).drop (numLen (f :: l))) k rs (t, c))
    (hl : f :: l <:+ fmt.bytes) (hf : Label.ofByte f = .number) (hn : numLen (f :: l) < 2 ^ 31) :
    Prints env fmt va (.morefmt nlong props) (f :: l) k rs (t, c) := by
  apply h.step (s := []) hl
  simp only [body, read_spot hl, Option.bind_some, hf]
  exact width_spot hl hn rfl props

theorem Prints.zero (h : Prints env fmt va
      (.morefmt nlong { props with pad := ch '0', npad := (atolList l).setWidth 32 })
      (l.drop (numLen l)) k rs (t, c))
    (hl : ch '0' :: l <:+ fmt.bytes) (hn : numLen l < 2 ^ 31) :
    Prints env fmt va (.morefmt nlong props) (ch '0' :: l) k rs (t, c) := by
  apply h.step (s := []) hl
  have hf : Label.ofByte (ch '0') = .zero := by decide
  simp only [body, read_spot hl, Option.bind_some, hf]
  have hc := congrArg (fun c : Cursor => { c with fmt := c.fmt + 1 }) (spot_tail hl k rs)
  exact width_spot ((List.suffix_cons _ _).trans hl) hn hc _

/-- A minus sign and digits, wherever the number starts. -/
theorem read_minus {ds : List Byte} (hds : ∀ d ∈ ds, isDigit d = true) (hval : valueFrom 0 ds = W)
    (hx : Stop x) :
    (ch '-' :: (ds ++ x :: u)).drop (numLen (ch '-' :: (ds ++ x :: u))) = x :: u ∧
      (atolList (ch '-' :: (ds ++ x :: u))).setWidth 32 = - BitVec.ofNat 32 W := by
  rw [numLen_minus hds hx.1, List.drop_succ_cons, List.drop_left, atolList_minus hds hx.1, hval,
    setWidth_neg_width]
  exact ⟨rfl, rfl⟩

theorem read_width (hx : Stop x) :
    (widthText W ++ x :: u).drop (numLen (widthText W ++ x :: u)) = x :: u ∧
      (atolList (widthText W ++ x :: u)).setWidth 32 = BitVec.ofNat 32 W := by
  rw [numLen_stop isDigit_widthText hx, List.drop_left, atolList_stop isDigit_widthText hx,
    valueFrom_widthText, setWidth_width]
  exact ⟨rfl, rfl⟩

/-- The width without flags. -/
theorem Prints.width (hW : W < 2 ^ 31) (hx : Stop x) {pad : Byte} {alternate : Bool}
    (h : Prints env fmt va (.morefmt nlong ⟨pad, BitVec.ofNat 32 W, alternate⟩) (x :: u) k rs (t, c))
    (hl : widthText W ++ x :: u <:+ fmt.bytes) :
    Prints env fmt va (.morefmt nlong ⟨pad, 0, alternate⟩) (widthText W ++ x :: u) k rs (t, c) := by
  have hlen := length_widthText hW
  obtain ⟨hdrop, hval⟩ := read_width (W := W) (u := u) hx
  have hnum : numLen (widthText W ++ x :: u) = (widthText W).length := numLen_stop isDigit_widthText hx
  cases hw : widthText W with
  | nil =>
    have hW0 : W = 0 := by rw [← valueFrom_widthText W, hw]; rfl
    rw [hW0] at h
    exact h
  | cons d ds =>
    rw [hw] at hl hdrop hval hnum hlen
    rw [List.cons_append] at hl hdrop hval hnum ⊢
    refine Prints.number ?_ hl (label_widthText hw) (by omega)
    rw [hdrop, hval]
    exact h

/-- The flags and the width set the properties of the directive. -/
theorem Prints.field (flags : Flags) (hW : W < 2 ^ 31) (hx : Stop x) {alternate : Bool}
    (h : Prints env fmt va (.morefmt nlong { flags.strprops W with alternate := alternate }) (x :: u)
      k rs (t, c))
    (hl : flags.text ++ (widthText W ++ x :: u) <:+ fmt.bytes) :
    Prints env fmt va (.morefmt nlong ⟨ch ' ', 0, alternate⟩) (flags.text ++ (widthText W ++ x :: u))
      k rs (t, c) := by
  have hlen := length_widthText hW
  have hdigits : ∀ d ∈ widthText W, isDigit d = true := isDigit_widthText
  have hminus : numLen (ch '-' :: (widthText W ++ x :: u)) = (widthText W).length + 1 :=
    numLen_minus hdigits hx.1
  obtain ⟨hdrop, hval⟩ := read_minus (u := u) hdigits (valueFrom_widthText W) hx
  cases flags with
  | none => exact Prints.width hW hx h hl
  | zero =>
    simp only [Flags.text, List.cons_append, List.nil_append] at hl ⊢
    obtain ⟨hdrop, hval⟩ := read_width (W := W) (u := u) hx
    have hnum : numLen (widthText W ++ x :: u) = (widthText W).length := numLen_stop hdigits hx
    refine Prints.zero ?_ hl (by omega)
    rw [hdrop, hval]
    exact h
  | minus =>
    simp only [Flags.text, List.cons_append, List.nil_append] at hl ⊢
    refine Prints.number ?_ hl (by decide) (by rw [hminus]; omega)
    rw [hdrop, hval]
    exact h
  | zeroMinus =>
    simp only [Flags.text, List.cons_append, List.nil_append] at hl ⊢
    refine Prints.zero ?_ hl (by rw [hminus]; omega)
    rw [hdrop, hval]
    exact h
  | minusZero =>
    simp only [Flags.text, List.cons_append, List.nil_append] at hl ⊢
    have hds : ∀ d ∈ ch '0' :: widthText W, isDigit d = true := by
      intro d hd
      rcases List.mem_cons.mp hd with rfl | hd
      · decide
      · exact hdigits d hd
    have hval0 : valueFrom 0 (ch '0' :: widthText W) = W := valueFrom_widthText W
    obtain ⟨hdrop, hval⟩ := read_minus (u := u) hds hval0 hx
    have hnum := numLen_minus (t := u) hds hx.1
    simp only [List.cons_append, List.length_cons] at hdrop hval hnum
    refine Prints.number ?_ hl (by decide) (by omega)
    rw [hdrop, hval]
    exact h

/-! ### Conversions -/

/-- The labels that print without an argument end a directive at once. -/
theorem Prints.bare (h : Prints env fmt va .text l k rs (t, c)) (hl : f :: l <:+ fmt.bytes)
    (hf : Label.ofByte f = .percent ∧ f = ch '%' ∨ Label.ofByte f = .other) :
    Prints env fmt va (.morefmt nlong props) (f :: l) k rs (f :: t, c) := by
  apply h.step (s := [f]) hl
  simp only [body, read_spot hl, Option.bind_some, spot_tail hl]
  rcases hf with ⟨hf, rfl⟩ | hf
  · rw [hf]
    rfl
  · rw [hf]
    rfl

def Conversion.label : Conversion → Label
  | .char => .char
  | .signed => .signed
  | .unsigned => .unsigned
  | .hex => .hex
  | .pointer => .pointer
  | .string => .string

theorem Prints.convert (v : Conversion) (h : Prints env fmt va .text l k' rs' (t, c))
    (hl : v.byte :: l <:+ fmt.bytes)
    (hv : convert push env va v.byte v.label nlong props [] (spot fmt l k rs) = (s, spot fmt l k' rs')) :
    Prints env fmt va (.morefmt nlong props) (v.byte :: l) k rs (s ++ t, c) := by
  apply h.step hl
  have hlabel : Label.ofByte v.byte = v.label := by cases v <;> decide
  simp only [body, read_spot hl, Option.bind_some, spot_tail hl, hlabel]
  cases v <;> simp only [Conversion.label, Conversion.byte] at hv ⊢ <;> rw [hv]

/-- Fewer than `2^32` modifiers leave a count that is zero only when there are none. -/
theorem count_pos (ms : List Modifier) (hlt : nlong.toNat + ms.length < 2 ^ 32)
    (h : 0 < nlong.toNat ∨ ms ≠ []) : 0 < (ms.foldl Modifier.count nlong).toNat := by
  induction ms generalizing nlong with
  | nil => exact h.resolve_right fun h => h rfl
  | cons m ms ih =>
    rw [List.length_cons] at hlt
    have hm : 0 < (m.count nlong).toNat ∧ (m.count nlong).toNat ≤ nlong.toNat + 1 := by
      cases m with
      | l =>
        have hadd : (nlong + 1).toNat = nlong.toNat + 1 := by
          rw [BitVec.toNat_add, show BitVec.toNat (1 : BitVec 32) = 1 from rfl, Nat.mod_eq_of_lt (by omega)]
        rw [Modifier.count, hadd]
        exact ⟨Nat.succ_pos _, Nat.le_refl _⟩
      | t => exact ⟨Nat.one_pos, Nat.le_add_left 1 _⟩
      | z => exact ⟨Nat.one_pos, Nat.le_add_left 1 _⟩
    exact ih (by omega) (.inl hm.1)

theorem vaSigned_eq (va : Nat → Word) (d : Directive) (hlen : d.modifiers.length < 2 ^ 32) (hc : c.va = k) :
    vaSigned va (d.modifiers.foldl Modifier.count 0) c = d.signedArg (va k) := by
  rw [vaSigned, hc, Directive.signedArg]
  by_cases hnil : d.modifiers = []
  · rw [hnil, if_pos rfl, List.foldl_nil, if_pos rfl]
  · have hpos : 0 < (d.modifiers.foldl Modifier.count 0).toNat :=
      count_pos d.modifiers (by simpa using hlen) (.inr hnil)
    have hne : d.modifiers.foldl Modifier.count 0 ≠ 0 := fun h0 => by
      rw [h0] at hpos
      exact absurd hpos (by decide)
    rw [if_neg hne, if_neg hnil]

theorem length_numeral_word {base : Nat} (hb : 1 < base) (w : BitVec 32) :
    (numeral base w.toNat).length ≤ 32 := by
  rw [numeral]
  split
  · exact Nat.succ_pos 31
  · rw [List.length_reverse, List.length_map, Nat.digits_length_le_iff hb]
    exact Nat.lt_of_lt_of_le w.isLt (Nat.pow_le_pow_left hb 32)

/-- What `print_unsigned` adds, by its branches. -/
theorem unsignedText_eq (env : Env) {base : Nat} (hb : 1 < base) (h16 : base ≤ 16) (w : BitVec 32)
    (props : Strprops) :
    unsignedText env.digits w base props =
      if w = 0 ∨ ¬ (props.alternate = true ∧ base = 16) then strText (numeral base w.toNat) props
      else if props.pad = ch '0' then
        [ch '0', ch 'x'] ++ strText (numeral base w.toNat) { props with npad :=
          if 0 < props.npad.toInt then if 0 < (props.npad - 2).toInt then props.npad - 2 else 0
          else props.npad }
      else strText ([ch '0', ch 'x'] ++ numeral base w.toNat) props := by
  have hnz : ∀ c ∈ numeral base w.toNat, c ≠ 0 := numeral_ne_zero hb h16
  simp only [unsignedText, printUnsigned, UnsignedPrint.digitLoop_unsigned env hb h16, printStr_eq,
    foldl_push, List.nil_append, reverseLoop_eq]
  by_cases h0 : w = 0
  · have hzero : w.toNat = 0 := by rw [h0]; rfl
    rw [if_pos (show w = 0 ∨ _ from .inl h0), hzero, Nat.digits_zero]
    rfl
  · have h0' : w.toNat ≠ 0 := fun h => h0 (BitVec.eq_of_toNat_eq h)
    have hne : (Nat.digits base w.toNat).map digitByte ≠ [] := by
      simpa [Nat.digits_ne_nil_iff_ne_zero] using h0'
    have hnum : ((Nat.digits base w.toNat).map digitByte).reverse = numeral base w.toNat := by
      rw [numeral, if_neg h0']
    have hpre : cstring ([ch 'x', ch '0'].reverse ++ numeral base w.toNat) =
        [ch '0', ch 'x'] ++ numeral base w.toNat := by
      apply cstring_eq
      intro c hc
      have hx : ∀ c ∈ [ch 'x', ch '0'].reverse, c ≠ 0 := by decide
      rcases List.mem_append.mp hc with hc | hc
      · exact hx c hc
      · exact hnz c hc
    rw [if_neg hne, List.reverse_append, hnum, cstring_eq hnz, hpre]
    by_cases halt : props.alternate = true ∧ base = 16
    · have hcond : (props.alternate && (base : Int) == 16) = true := by
        rw [halt.1, halt.2]
        rfl
      have hplain : ¬ (w = 0 ∨ ¬ (props.alternate = true ∧ base = 16)) := fun h =>
        h.elim h0 fun h => h halt
      rw [if_pos hcond, if_neg hplain]
      rfl
    · have hcond : ¬ (props.alternate && (base : Int) == 16) = true := by
        intro h
        rw [Bool.and_eq_true_iff, beq_iff_eq] at h
        exact halt ⟨h.1, by omega⟩
      rw [if_neg hcond, if_pos (show w = 0 ∨ _ from .inr halt)]

theorem strText_field (flags : Flags) (alternate : Bool) (hW : W < 2 ^ 31) (hs : s.length < 2 ^ 31) :
    strText s { flags.strprops W with alternate := alternate } = fieldText flags W s :=
  (rfl : _ = strText s (flags.strprops W)).trans (strText_flags flags hW hs)

theorem pad_zero_iff (flags : Flags) : (flags.strprops W).pad = ch '0' ↔ Flags.zeros flags = true := by
  cases flags <;> simp only [Flags.strprops, Flags.zeros] <;> decide

/-- The width that is left of a field of zeros after the prefix. -/
theorem npad_after_base (hW : W < 2 ^ 31) (flags : Flags) :
    (if 0 < (flags.strprops W).npad.toInt then
      if 0 < ((flags.strprops W).npad - 2).toInt then (flags.strprops W).npad - 2 else 0
      else (flags.strprops W).npad) = (flags.strprops (if flags.left then W else W - 2)).npad := by
  cases hleft : flags.left with
  | true =>
    have hneg : ¬ (0 : Int) < (- BitVec.ofNat 32 W).toInt := by
      rw [toInt_neg_ofNat hW]
      omega
    simp only [Flags.strprops, hleft, if_true, if_neg hneg]
  | false =>
    have hsub := toInt_sub_ofNat hW (show 2 < 2 ^ 31 by decide)
    simp only [Flags.strprops, hleft, Bool.false_eq_true, if_false, toInt_ofNat hW]
    rcases Nat.lt_or_ge 2 W with h2 | h2
    · rw [if_pos (by omega), if_pos (hsub ▸ by omega)]
      exact (BitVec.ofNat_sub_ofNat_of_le W 2 (by decide) (Nat.le_of_lt h2))
    · rw [show W - 2 = 0 by omega]
      split
      · rw [if_neg (hsub ▸ by omega)]
        rfl
      · rw [show W = 0 by omega]

theorem unsignedText_hex (env : Env) (flags : Flags) (hW : W < 2 ^ 31) (w : BitVec 32) (alternate : Bool) :
    unsignedText env.digits w 16 { flags.strprops W with alternate := alternate } =
      hexText alternate flags W w := by
  have hlen := length_numeral_word (show 1 < 16 by decide) w
  have hleft : (if flags.left then W else W - 2) < 2 ^ 31 := by split <;> omega
  have heq := unsignedText_eq env (show 1 < 16 by decide) (Nat.le_refl 16) w
    { flags.strprops W with alternate := alternate }
  simp only [and_true] at heq
  rw [hexText, show (16 : Int) = ((16 : Nat) : Int) from rfl, heq]
  simp only [npad_after_base hW, pad_zero_iff]
  by_cases hplain : alternate = false ∨ w = 0
  · rw [if_pos hplain, if_pos (by simpa [or_comm] using hplain)]
    exact strText_field flags alternate hW (by omega)
  · rw [if_neg hplain, if_neg (by simpa [or_comm] using hplain)]
    split
    · congr 1
      rw [← strText_field flags alternate hleft (show (numeral 16 w.toNat).length < 2 ^ 31 by omega)]
      cases flags <;> rfl
    · apply strText_field flags alternate hW
      rw [List.length_append]
      simp only [List.length_cons, List.length_nil]
      omega

/-- A conversion prints what its directive does, takes one argument, and reads through it
where the directive does. -/
theorem convert_prints (d : Directive) (hlen : d.modifiers.length < 2 ^ 32)
    (h : (Piece.directive d).Takes env (va k)) :
    convert push env va d.conversion.byte d.conversion.label (d.modifiers.foldl Modifier.count 0)
      { d.flags.strprops d.width with alternate := d.alternate } [] (spot fmt l k rs) =
        (d.prints env (va k), spot fmt l (k + 1) (rs ++ d.reads (va k))) := by
  have hunsigned := length_numeral_word (show 1 < 10 by decide) ((va k).setWidth 32)
  obtain ⟨alternate, flags, width, modifiers, conversion, fits⟩ := d
  cases conversion with
  | char =>
    simp only [convert, Conversion.label, Directive.prints, Directive.reads, List.append_nil]
    rfl
  | signed =>
    have harg := vaSigned_eq va ⟨alternate, flags, width, modifiers, .signed, fits⟩ hlen
      (show (spot fmt l k rs).va = k from rfl)
    simp only at harg
    simp only [convert, Conversion.label, Directive.prints, Directive.reads, List.append_nil, printInt_eq,
      foldl_push, List.nil_append, harg]
    rw [← number, strText_field flags alternate fits (length_number_lt env _)]
    rfl
  | unsigned =>
    have hplain : unsignedText env.digits ((va k).setWidth 32) 10 _ = _ :=
      unsignedText_eq env (show 1 < 10 by decide) (by decide) ((va k).setWidth 32)
        { flags.strprops width with alternate := alternate }
    rw [if_pos (.inr fun h => absurd h.2 (by decide)),
      strText_field flags alternate fits (by omega)] at hplain
    simp only [convert, Conversion.label, Directive.prints, Directive.reads, List.append_nil,
      printUnsigned_eq, foldl_push, List.nil_append, vaUnsigned, spot, Cursor.next, hplain]
  | hex =>
    simp only [convert, Conversion.label, Directive.prints, Directive.reads, List.append_nil,
      printUnsigned_eq, foldl_push, List.nil_append, vaUnsigned, spot, Cursor.next,
      unsignedText_hex env flags fits]
  | pointer =>
    simp only [convert, Conversion.label, Directive.prints, Directive.reads, printUnsigned_eq, foldl_push,
      List.nil_append, spot, Cursor.next]
    rw [unsignedText_hex env flags fits (env.word (va k)) true]
  | string =>
    simp only [convert, Conversion.label, Directive.prints, Directive.reads, printStr_eq, foldl_push,
      List.nil_append, spot, Cursor.next]
    rw [strText_field flags alternate fits (h rfl)]

theorem stop_tail (d : Directive) (l : List Byte) : ∃ x u, d.tail ++ l = x :: u ∧ Stop x := by
  have hm : ∀ m : Modifier, Stop m.byte := by
    intro m
    cases m <;> exact ⟨by decide, by decide, by decide, by decide⟩
  have hv : ∀ v : Conversion, Stop v.byte := by
    intro v
    cases v <;> exact ⟨by decide, by decide, by decide, by decide⟩
  obtain ⟨alternate, flags, width, modifiers, conversion, fits⟩ := d
  cases modifiers with
  | nil => exact ⟨_, _, rfl, hv conversion⟩
  | cons m ms => exact ⟨_, _, rfl, hm m⟩

/-- A directive prints its text before the rest of the format is printed. -/
theorem Prints.directive (d : Directive) (hd : (Piece.directive d).Takes env (va k))
    (h : Prints env fmt va .text l (k + 1) (rs ++ d.reads (va k)) (t, c))
    (hl : d.bytes ++ l <:+ fmt.bytes) (hlen : fmt.bytes.length < 2 ^ 31) :
    Prints env fmt va .text (d.bytes ++ l) k rs (d.prints env (va k) ++ t, c) := by
  have hms : d.modifiers.length < 2 ^ 32 := by
    have hle := hl.length_le
    simp only [Directive.bytes, Directive.tail, List.length_append, List.length_cons, List.length_map] at hle
    omega
  have hbytes : d.bytes ++ l = ch '%' :: ((if d.alternate then [ch '#'] else []) ++
      (d.flags.text ++ (widthText d.width ++ (d.tail ++ l)))) := by
    simp only [Directive.bytes, List.cons_append, List.append_assoc]
  rw [hbytes] at hl ⊢
  have hflags : d.flags.text ++ (widthText d.width ++ (d.tail ++ l)) <:+ fmt.bytes :=
    (List.suffix_append _ _).trans ((List.suffix_cons _ _).trans hl)
  have htail : d.tail ++ l <:+ fmt.bytes :=
    (List.suffix_append _ _).trans ((List.suffix_append _ _).trans hflags)
  have hmods : d.tail ++ l = d.modifiers.map Modifier.byte ++ (d.conversion.byte :: l) := by
    rw [Directive.tail, List.append_assoc, List.singleton_append]
  have hconv : d.conversion.byte :: l <:+ fmt.bytes := (List.suffix_append _ _).trans (hmods ▸ htail)
  have hrun := (h.convert d.conversion hconv (convert_prints d hms hd)).modifiers d.modifiers (hmods ▸ htail)
  rw [← hmods] at hrun
  obtain ⟨x, u, hx, hstop⟩ := stop_tail d l
  rw [hx] at hrun hflags hl ⊢
  have hfield := hrun.field d.flags d.fits hstop hflags
  apply Prints.open _ hl
  cases halt : d.alternate with
  | false =>
    rw [halt] at hfield
    exact hfield
  | true =>
    rw [halt] at hfield hl
    refine Prints.alternate ?_ ((List.suffix_cons _ _).trans hl)
    exact hfield

/-- How many arguments a format takes. -/
def arity : List Piece → Nat
  | [] => 0
  | .directive _ :: ps => arity ps + 1
  | _ :: ps => arity ps

theorem prints_pieces (ps : List Piece) (h : ∀ a ∈ withArgs va k ps, a.1.Takes env a.2)
    (hl : spell ps <:+ fmt.bytes) (hlen : fmt.bytes.length < 2 ^ 31) :
    Prints env fmt va .text (spell ps) k rs
      (printedAll env (withArgs va k ps),
        ⟨fmt.bytes.length, k + arity ps, rs ++ readsAll (withArgs va k ps)⟩) := by
  induction ps generalizing k rs with
  | nil =>
    rw [withArgs, readsAll, List.flatMap_nil, List.append_nil]
    exact prints_nil
  | cons p ps ih =>
    have hrest : spell ps <:+ fmt.bytes := (List.suffix_append p.bytes _).trans hl
    cases p with
    | plain f h0 hf =>
      exact (ih (fun a ha => h a (List.mem_cons_of_mem _ ha)) hrest).plain hl h0 hf
    | percent =>
      exact ((ih (fun a ha => h a (List.mem_cons_of_mem _ ha)) hrest).bare
        ((List.suffix_cons _ _).trans hl) (.inl ⟨by decide, rfl⟩)).open hl
    | unknown f hf =>
      exact ((ih (fun a ha => h a (List.mem_cons_of_mem _ ha)) hrest).bare
        ((List.suffix_cons _ _).trans hl) (.inr hf)).open hl
    | directive d =>
      have hnext : Prints env fmt va .text (spell ps) (k + 1) (rs ++ d.reads (va k)) _ :=
        ih (fun a ha => h a (List.mem_cons_of_mem _ ha)) hrest
      have hrun := hnext.directive d (h _ List.mem_cons_self) hl hlen
      rw [List.append_assoc, Nat.add_assoc, Nat.add_comm 1] at hrun
      exact hrun

/-- What a whole format prints, takes and reads through. -/
theorem format_prints (ps : List Piece) (hlen : (spell ps).length < 2 ^ 31)
    (h : ∀ a ∈ withArgs va 0 ps, a.1.Takes env a.2) :
    format push env (formatOf ps) va [] =
      some (printedAll env (withArgs va 0 ps),
        ⟨(spell ps).length, arity ps, readsAll (withArgs va 0 ps)⟩) := by
  obtain ⟨_, fuel, hrun⟩ : Prints env (formatOf ps) va .text (spell ps) 0 [] _ :=
    prints_pieces ps h (List.suffix_refl _) hlen
  have hspot : spot (formatOf ps) (spell ps) 0 [] = ⟨0, 0, []⟩ := by
    rw [spot, show (formatOf ps).bytes = spell ps from rfl, Nat.sub_self]
  rw [hspot, Nat.zero_add, List.nil_append] at hrun
  obtain ⟨r, hr⟩ : ∃ r, format push env (formatOf ps) va [] = some r :=
    (format_isSome_iff push []).mpr (Directive.shortWidths_of_length hlen)
  have h1 := Directive.formatLoop_mono (Nat.le_max_left fuel ((formatOf ps).bytes.length + 2)) hrun
  have h2 := Directive.formatLoop_mono (Nat.le_max_right fuel ((formatOf ps).bytes.length + 2)) hr
  rw [hr, ← h2, h1]
  rfl

/-- Every string is `hi`. -/
def hiEnv : Env := ⟨fun _ => 0, fun _ => ⟨[ch 'h', ch 'i'], by decide⟩, fun _ => 0⟩

end Dmos.Proofs.FormatLanguage
