import Dmos.Proofs.Directive
import Dmos.Proofs.Truncation

namespace Dmos.Proofs.UnsignedPrint
open Printf Numerals Atol Formatting Directive Truncation

variable {env : Env} {fmt : CString} {va : Nat → Word} {props : Strprops} {base n m : Nat}
  {text : List Byte}

/-! ### Numerals in their padding -/

/-- The numeral of a number between its padding, after an optional prefix. -/
def Shows (base n : Nat) (text : List Byte) : Prop :=
  ∃ i z j pre, (pre = [] ∨ base = 16 ∧ pre = [ch '0', ch 'x']) ∧
    text = List.replicate i (ch ' ') ++
      (pre ++ (List.replicate z (ch '0') ++ (numeral base n ++ List.replicate j (ch ' '))))

/-- What remains of a text without its padding and prefix, as a number. -/
def readBack (base : Nat) (text : List Byte) : Nat :=
  let t := text.dropWhile (· = ch ' ')
  let t := if t.take 2 = [ch '0', ch 'x'] then t.drop 2 else t
  (t.takeWhile (· ≠ ch ' ')).foldl (fun v c => v * base + digitTable.idxOf c) 0

theorem idxOf_digitByte : ∀ d < 16, digitTable.idxOf (digitByte d) = d := by decide

theorem foldl_digits (base a : Nat) {l : List Nat} (hl : ∀ d ∈ l, d < 16) :
    (l.map digitByte).reverse.foldl (fun v c => v * base + digitTable.idxOf c) a =
      a * base ^ l.length + Nat.ofDigits base l := by
  induction l with
  | nil => simp
  | cons d l ih =>
    have hd := idxOf_digitByte d (hl d List.mem_cons_self)
    have hrest := ih fun e he => hl e (List.mem_cons_of_mem d he)
    rw [List.map_cons, List.reverse_cons, List.foldl_append, hrest, List.foldl_cons, List.foldl_nil,
      hd, Nat.ofDigits_cons, List.length_cons, Nat.pow_succ]
    ring

theorem foldl_numeral (hb : 1 < base) (h16 : base ≤ 16) (n : Nat) :
    (numeral base n).foldl (fun v c => v * base + digitTable.idxOf c) 0 = n := by
  rw [numeral]
  split
  · next h =>
    rw [h]
    have hidx : digitTable.idxOf (ch '0') = 0 := by decide
    simp [hidx]
  · rw [foldl_digits base 0 fun d hd => Nat.lt_of_lt_of_le (Nat.digits_lt_base hb hd) h16,
      Nat.ofDigits_digits, Nat.zero_mul, Nat.zero_add]

theorem foldl_zeros (base z : Nat) (t : List Byte) :
    (List.replicate z (ch '0') ++ t).foldl (fun v c => v * base + digitTable.idxOf c) 0 =
      t.foldl (fun v c => v * base + digitTable.idxOf c) 0 := by
  have hidx : digitTable.idxOf (ch '0') = 0 := by decide
  induction z with
  | zero => rfl
  | succ z ih =>
    rw [List.replicate_succ, List.cons_append, List.foldl_cons, hidx, Nat.zero_mul]
    exact ih

/-- A digit is neither a blank nor the letter of the prefix. -/
theorem digitByte_ne : ∀ d < 16, digitByte d ≠ ch ' ' ∧ digitByte d ≠ ch 'x' := by decide

theorem numeral_ne (hb : 1 < base) (h16 : base ≤ 16) (z n : Nat) :
    ∀ c ∈ List.replicate z (ch '0') ++ numeral base n, c ≠ ch ' ' ∧ c ≠ ch 'x' := by
  intro c hc
  rcases List.mem_append.mp hc with hc | hc
  · rw [List.eq_of_mem_replicate hc]
    decide
  · rw [numeral] at hc
    split at hc
    · rw [List.mem_singleton.mp hc]
      decide
    · rw [List.mem_reverse, List.mem_map] at hc
      obtain ⟨d, hd, rfl⟩ := hc
      exact digitByte_ne d (Nat.lt_of_lt_of_le (Nat.digits_lt_base hb hd) h16)

theorem takeWhile_field {ds : List Byte} (h : ∀ c ∈ ds, c ≠ ch ' ') (j : Nat) :
    (ds ++ List.replicate j (ch ' ')).takeWhile (· ≠ ch ' ') = ds := by
  rw [List.takeWhile_append_of_pos (fun c hc => by simpa using h c hc)]
  cases j with
  | zero => simp
  | succ j => simp [List.replicate_succ]

theorem dropWhile_blanks (i : Nat) {t : List Byte} (h : ∀ c ∈ t.head?, c ≠ ch ' ') :
    (List.replicate i (ch ' ') ++ t).dropWhile (· = ch ' ') = t := by
  induction i with
  | zero =>
    cases t with
    | nil => rfl
    | cons c t => simpa using h c rfl
  | succ i ih =>
    rw [List.replicate_succ, List.cons_append, List.dropWhile_cons]
    simpa using ih

/-- A text shows at most one number. -/
theorem readBack_eq (hb : 1 < base) (h16 : base ≤ 16) (h : Shows base n text) :
    readBack base text = n := by
  obtain ⟨i, z, j, pre, hpre, rfl⟩ := h
  have hne := numeral_ne hb h16 z n
  have hblank := fun c hc => (hne c hc).1
  have hval : (List.replicate z (ch '0') ++ numeral base n).foldl
      (fun v c => v * base + digitTable.idxOf c) 0 = n := by
    rw [foldl_zeros, foldl_numeral hb h16]
  rw [readBack]
  rcases hpre with rfl | ⟨_, rfl⟩
  · have hdrop : (List.replicate i (ch ' ') ++ ([] ++ (List.replicate z (ch '0') ++
        (numeral base n ++ List.replicate j (ch ' '))))).dropWhile (· = ch ' ') =
        List.replicate z (ch '0') ++ numeral base n ++ List.replicate j (ch ' ') := by
      rw [List.nil_append, ← List.append_assoc (List.replicate z _)]
      apply dropWhile_blanks
      intro c hc
      have hpos : List.replicate z (ch '0') ++ numeral base n ≠ [] := fun h0 =>
        Nat.ne_of_gt (length_numeral_pos base n) (by rw [(List.append_eq_nil_iff.mp h0).2]; rfl)
      rw [List.head?_append_of_ne_nil _ hpos] at hc
      exact hblank c (List.mem_of_mem_head? hc)
    have hx : (List.replicate z (ch '0') ++ numeral base n ++ List.replicate j (ch ' ')).take 2 ≠
        [ch '0', ch 'x'] := by
      intro htake
      have hmem : ch 'x' ∈ List.replicate z (ch '0') ++ numeral base n ++ List.replicate j (ch ' ') :=
        List.mem_of_mem_take (htake ▸ (by simp : ch 'x' ∈ [ch '0', ch 'x']))
      rcases List.mem_append.mp hmem with hmem | hmem
      · exact (hne _ hmem).2 rfl
      · exact absurd (List.eq_of_mem_replicate hmem) (by decide)
    simp only [hdrop, if_neg hx, takeWhile_field hblank, hval]
  · have hdrop : (List.replicate i (ch ' ') ++ ([ch '0', ch 'x'] ++ (List.replicate z (ch '0') ++
        (numeral base n ++ List.replicate j (ch ' '))))).dropWhile (· = ch ' ') =
        ch '0' :: ch 'x' :: (List.replicate z (ch '0') ++ numeral base n ++ List.replicate j (ch ' ')) := by
      rw [← List.append_assoc (List.replicate z _)]
      apply dropWhile_blanks
      intro c hc
      cases hc
      decide
    simp only [hdrop, List.take_succ_cons, List.take_zero, if_true, List.drop_succ_cons, List.drop_zero,
      takeWhile_field hblank, hval]

theorem Shows.unique (hb : 1 < base) (h16 : base ≤ 16) (hn : Shows base n text) (hm : Shows base m text) :
    n = m := by
  rw [← readBack_eq hb h16 hn, readBack_eq hb h16 hm]

/-! ### What `print_unsigned` shows -/

/-- A string is padded with its pad character before it, or with blanks after it. -/
theorem strText_form (s : List Byte) (props : Strprops) :
    ∃ i j, strText s props = List.replicate i props.pad ++ (s ++ List.replicate j (ch ' ')) := by
  simp only [strText, List.append_assoc]
  split
  · split
    · exact ⟨_, _, rfl⟩
    · exact ⟨_, 0, rfl⟩
  · split
    · exact ⟨0, _, rfl⟩
    · exact ⟨0, 0, rfl⟩

/-- The pad characters that a directive can set. -/
def Padded (props : Strprops) : Prop := props.pad = ch ' ' ∨ props.pad = ch '0'

theorem shows_strText (hpad : Padded props) : Shows base n (strText (numeral base n) props) := by
  obtain ⟨i, j, htext⟩ := strText_form (numeral base n) props
  rw [htext]
  rcases hpad with hpad | hpad
  · exact ⟨i, 0, j, [], .inl rfl, by rw [hpad]; rfl⟩
  · exact ⟨0, i, j, [], .inl rfl, by rw [hpad]; rfl⟩

theorem digitLoop_unsigned (env : Env) (hb : 1 < base) (h16 : base ≤ 16) (w : BitVec 32) :
    digitLoop env.digits base 64 w.toNat = (Nat.digits base w.toNat).map digitByte := by
  have hlt : w.toNat < base ^ 64 :=
    Nat.lt_of_lt_of_le w.isLt (Nat.le_trans (by decide : 2 ^ 32 ≤ 2 ^ 64) (Nat.pow_le_pow_left hb 64))
  rw [digitLoop_natCast env.digits hb 64 w.toNat hlt]
  apply List.map_congr_left
  intro d hd
  exact digits_eq env (Nat.lt_of_lt_of_le (Nat.digits_lt_base hb hd) h16)

/-- The prefix goes in front of the zeros, or between the blanks and the digits. -/
theorem shows_unsignedText (env : Env) (hb : 1 < base) (h16 : base ≤ 16) (w : BitVec 32)
    (hpad : Padded props) : Shows base w.toNat (unsignedText env.digits w base props) := by
  have hnz : ∀ c ∈ numeral base w.toNat, c ≠ 0 := numeral_ne_zero hb h16
  simp only [unsignedText, printUnsigned, digitLoop_unsigned env hb h16, printStr_eq, foldl_push,
    List.nil_append, reverseLoop_eq]
  by_cases h0 : w.toNat = 0
  · rw [h0, Nat.digits_zero]
    exact shows_strText hpad
  · have hne : (Nat.digits base w.toNat).map digitByte ≠ [] := by
      simpa [Nat.digits_ne_nil_iff_ne_zero] using h0
    have hnum : ((Nat.digits base w.toNat).map digitByte).reverse = numeral base w.toNat := by
      rw [numeral, if_neg h0]
    rw [if_neg hne, List.reverse_append, hnum, cstring_eq hnz]
    split
    · next halt =>
      have h16' : base = 16 := by
        have hbase : (base : Int) = 16 := by simpa using (Bool.and_eq_true_iff.mp halt).2
        omega
      split
      · next hzero =>
        obtain ⟨i, j, htext⟩ := strText_form (numeral base w.toNat) { props with npad := _ }
        rw [htext]
        exact ⟨0, i, j, [ch '0', ch 'x'], .inr ⟨h16', rfl⟩, by rw [hzero]; rfl⟩
      · next hzero =>
        have hblank : props.pad = ch ' ' := hpad.resolve_right hzero
        have hpre : cstring ([ch 'x', ch '0'].reverse ++ numeral base w.toNat) =
            [ch '0', ch 'x'] ++ numeral base w.toNat := by
          apply cstring_eq
          intro c hc
          have hx : ∀ c ∈ [ch 'x', ch '0'].reverse, c ≠ 0 := by decide
          rcases List.mem_append.mp hc with hc | hc
          · exact hx c hc
          · exact hnz c hc
        obtain ⟨i, j, htext⟩ := strText_form ([ch '0', ch 'x'] ++ numeral base w.toNat) props
        rw [hpre, htext]
        exact ⟨i, 0, j, [ch '0', ch 'x'], .inr ⟨h16', rfl⟩, by rw [hblank]; simp⟩
    · exact shows_strText hpad

/-! ### The directive -/

/-- The characters of flags and widths. -/
def isSpec (c : Byte) : Bool := c = ch '#' || c = ch '-' || isDigit c

inductive Kind where
  | u | x | lu | lx | llu | llx | p
  deriving DecidableEq

def Kind.longs : Kind → Nat
  | .u | .x | .p => 0
  | .lu | .lx => 1
  | .llu | .llx => 2

def Kind.conversion : Kind → Byte
  | .u | .lu | .llu => ch 'u'
  | .x | .lx | .llx => ch 'x'
  | .p => ch 'p'

def Kind.radix : Kind → Nat
  | .u | .lu | .llu => 10
  | .x | .lx | .llx | .p => 16

/-- The length modifiers and the conversion. -/
def Kind.suffix (kind : Kind) : List Byte := List.replicate kind.longs (ch 'l') ++ [kind.conversion]

/-- A directive with any flags and width. -/
def unsignedFormat (kind : Kind) (spec : List Byte) (hspec : ∀ c ∈ spec, isSpec c = true) : CString :=
  ⟨ch '%' :: (spec ++ kind.suffix), by
    intro h
    rcases List.mem_cons.mp h with h | h
    · exact absurd h (by decide)
    · rcases List.mem_append.mp h with h | h
      · exact absurd (hspec 0 h) (by decide)
      · cases kind <;> exact absurd h (by decide)⟩

/-- The argument of a directive as a number. -/
def Kind.argument (kind : Kind) (va : Nat → Word) : Nat :=
  match kind with
  | .u | .x => ((va 0).setWidth 32).toNat
  | _ => (va 0).toNat

theorem suffix_cons (kind : Kind) :
    ∃ x t, kind.suffix = x :: t ∧ isDigit x = false ∧ x ≠ ch '-' := by
  cases kind <;> exact ⟨_, _, rfl, by decide, by decide⟩

/-- A width ends before the modifiers and the conversion. -/
theorem numLen_append_suffix (kind : Kind) (t : List Byte) : numLen (t ++ kind.suffix) = numLen t := by
  obtain ⟨x, u, hsuffix, hx, hm⟩ := suffix_cons kind
  have hcut : ∀ t : List Byte, (t ++ x :: u).takeWhile isDigit = t.takeWhile isDigit := by
    intro t
    rw [List.takeWhile_append, List.takeWhile_cons, hx]
    split
    · next hlen =>
      simp only [Bool.false_eq_true, if_false, List.append_nil]
      exact ((List.takeWhile_prefix isDigit).eq_of_length hlen).symm
    · rfl
  rw [hsuffix]
  cases t with
  | nil =>
    have hnil : (x :: u).takeWhile isDigit = [] := hcut []
    change numLen (x :: u) = 0
    rw [numLen, if_neg hm, hnil]
    rfl
  | cons c t => rw [List.cons_append, numLen, numLen, hcut, ← List.cons_append, hcut]

theorem drop_numLen_append (kind : Kind) (t : List Byte) :
    (t ++ kind.suffix).drop (numLen (t ++ kind.suffix)) = t.drop (numLen t) ++ kind.suffix := by
  rw [numLen_append_suffix, List.drop_append_of_le_length (numLen_le t)]

theorem label_spec : ∀ c : Byte, isSpec c = true → Label.ofByte c = .alternate ∨
    Label.ofByte c = .zero ∨ Label.ofByte c = .number := by
  decide +kernel

/-- What a directive prints with the properties read, and the cursor after it. -/
def shown (kind : Kind) (env : Env) (fmt : CString) (va : Nat → Word) (props : Strprops) :
    List Byte × Cursor :=
  match kind with
  | .p => (unsignedText env.digits (env.word (va 0)) 16 { props with alternate := true },
      ⟨fmt.bytes.length, 1, [va 0]⟩)
  | _ => (unsignedText env.digits ((va 0).setWidth 32) kind.radix props, ⟨fmt.bytes.length, 1, []⟩)

theorem ends_suffix (kind : Kind) (props : Strprops) (hl : kind.suffix <:+ fmt.bytes) :
    Ends env fmt va (.morefmt 0 props) kind.suffix (shown kind env fmt va props) := by
  cases kind with
  | u => exact ends_convert hl (by decide)
  | x => exact ends_convert hl (by decide)
  | p => exact ends_convert hl (by decide)
  | lu => exact (ends_convert (tail_suffix hl) (by decide)).long hl (by decide)
  | lx => exact (ends_convert (tail_suffix hl) (by decide)).long hl (by decide)
  | llu =>
    exact ((ends_convert (tail_suffix (tail_suffix hl)) (by decide)).long (tail_suffix hl)
      (by decide)).long hl (by decide)
  | llx =>
    exact ((ends_convert (tail_suffix (tail_suffix hl)) (by decide)).long (tail_suffix hl)
      (by decide)).long hl (by decide)

/-- Whatever flags and widths stand before the conversion, it is reached with a pad
character that is a blank or a zero. -/
theorem ends_spec (kind : Kind) (hs : ShortWidths fmt.bytes) (spec : List Byte)
    (hspec : ∀ c ∈ spec, isSpec c = true) (hl : spec ++ kind.suffix <:+ fmt.bytes)
    (hr : Reaches fmt.bytes true (spec ++ kind.suffix)) (props : Strprops) (hpad : Padded props) :
    ∃ props', Padded props' ∧
      Ends env fmt va (.morefmt 0 props) (spec ++ kind.suffix) (shown kind env fmt va props') := by
  match spec with
  | [] => exact ⟨props, hpad, ends_suffix kind props hl⟩
  | c :: t =>
    have ht : ∀ d ∈ t, isSpec d = true := fun d hd => hspec d (List.mem_cons_of_mem c hd)
    have hpass := hs true _ hr
    rw [List.cons_append] at hl hr hpass ⊢
    simp only [Formatting.pass] at hpass
    rcases label_spec c (hspec c List.mem_cons_self) with hc | hc | hc
    · -- the flag for the prefix
      have hr' : Reaches fmt.bytes true (t ++ kind.suffix) := hr.step (by simp only [Formatting.pass, hc])
      obtain ⟨props', hpad', hends⟩ :=
        ends_spec kind hs t ht (tail_suffix hl) hr' { props with alternate := true } hpad
      exact ⟨props', hpad', hends.alternate hl hc⟩
    · -- a zero, and the number after it
      have hn : numLen (t ++ kind.suffix) < 2 ^ 31 := by
        by_contra hn
        exact hpass (by rw [hc]; exact if_neg hn)
      have hr' : Reaches fmt.bytes true ((t ++ kind.suffix).drop (numLen (t ++ kind.suffix))) :=
        hr.step (by simp only [Formatting.pass, hc, if_pos hn])
      have hl' := (List.drop_suffix (numLen (t ++ kind.suffix)) _).trans (tail_suffix hl)
      rw [drop_numLen_append] at hr' hl'
      have hdrop : (t.drop (numLen t)).length < (c :: t).length := by
        rw [List.length_drop, List.length_cons]
        omega
      obtain ⟨props', hpad', hends⟩ := ends_spec kind hs (t.drop (numLen t))
        (fun d hd => ht d (List.mem_of_mem_drop hd)) hl' hr'
        { props with pad := ch '0', npad := (atolList (t ++ kind.suffix)).setWidth 32 } (.inr rfl)
      exact ⟨props', hpad', Ends.zero (by rwa [drop_numLen_append]) hl hc hn⟩
    · -- a number from here on
      have hn : numLen (c :: (t ++ kind.suffix)) < 2 ^ 31 := by
        by_contra hn
        exact hpass (by rw [hc]; exact if_neg hn)
      have hr' : Reaches fmt.bytes true
          ((c :: (t ++ kind.suffix)).drop (numLen (c :: (t ++ kind.suffix)))) :=
        hr.step (by simp only [Formatting.pass, hc, if_pos hn])
      have hl' := (List.drop_suffix (numLen (c :: (t ++ kind.suffix))) _).trans hl
      have hcut : (c :: (t ++ kind.suffix)).drop (numLen (c :: (t ++ kind.suffix))) =
          (c :: t).drop (numLen (c :: t)) ++ kind.suffix := drop_numLen_append kind (c :: t)
      rw [hcut] at hr' hl'
      have hdrop : ((c :: t).drop (numLen (c :: t))).length < (c :: t).length := by
        have hpos := numLen_ne_zero t hc
        rw [List.length_drop, List.length_cons]
        omega
      obtain ⟨props', hpad', hends⟩ := ends_spec kind hs ((c :: t).drop (numLen (c :: t)))
        (fun d hd => hspec d (List.mem_of_mem_drop hd)) hl' hr'
        { props with npad := (atolList (c :: (t ++ kind.suffix))).setWidth 32 } hpad
      exact ⟨props', hpad', Ends.number (by rwa [hcut]) hl hc hn⟩
termination_by spec.length
decreasing_by
  · exact Nat.lt_succ_self _
  · exact hdrop
  · exact hdrop

/-! ### Faithful printing -/

/-- The output shows the argument, and no argument is read through. Every call stores
as much of the output as its buffer takes. -/
def Faithful (env : Env) (kind : Kind) (fmt : CString) (va : Nat → Word) (text : List Byte) : Prop :=
  fullOutput env fmt va = some text ∧ Shows kind.radix (kind.argument va) text ∧
    ∀ size, ∃ r, vsnprintf env size fmt va = some r ∧ r.reads = [] ∧
      output r = text.take (size - 1).toNat

/-- The argument is printed whole: the pointer never is, and the long ones only when they
fit the type they are taken as. -/
def Kind.Fits (kind : Kind) (va : Nat → Word) : Prop :=
  match kind with
  | .u | .x => True
  | .lu | .lx | .llu | .llx => (va 0).toNat < 2 ^ 32
  | .p => False

theorem radix_bounds (kind : Kind) : 1 < kind.radix ∧ kind.radix ≤ 16 := by
  cases kind <;> decide

/-- What is printed, for every format that can be read. -/
theorem format_unsigned (env : Env) (kind : Kind) (spec : List Byte)
    (hspec : ∀ c ∈ spec, isSpec c = true) (va : Nat → Word)
    (hs : ShortWidths (unsignedFormat kind spec hspec).bytes) :
    ∃ props, Padded props ∧ format push env (unsignedFormat kind spec hspec) va [] =
      some (shown kind env (unsignedFormat kind spec hspec) va props) := by
  have hl : ch '%' :: (spec ++ kind.suffix) <:+ (unsignedFormat kind spec hspec).bytes :=
    List.suffix_refl _
  have hr : Reaches (unsignedFormat kind spec hspec).bytes true (spec ++ kind.suffix) :=
    Reaches.start.step rfl
  obtain ⟨props, hpad, hends⟩ := ends_spec kind hs spec hspec (tail_suffix hl) hr ⟨ch ' ', 0, false⟩
    (.inl rfl)
  exact ⟨props, hpad, format_of_ends (hends.percent hl) hs⟩

/-- The low word of the argument is what every directive but `%p` shows. -/
theorem shows_shown (env : Env) (kind : Kind) (hkind : kind ≠ .p) (fmt : CString) (va : Nat → Word)
    (hpad : Padded props) : Shows kind.radix ((va 0).setWidth 32).toNat (shown kind env fmt va props).1 := by
  have hshow := shows_unsignedText env (radix_bounds kind).1 (radix_bounds kind).2 ((va 0).setWidth 32) hpad
  cases kind with
  | p => exact absurd rfl hkind
  | _ => exact hshow

theorem fits_iff (kind : Kind) (hkind : kind ≠ .p) (va : Nat → Word) :
    kind.Fits va ↔ ((va 0).setWidth 32).toNat = kind.argument va := by
  have hlong : (va 0).toNat < 2 ^ 32 ↔ ((va 0).setWidth 32).toNat = (va 0).toNat := by
    rw [BitVec.toNat_setWidth]
    omega
  cases kind with
  | p => exact absurd rfl hkind
  | u => exact ⟨fun _ => rfl, fun _ => trivial⟩
  | x => exact ⟨fun _ => rfl, fun _ => trivial⟩
  | lu => exact hlong
  | lx => exact hlong
  | llu => exact hlong
  | llx => exact hlong

/-- A call on a format that can be read. -/
theorem vsnprintf_of_format {t : List Byte} {c : Cursor} (hrun : format push env fmt va [] = some (t, c))
    (size : BitVec 32) :
    ∃ r, vsnprintf env size fmt va = some r ∧ r.reads = c.reads ∧ output r = t.take (size - 1).toNat :=
  ⟨⟨BitVec.ofNat 32 t.length, storesFrom 0 (t.take (size - 1).toNat ++ [0]), c.reads⟩,
    by rw [vsnprintf_eq, hrun]; rfl, rfl, output_eq _ rfl⟩

/-- A pointer is always read through. -/
theorem not_faithful_pointer (env : Env) (spec : List Byte) (hspec : ∀ c ∈ spec, isSpec c = true)
    (va : Nat → Word) (text : List Byte) : ¬ Faithful env .p (unsignedFormat .p spec hspec) va text := by
  rintro ⟨htext, _, hcalls⟩
  obtain ⟨c, hrun⟩ := fullOutput_eq_some_iff.mp htext
  obtain ⟨props, _, hshown⟩ :=
    format_unsigned env .p spec hspec va ((format_isSome_iff push []).mp ⟨_, hrun⟩)
  obtain ⟨r, hr, hreads, _⟩ := hcalls 1
  obtain ⟨r', hr', hreads', _⟩ := vsnprintf_of_format hshown 1
  rw [hr] at hr'
  cases hr'
  rw [hreads] at hreads'
  cases hreads'

theorem exists_faithful_iff (env : Env) (kind : Kind) (spec : List Byte)
    (hspec : ∀ c ∈ spec, isSpec c = true) (va : Nat → Word) :
    (∃ text, Faithful env kind (unsignedFormat kind spec hspec) va text) ↔
      ShortWidths (unsignedFormat kind spec hspec).bytes ∧ kind.Fits va := by
  by_cases hkind : kind = .p
  · subst hkind
    constructor
    · rintro ⟨text, h⟩
      exact absurd h (not_faithful_pointer env spec hspec va text)
    · exact fun h => absurd h.2 not_false
  · rw [fits_iff kind hkind]
    constructor
    · rintro ⟨text, htext, hshows, _⟩
      obtain ⟨c, hrun⟩ := fullOutput_eq_some_iff.mp htext
      have hs := (format_isSome_iff push []).mp ⟨_, hrun⟩
      refine ⟨hs, ?_⟩
      obtain ⟨props, hpad, hshown⟩ := format_unsigned env kind spec hspec va hs
      have heq : shown kind env (unsignedFormat kind spec hspec) va props = (text, c) :=
        Option.some.inj (hshown.symm.trans hrun)
      have hlow := shows_shown env kind hkind (unsignedFormat kind spec hspec) va hpad
      rw [heq] at hlow
      exact hlow.unique (radix_bounds kind).1 (radix_bounds kind).2 hshows
    · rintro ⟨hs, harg⟩
      obtain ⟨props, hpad, hshown⟩ := format_unsigned env kind spec hspec va hs
      have hreads : (shown kind env (unsignedFormat kind spec hspec) va props).2.reads = [] := by
        cases kind with
        | p => exact absurd rfl hkind
        | _ => rfl
      refine ⟨_, fullOutput_eq_some_iff.mpr ⟨_, hshown⟩, ?_, ?_⟩
      · rw [← harg]
        exact shows_shown env kind hkind _ va hpad
      · intro size
        obtain ⟨r, hr, hread, hout⟩ := vsnprintf_of_format hshown size
        exact ⟨r, hr, hread.trans hreads, hout⟩

/-- When unsigned printing is faithful, for any flags and width and any two arguments: the
width can be counted, and both arguments fit the `uint32_t` they are taken as. `%p` never
prints its argument. -/
theorem unsigned_faithful_iff (env : Env) (kind : Kind) (spec : List Byte)
    (hspec : ∀ c ∈ spec, isSpec c = true) (va va' : Nat → Word) :
    (∃ text text', Faithful env kind (unsignedFormat kind spec hspec) va text ∧
      Faithful env kind (unsignedFormat kind spec hspec) va' text' ∧
      (text = text' → kind.argument va = kind.argument va')) ↔
    ShortWidths (unsignedFormat kind spec hspec).bytes ∧ kind.Fits va ∧ kind.Fits va' := by
  constructor
  · rintro ⟨text, text', h, h', _⟩
    have hfits := (exists_faithful_iff env kind spec hspec va).mp ⟨text, h⟩
    have hfits' := (exists_faithful_iff env kind spec hspec va').mp ⟨text', h'⟩
    exact ⟨hfits.1, hfits.2, hfits'.2⟩
  · rintro ⟨hs, hfits, hfits'⟩
    obtain ⟨text, h⟩ := (exists_faithful_iff env kind spec hspec va).mpr ⟨hs, hfits⟩
    obtain ⟨text', h'⟩ := (exists_faithful_iff env kind spec hspec va').mpr ⟨hs, hfits'⟩
    refine ⟨text, text', h, h', ?_⟩
    rintro rfl
    exact h.2.1.unique (radix_bounds kind).1 (radix_bounds kind).2 h'.2.1

/-- `%08x` of two words. -/
theorem hex_faithful :
    ∃ text text', Faithful zeroEnv .x (unsignedFormat .x [ch '0', ch '8'] (by decide)) (fun _ => 255) text ∧
      Faithful zeroEnv .x (unsignedFormat .x [ch '0', ch '8'] (by decide)) (fun _ => 254) text' ∧
      (text = text' → Kind.argument .x (fun _ => 255) = Kind.argument .x (fun _ => 254)) :=
  (unsigned_faithful_iff zeroEnv .x [ch '0', ch '8'] (by decide) (fun _ => 255) (fun _ => 254)).mpr
    ⟨shortWidths_of_length (by decide), trivial, trivial⟩

/-- `%lx` of `2^32` prints a zero, like `%lx` of zero, and `%p` prints the word it points to. -/
theorem long_truncated :
    (∀ text, ¬ Faithful zeroEnv .lx (unsignedFormat .lx [] (by decide)) (fun _ => 0x100000000) text) ∧
    fullOutput zeroEnv (unsignedFormat .lx [] (by decide)) (fun _ => 0x100000000) = some [ch '0'] ∧
    fullOutput zeroEnv (unsignedFormat .lx [] (by decide)) (fun _ => 0) = some [ch '0'] ∧
    ∀ text, ¬ Faithful zeroEnv .p (unsignedFormat .p [] (by decide)) (fun _ => 0x40000000) text := by
  refine ⟨?_, by decide, by decide, not_faithful_pointer zeroEnv [] _ _⟩
  intro text h
  have hfits : (0x100000000 : Word).toNat < 2 ^ 32 :=
    ((exists_faithful_iff zeroEnv .lx [] (by decide) _).mp ⟨text, h⟩).2
  exact absurd hfits (by decide)

end Dmos.Proofs.UnsignedPrint
