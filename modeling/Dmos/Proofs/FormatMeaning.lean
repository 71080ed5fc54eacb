import Dmos.Proofs.FormatLanguage

namespace Dmos.Proofs.FormatLanguage
open Printf Numerals Atol Formatting Truncation SignedPrint UnsignedPrint

variable {env : Env} {va : Nat → Word} {flags : Flags} {W n : Nat} {arg w : Word} {d : Directive}
  {left zeros : Bool} {pre ds s : List Byte}

/-! ### What a format means -/

/-- Digits in their field, with a sign or a prefix: blanks before or behind, or zeros between
the prefix and the digits. On the left of a field there are no zeros. -/
def field (left zeros : Bool) (W : Nat) (pre ds : List Byte) : List Byte :=
  let gap := W - (pre.length + ds.length)
  if left then pre ++ ds ++ List.replicate gap (ch ' ')
  else if zeros then pre ++ List.replicate gap (ch '0') ++ ds
  else List.replicate gap (ch ' ') ++ pre ++ ds

def Flags.zeroFlag : Flags → Bool
  | .none | .minus => false
  | .zero | .zeroMinus | .minusZero => true

/-- A modifier of any kind makes the argument one of 64 bits. -/
def Directive.signedValue (d : Directive) (arg : Word) : Int :=
  if d.modifiers = [] then (arg.setWidth 32).toInt else arg.toInt

def Directive.unsignedValue (d : Directive) (arg : Word) : Nat :=
  if d.modifiers = [] then (arg.setWidth 32).toNat else arg.toNat

def hexPrefix : List Byte := [ch '0', ch 'x']

/-- The text that a directive stands for. The prefix belongs to the field and no zero has one;
a pointer is printed as the number that it is; zeros fill the fields of numbers only. -/
def Directive.denotes (env : Env) (d : Directive) (arg : Word) : List Byte :=
  match d.conversion with
  | .char => field d.flags.left false d.width [] [arg.setWidth 8]
  | .signed =>
    let z := d.signedValue arg
    field d.flags.left (Flags.zeroFlag d.flags) d.width (if z < 0 then [ch '-'] else [])
      (numeral 10 z.natAbs)
  | .unsigned =>
    field d.flags.left (Flags.zeroFlag d.flags) d.width [] (numeral 10 (d.unsignedValue arg))
  | .hex =>
    let n := d.unsignedValue arg
    field d.flags.left (Flags.zeroFlag d.flags) d.width
      (if d.alternate = true ∧ n ≠ 0 then hexPrefix else []) (numeral 16 n)
  | .pointer => field d.flags.left (Flags.zeroFlag d.flags) d.width hexPrefix (numeral 16 arg.toNat)
  | .string => field d.flags.left false d.width [] (env.strAt arg).bytes

def Piece.denotes (env : Env) (arg : Word) : Piece → List Byte
  | .plain c _ _ => [c]
  | .percent => [ch '%']
  | .unknown c _ => [c]
  | .directive d => d.denotes env arg

def meaning (env : Env) (args : List (Piece × Word)) : List Byte :=
  args.flatMap fun a => a.1.denotes env a.2

/-! ### Where the code prints it -/

/-- The argument is not cut to 32 bits. -/
def Directive.Fits (d : Directive) (arg : Word) : Prop := d.modifiers = [] ∨ arg.toNat < 2 ^ 32

/-- The arguments for which the code prints what the directive stands for. A character must
not need its field, no zeros may come before a sign or a string, a prefix before a field that
is filled behind must leave nothing to fill, and a pointer must point to its own value. -/
def Directive.Meets (env : Env) (d : Directive) (arg : Word) : Prop :=
  match d.conversion with
  | .char => d.width ≤ 1
  | .signed =>
    ¬ (d.flags = .zero ∧ d.signedValue arg < 0 ∧ (canonical (d.signedValue arg)).length < d.width) ∧
      (d.signedValue arg = - 2 ^ 63 → DigitsBelow env)
  | .unsigned => d.Fits arg
  | .hex => d.Fits arg ∧ (d.alternate = true → d.flags = .zeroMinus → d.unsignedValue arg ≠ 0 →
      d.width ≤ (numeral 16 (d.unsignedValue arg)).length)
  | .pointer => (env.word arg).toNat = arg.toNat ∧ arg ≠ 0 ∧
      (d.flags = .zeroMinus → d.width ≤ (numeral 16 arg.toNat).length)
  | .string => d.flags = .zero → d.width ≤ (env.strAt arg).bytes.length

def Piece.Meets (env : Env) (arg : Word) : Piece → Prop
  | .directive d => d.Meets env arg
  | _ => True

/-! ### Fields -/

theorem length_field (left zeros : Bool) (W : Nat) (pre ds : List Byte) :
    (field left zeros W pre ds).length = max W (pre.length + ds.length) := by
  rw [field]
  split
  · simp only [List.length_append, List.length_replicate]
    omega
  · split <;> simp only [List.length_append, List.length_replicate] <;> omega

/-- The code puts its zeros before the prefix. -/
theorem fieldText_prefixed (pre ds : List Byte) (h : flags = .zero → pre = [] ∨ W ≤ pre.length + ds.length) :
    fieldText flags W (pre ++ ds) = field flags.left (Flags.zeroFlag flags) W pre ds := by
  rw [fieldText, field, List.length_append]
  cases flags with
  | none => simp [Flags.left, Flags.zeroFlag]
  | minus => simp [Flags.left]
  | zeroMinus => simp [Flags.left]
  | minusZero => simp [Flags.left]
  | zero =>
    rcases h rfl with rfl | hW
    · simp [Flags.left, Flags.zeroFlag]
    · simp [Flags.left, Flags.zeroFlag, Nat.sub_eq_zero_of_le hW]

theorem fieldText_plain (flags : Flags) (W : Nat) (s : List Byte) :
    fieldText flags W s = field flags.left (Flags.zeroFlag flags) W [] s :=
  fieldText_prefixed [] s fun _ => .inl rfl

/-- The code fills the field of a string with zeros too. -/
theorem fieldText_string (flags : Flags) (W : Nat) (s : List Byte) :
    fieldText flags W s = field flags.left false W [] s ↔ (flags = .zero → W ≤ s.length) := by
  rw [fieldText, field]
  cases flags with
  | zero =>
    have hne : ch '0' ≠ ch ' ' := by decide
    have hpads : List.replicate (W - s.length) (ch '0') = List.replicate (W - s.length) (ch ' ') ↔
        W ≤ s.length := by
      rw [List.replicate_inj, or_iff_left hne, Nat.sub_eq_zero_iff_le]
      exact and_iff_right rfl
    simpa [Flags.left] using hpads
  | _ => simp [Flags.left]

theorem char_field (left : Bool) (W : Nat) (b : Byte) : [b] = field left false W [] [b] ↔ W ≤ 1 := by
  constructor
  · intro h
    have hlen := congrArg List.length h
    rw [length_field] at hlen
    simp only [List.length_cons, List.length_nil] at hlen
    omega
  · intro h
    have hgap : W - 1 = 0 := by omega
    simp [field, hgap]

/-! ### Unsigned numbers -/

theorem shows_field {base : Nat} (hpre : pre = [] ∨ base = 16 ∧ pre = hexPrefix) :
    Shows base n (field left zeros W pre (numeral base n)) := by
  rw [field]
  split
  · exact ⟨0, 0, _, pre, hpre, by simp; rfl⟩
  · split
    · exact ⟨0, _, 0, pre, hpre, by simp; rfl⟩
    · exact ⟨_, 0, 0, pre, hpre, by simp; rfl⟩

theorem padded_strprops (flags : Flags) (W : Nat) (alternate : Bool) :
    Padded { flags.strprops W with alternate := alternate } := by
  cases flags with
  | zero => exact .inr rfl
  | zeroMinus => exact .inr rfl
  | _ => exact .inl rfl

theorem fits_iff (d : Directive) (arg : Word) :
    d.Fits arg ↔ (arg.setWidth 32).toNat = d.unsignedValue arg := by
  rw [Directive.Fits, Directive.unsignedValue]
  by_cases hm : d.modifiers = []
  · simp [hm]
  · rw [if_neg hm, BitVec.toNat_setWidth]
    simp only [hm, false_or]
    omega

theorem unsigned_meets (arg : Word) :
    fieldText flags W (numeral 10 (arg.setWidth 32).toNat) =
        field flags.left (Flags.zeroFlag flags) W [] (numeral 10 n) ↔
      (arg.setWidth 32).toNat = n := by
  rw [fieldText_plain]
  constructor
  · intro h
    have hshows : Shows 10 (arg.setWidth 32).toNat
        (field flags.left (Flags.zeroFlag flags) W [] (numeral 10 n)) := h ▸ shows_field (.inl rfl)
    exact hshows.unique (by decide) (by decide) (shows_field (.inl rfl))
  · intro h
    rw [h]

/-- Only a field that is filled behind has the prefix outside. -/
theorem hexText_prefixed {v : BitVec 32} (h0 : v ≠ 0) :
    hexText true flags W v = field flags.left (Flags.zeroFlag flags) W hexPrefix (numeral 16 v.toNat) ↔
      (flags = .zeroMinus → W ≤ (numeral 16 v.toNat).length) := by
  have hplain : ¬ (true = false ∨ v = 0) := fun h => h.elim Bool.noConfusion h0
  have hsame : flags ≠ .zero → fieldText flags W ([ch '0', ch 'x'] ++ numeral 16 v.toNat) =
      field flags.left (Flags.zeroFlag flags) W hexPrefix (numeral 16 v.toNat) :=
    fun hne => fieldText_prefixed hexPrefix _ fun h => absurd h hne
  rw [hexText, if_neg hplain]
  cases flags with
  | none => exact iff_of_true (hsame (by decide)) fun h => absurd h (by decide)
  | minus => exact iff_of_true (hsame (by decide)) fun h => absurd h (by decide)
  | minusZero => exact iff_of_true (hsame (by decide)) fun h => absurd h (by decide)
  | zero =>
    have hgap : W - 2 - (numeral 16 v.toNat).length = W - (2 + (numeral 16 v.toNat).length) := by omega
    simp [Flags.zeros, Flags.left, Flags.zeroFlag, fieldText, field, hexPrefix, hgap]
  | zeroMinus =>
    have hgap : W - (numeral 16 v.toNat).length = W - (2 + (numeral 16 v.toNat).length) ↔
        W ≤ (numeral 16 v.toNat).length := by omega
    simpa [Flags.zeros, Flags.left, fieldText, field, hexPrefix, List.replicate_inj] using hgap

theorem shows_hexText (flags : Flags) (hW : W < 2 ^ 31) (v : BitVec 32) (alternate : Bool) :
    Shows 16 v.toNat (hexText alternate flags W v) := by
  have hshows := shows_unsignedText hiEnv (show 1 < 16 by decide) (Nat.le_refl 16) v
    (padded_strprops flags W alternate)
  rwa [show ((16 : Nat) : Int) = 16 from rfl, unsignedText_hex hiEnv flags hW v alternate] at hshows

theorem hex_meets (hW : W < 2 ^ 31) (v : BitVec 32) (alternate : Bool) :
    hexText alternate flags W v = field flags.left (Flags.zeroFlag flags) W
        (if alternate = true ∧ n ≠ 0 then hexPrefix else []) (numeral 16 n) ↔
      v.toNat = n ∧ (alternate = true → flags = .zeroMinus → n ≠ 0 → W ≤ (numeral 16 n).length) := by
  by_cases hv : v.toNat = n
  · subst hv
    rw [eq_self_iff_true, true_and]
    by_cases hpre : alternate = true ∧ v.toNat ≠ 0
    · obtain ⟨rfl, h0⟩ := hpre
      have hv0 : v ≠ 0 := fun h => h0 (by rw [h]; rfl)
      rw [if_pos ⟨rfl, h0⟩, hexText_prefixed hv0]
      exact ⟨fun h _ hf _ => h hf, fun h hf => h rfl hf h0⟩
    · have hnone : alternate = false ∨ v = 0 := by
        rw [not_and_or, Bool.not_eq_true, not_not] at hpre
        exact hpre.imp_right fun h => BitVec.eq_of_toNat_eq h
      rw [if_neg hpre, hexText, if_pos hnone]
      exact iff_of_true (fieldText_plain flags W _) fun ha _ h0 => absurd ⟨ha, h0⟩ hpre
  · refine iff_of_false (fun h => hv ?_) fun h => hv h.1
    have hshows := h ▸ shows_hexText flags hW v alternate
    refine hshows.unique (by decide) (by decide) (shows_field ?_)
    split
    · exact .inr ⟨rfl, rfl⟩
    · exact .inl rfl

/-- A zero is printed without the prefix that every pointer has. -/
theorem pointer_meets (hW : W < 2 ^ 31) (v : BitVec 32) (arg : Word) :
    hexText true flags W v =
        field flags.left (Flags.zeroFlag flags) W hexPrefix (numeral 16 arg.toNat) ↔
      v.toNat = arg.toNat ∧ arg ≠ 0 ∧ (flags = .zeroMinus → W ≤ (numeral 16 arg.toNat).length) := by
  by_cases hv : v.toNat = arg.toNat
  · rw [← hv, eq_self_iff_true, true_and]
    by_cases h0 : v = 0
    · have harg : arg = 0 := BitVec.eq_of_toNat_eq (by rw [← hv, h0]; rfl)
      refine iff_of_false (fun h => ?_) fun h => h.1 harg
      have hx : ch 'x' ∈ hexText true flags W v := by
        rw [h, field]
        split
        · simp [hexPrefix]
        · split <;> simp [hexPrefix]
      have hzero : ch 'x' ≠ ch '0' := by decide
      have hblank : ch 'x' ≠ ch ' ' := by decide
      obtain ⟨a, z, b, htext, -⟩ := SignedRoundTrip.fieldText_eq flags W (numeral 16 0)
      rw [hexText, if_pos (.inr h0), h0, show (0 : BitVec 32).toNat = 0 from rfl, htext] at hx
      simp [numeral, hzero, hblank] at hx
    · have harg : arg ≠ 0 := by
        rintro rfl
        exact h0 (BitVec.eq_of_toNat_eq hv)
      rw [hexText_prefixed h0]
      exact (and_iff_right harg).symm
  · refine iff_of_false (fun h => hv ?_) fun h => hv h.1
    have hshows := h ▸ shows_hexText flags hW v true
    exact hshows.unique (by decide) (by decide) (shows_field (.inr ⟨rfl, rfl⟩))

/-! ### Signed numbers -/

theorem signedArg_toInt (d : Directive) (arg : Word) : (d.signedArg arg).toInt = d.signedValue arg := by
  rw [Directive.signedArg, Directive.signedValue]
  split
  · exact BitVec.toInt_signExtend_of_le (by decide)
  · rfl

/-- A text is spelled by a reader of its own. -/
theorem exists_spells (t : List Byte) : ∃ rd : Reader, Spells rd 0 t :=
  ⟨fun i => t[i]?, fun k _ => by rw [Nat.zero_add]⟩

/-- The field of a negative number is read back as the number. -/
theorem atol_field {rd : Reader} (hneg : w.toInt < 0)
    (h : Spells rd 0 (field left zeros W [ch '-'] (numeral 10 w.toInt.natAbs) ++ [0])) :
    ∃ fuel, atol rd fuel 0 = some w := by
  obtain ⟨a, z, b, htext⟩ : ∃ a z b, field left zeros W [ch '-'] (numeral 10 w.toInt.natAbs) =
      List.replicate a (ch ' ') ++ (ch '-' ::
        (List.replicate z (ch '0') ++ numeral 10 w.toInt.natAbs) ++ List.replicate b (ch ' ')) := by
    rw [field]
    split
    · exact ⟨0, 0, _, by simp; rfl⟩
    · split
      · exact ⟨0, _, 0, by simp; rfl⟩
      · exact ⟨_, 0, 0, by simp; rfl⟩
  rw [htext] at h
  have hdigits := SignedRoundTrip.digit_zeros z (isDigit_numeral w.toInt.natAbs)
  apply (SignedRoundTrip.atolIs_neg h w).mpr
  rw [List.takeWhile_eq_self_iff.mpr hdigits, SignedRoundTrip.valueFrom_zeros, valueFrom_numeral,
    SignedRoundTrip.neg_ofNat_natAbs hneg]

/-- When the zeros come before no sign, and the least number finds its digits. -/
theorem signed_meets (env : Env) (flags : Flags) (W : Nat) (w : Word) :
    fieldText flags W (number env w) = field flags.left (Flags.zeroFlag flags) W
        (if w.toInt < 0 then [ch '-'] else []) (numeral 10 w.toInt.natAbs) ↔
      ¬ (flags = .zero ∧ w.toInt < 0 ∧ (canonical w.toInt).length < W) ∧
        (w.toInt = - 2 ^ 63 → DigitsBelow env) := by
  constructor
  · intro h
    by_cases hneg : w.toInt < 0
    · rw [if_pos hneg] at h
      obtain ⟨rd, hrd⟩ := exists_spells (fieldText flags W (number env w) ++ [0])
      obtain ⟨hplain, hleast⟩ := (SignedRoundTrip.atolIs_field_iff env flags W w hrd).mp
        (atol_field hneg (h ▸ hrd))
      rw [SignedRoundTrip.number_canonical env hleast] at hplain
      exact ⟨hplain, hleast⟩
    · exact ⟨fun hc => hneg hc.2.1, fun hmin => by omega⟩
  · rintro ⟨hplain, hleast⟩
    rw [SignedRoundTrip.number_canonical env hleast, canonical]
    apply fieldText_prefixed
    intro hflag
    by_cases hneg : w.toInt < 0
    · right
      rw [← List.length_append]
      exact Nat.le_of_not_lt fun hlt => hplain ⟨hflag, hneg, hlt⟩
    · exact .inl (if_neg hneg)

/-! ### Formats -/

/-- The code prints what a directive stands for exactly where it meets it. -/
theorem directive_meets (env : Env) (d : Directive) (arg : Word) :
    d.prints env arg = d.denotes env arg ↔ d.Meets env arg := by
  obtain ⟨alternate, flags, width, modifiers, conversion, fits⟩ := d
  cases conversion with
  | char => exact char_field _ _ _
  | signed =>
    simp only [Directive.prints, Directive.denotes, Directive.Meets, ← signedArg_toInt]
    exact signed_meets env flags width _
  | unsigned =>
    rw [Directive.Meets, fits_iff]
    exact unsigned_meets arg
  | hex =>
    rw [Directive.Meets, fits_iff]
    exact hex_meets fits _ alternate
  | pointer => exact pointer_meets fits _ arg
  | string => exact fieldText_string flags width _

theorem piece_meets (env : Env) (p : Piece) (arg : Word) :
    p.prints env arg = p.denotes env arg ↔ p.Meets env arg := by
  cases p with
  | directive d => exact directive_meets env d arg
  | _ => exact iff_of_true rfl trivial

/-- The formatter and the language. The formatter takes one argument for each directive, in
their order, and reads through the pointers of `%s` and `%p`; a call stores as much of what is
printed as its buffer takes, and returns the length of the whole. Each piece is printed as what
it stands for exactly where the code meets it, and a format of such pieces is printed as what
it means. -/
theorem vsnprintf_meaning (env : Env) (va : Nat → Word) (ps : List Piece)
    (hlen : (spell ps).length < 2 ^ 31) (h : ∀ a ∈ withArgs va 0 ps, a.1.Takes env a.2) :
    format push env (formatOf ps) va [] =
      some (printedAll env (withArgs va 0 ps),
        ⟨(spell ps).length, arity ps, readsAll (withArgs va 0 ps)⟩) ∧
    (∀ size, vsnprintf env size (formatOf ps) va =
      some ⟨BitVec.ofNat 32 (printedAll env (withArgs va 0 ps)).length,
        storesFrom 0 ((printedAll env (withArgs va 0 ps)).take (size - 1).toNat ++ [0]),
        readsAll (withArgs va 0 ps)⟩) ∧
    (∀ a ∈ withArgs va 0 ps, a.1.prints env a.2 = a.1.denotes env a.2 ↔ a.1.Meets env a.2) ∧
    ((∀ a ∈ withArgs va 0 ps, a.1.Meets env a.2) →
      printedAll env (withArgs va 0 ps) = meaning env (withArgs va 0 ps)) := by
  have hrun := format_prints ps hlen h
  refine ⟨hrun, fun size => ?_, fun a _ => piece_meets env a.1 a.2, fun hall => ?_⟩
  · rw [vsnprintf_eq, hrun]
    rfl
  · exact List.flatMap_congr fun a ha => (piece_meets env a.1 a.2).mpr (hall a ha)

/-- The pieces of `%s: %#010x %-4ld%%`. -/
def linePieces : List Piece :=
  [.directive ⟨false, .none, 0, [], .string, by decide⟩, .plain (ch ':') (by decide) (by decide),
    .plain (ch ' ') (by decide) (by decide), .directive ⟨true, .zero, 10, [], .hex, by decide⟩,
    .plain (ch ' ') (by decide) (by decide), .directive ⟨false, .minus, 4, [.l], .signed, by decide⟩,
    .percent]

def lineArgs : Nat → Word
  | 0 => 0x40080000
  | 1 => 0xbeef
  | _ => - 3

/-- The line `hi: 0x0000beef -3  %`, cut to the eight bytes of its buffer. -/
theorem line_printed :
    spell linePieces = "%s: %#010x %-4ld%%".toList.map ch ∧
    meaning hiEnv (withArgs lineArgs 0 linePieces) = "hi: 0x0000beef -3  %".toList.map ch ∧
    vsnprintf hiEnv 8 (formatOf linePieces) lineArgs =
      some ⟨20, storesFrom 0 ("hi: 0x0".toList.map ch ++ [0]), [0x40080000]⟩ := by
  have hmeaning : meaning hiEnv (withArgs lineArgs 0 linePieces) =
      "hi: 0x0000beef -3  %".toList.map ch := by
    decide
  refine ⟨by decide, hmeaning, ?_⟩
  obtain ⟨-, hrun, -, hmeets⟩ := vsnprintf_meaning hiEnv lineArgs linePieces (by decide) (by
    simp [withArgs, linePieces, Piece.Takes, hiEnv])
  have hall : printedAll hiEnv (withArgs lineArgs 0 linePieces) = _ := hmeets (by
    simp [withArgs, linePieces, Piece.Meets, Directive.Meets, Directive.Fits, Directive.signedValue,
      lineArgs])
  rw [hall, hmeaning] at hrun
  exact hrun 8

/-- `%05d` of `-5` stands for `-0005`, and the code prints `000-5`. -/
example : Directive.denotes hiEnv ⟨false, .zero, 5, [], .signed, by decide⟩ (- 5) =
      "-0005".toList.map ch ∧
    Directive.prints hiEnv ⟨false, .zero, 5, [], .signed, by decide⟩ (- 5) =
      "000-5".toList.map ch := by
  decide

end Dmos.Proofs.FormatLanguage
