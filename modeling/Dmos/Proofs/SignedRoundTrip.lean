import Dmos.Proofs.SignedPrint

namespace Dmos.Proofs.SignedRoundTrip
open Printf Numerals Atol Formatting Truncation SignedPrint

variable {env : Env} {va : Nat → Word} {size : BitVec 32} {flags : Flags} {W : Nat} {rd : Reader}
  {s g : List Byte}

/-- A field is blanks, zeros, the number, and blanks; the zeros only with the flag alone. -/
theorem fieldText_eq (flags : Flags) (W : Nat) (s : List Byte) :
    ∃ a z b, fieldText flags W s = List.replicate a (ch ' ') ++
        (List.replicate z (ch '0') ++ (s ++ List.replicate b (ch ' '))) ∧
      (z ≠ 0 ↔ flags = .zero ∧ s.length < W) := by
  rw [fieldText]
  cases flags with
  | none => exact ⟨W - s.length, 0, 0, by simp [Flags.left], by simp⟩
  | zero => exact ⟨0, W - s.length, 0, by simp [Flags.left], by simp; omega⟩
  | minus => exact ⟨0, 0, W - s.length, by simp [Flags.left], by simp⟩
  | zeroMinus => exact ⟨0, 0, W - s.length, by simp [Flags.left], by simp⟩
  | minusZero => exact ⟨0, 0, W - s.length, by simp [Flags.left], by simp⟩

theorem blank_replicate (a : Nat) : ∀ c ∈ List.replicate a (ch ' '), isBlank c = true := by
  intro c hc
  rw [List.eq_of_mem_replicate hc]
  decide

/-- Blanks end a digit string as its terminator does. -/
theorem exists_blank_stop (b : Nat) :
    ∃ x t, List.replicate b (ch ' ') ++ [0] = x :: t ∧ isDigit x = false := by
  cases b with
  | zero => exact ⟨0, [], rfl, by decide⟩
  | succ b => exact ⟨ch ' ', List.replicate b (ch ' ') ++ [0], rfl, by decide⟩

theorem valueFrom_zeros (z : Nat) (ds : List Byte) :
    valueFrom 0 (List.replicate z (ch '0') ++ ds) = valueFrom 0 ds := by
  induction z with
  | zero => rfl
  | succ z ih => rw [List.replicate_succ, List.cons_append, ← ih]; rfl

theorem digit_zeros (z : Nat) {ds : List Byte} (hds : ∀ c ∈ ds, isDigit c = true) :
    ∀ c ∈ List.replicate z (ch '0') ++ ds, isDigit c = true := by
  intro c hc
  rcases List.mem_append.mp hc with hc | hc
  · rw [List.eq_of_mem_replicate hc]
    decide
  · exact hds c hc

/-- Zeros in front of the digits do not change the value. -/
theorem atolIs_nonneg {a z b : Nat} {ds : List Byte} (hds : ∀ c ∈ ds, isDigit c = true) (hne : ds ≠ [])
    (h : Spells rd 0 (List.replicate a (ch ' ') ++
      (List.replicate z (ch '0') ++ (ds ++ List.replicate b (ch ' '))) ++ [0])) :
    AtolIs rd 0 (BitVec.ofNat 64 (valueFrom 0 ds)) := by
  obtain ⟨x, t, hx, hdigit⟩ := exists_blank_stop b
  rw [← valueFrom_zeros z]
  apply atolIs_of
  apply atol_plain (x := x) (t := t) _ (blank_replicate a) (digit_zeros z hds) hdigit
  · intro hnil
    exact absurd (List.append_eq_nil_iff.mp hnil).2 hne
  · rw [← hx]
    simpa only [List.append_assoc] using h

theorem takeWhile_append_blanks (g : List Byte) (b : Nat) :
    (g ++ List.replicate b (ch ' ')).takeWhile isDigit = g.takeWhile isDigit := by
  have hblanks : (List.replicate b (ch ' ')).takeWhile isDigit = [] := by
    cases b with
    | zero => rfl
    | succ b => rfl
  rw [List.takeWhile_append, hblanks, List.append_nil]
  split
  · next hlen => exact ((List.takeWhile_prefix isDigit).eq_of_length hlen).symm
  · rfl

/-- A sign after blanks. -/
theorem atolIs_neg {a b : Nat} (h : Spells rd 0 (List.replicate a (ch ' ') ++
      (ch '-' :: g ++ List.replicate b (ch ' ')) ++ [0])) :
    AtolIs rd 0 (- BitVec.ofNat 64 (valueFrom 0 (g.takeWhile isDigit))) := by
  obtain ⟨x, t, hx, hdigit, _⟩ := exists_stop (show isDigit 0 = false by decide)
    (g ++ List.replicate b (ch ' '))
  rw [takeWhile_append_blanks] at hx
  apply atolIs_of
  apply atol_minus (x := x) (t := t) _ (blank_replicate a) (fun c hc => List.mem_takeWhile_imp hc) hdigit
  rw [← hx]
  simpa using h

/-- A sign after zeros is where the number ends. -/
theorem atolIs_zeros {a z b : Nat} (hz : z ≠ 0) (h : Spells rd 0 (List.replicate a (ch ' ') ++
      (List.replicate z (ch '0') ++ (ch '-' :: g ++ List.replicate b (ch ' '))) ++ [0])) :
    AtolIs rd 0 0 := by
  have hval : valueFrom 0 (List.replicate z (ch '0')) = 0 := by
    rw [← List.append_nil (List.replicate z (ch '0')), valueFrom_zeros]
    rfl
  have hds : ∀ c ∈ List.replicate z (ch '0'), isDigit c = true := by
    rw [← List.append_nil (List.replicate z (ch '0'))]
    exact digit_zeros z fun c hc => absurd hc (List.not_mem_nil)
  have hzero : AtolIs rd 0 (BitVec.ofNat 64 (valueFrom 0 (List.replicate z (ch '0')))) := by
    apply atolIs_of
    apply atol_plain (x := ch '-') (t := g ++ List.replicate b (ch ' ') ++ [0]) _ (blank_replicate a)
      hds (by decide)
    · intro hnil
      exact absurd (by simpa using hnil) hz
    · simpa using h
  rwa [hval] at hzero

/-! ### The call -/

/-- A buffer that is large enough holds the whole text. -/
theorem vsnprintf_of_fits {fmt : CString} {t : List Byte} {c : Cursor}
    (hrun : format push env fmt va [] = some (t, c)) (hfit : t.length < size.toNat) :
    ∃ r, vsnprintf env size fmt va = some r ∧ r.stores = storesFrom 0 (t ++ [0]) ∧
      r.reads = c.reads := by
  refine ⟨⟨BitVec.ofNat 32 t.length, storesFrom 0 (t.take (size - 1).toNat ++ [0]), c.reads⟩,
    by rw [vsnprintf_eq, hrun]; rfl, ?_, rfl⟩
  rw [toNat_sub_one (by omega), List.take_of_length_le (by omega)]

theorem spells_held {r : Result} {t : List Byte} (h : r.stores = storesFrom 0 t) : Spells r.held 0 t := by
  intro k _
  rw [held_eq h, Nat.zero_add]

theorem neg_ofNat_natAbs {n : Word} (h : n.toInt < 0) : - BitVec.ofNat 64 n.toInt.natAbs = n := by
  have hn : n.toInt = - (n.toInt.natAbs : Int) := by omega
  conv_rhs => rw [← BitVec.ofInt_toInt (x := n), hn, BitVec.ofInt_neg, BitVec.ofInt_natCast]

theorem ofNat_natAbs {n : Word} (h : ¬ n.toInt < 0) : BitVec.ofNat 64 n.toInt.natAbs = n := by
  have hn : n.toInt = (n.toInt.natAbs : Int) := by omega
  conv_rhs => rw [← BitVec.ofInt_toInt (x := n), hn, BitVec.ofInt_natCast]

/-- The value read back from the least `long`. -/
theorem neg_ofNat_eq_least_iff {n : Word} (hmin : n.toInt = - 2 ^ 63) {v : Nat} (hv : v < 2 ^ 64) :
    n = - BitVec.ofNat 64 v ↔ v = 2 ^ 63 := by
  have hn : n = - BitVec.ofNat 64 (2 ^ 63) := by
    rw [← neg_ofNat_natAbs (show n.toInt < 0 by omega), hmin]
    rfl
  rw [hn, BitVec.neg_inj, ← BitVec.toNat_inj, BitVec.toNat_ofNat, BitVec.toNat_ofNat,
    Nat.mod_eq_of_lt (by decide), Nat.mod_eq_of_lt hv]
  exact eq_comm

/-- The text of a number is read back as the number. -/
theorem atolIs_field_iff (env : Env) (flags : Flags) (W : Nat) (n : Word)
    (h : Spells rd 0 (fieldText flags W (number env n) ++ [0])) :
    (∃ fuel, atol rd fuel 0 = some n) ↔
      ¬ (flags = .zero ∧ n.toInt < 0 ∧ (number env n).length < W) ∧
        (n.toInt = - 2 ^ 63 → DigitsBelow env) := by
  obtain ⟨a, z, b, hfield, hz⟩ := fieldText_eq flags W (number env n)
  rw [hfield] at h
  by_cases hneg : n.toInt < 0
  · obtain ⟨g, hg, hval⟩ : ∃ g, number env n = ch '-' :: g ∧
        (n = - BitVec.ofNat 64 (valueFrom 0 (g.takeWhile isDigit)) ↔
          (n.toInt = - 2 ^ 63 → DigitsBelow env)) := by
      by_cases hmin : n.toInt = - 2 ^ 63
      · refine ⟨_, number_least env hmin, ?_⟩
        have hds : ∀ c ∈ (cstring (leastDigits env)).takeWhile isDigit, isDigit c = true := fun c hc =>
          List.mem_takeWhile_imp hc
        have hlt := valueFrom_lt hds
        have hlen : ((cstring (leastDigits env)).takeWhile isDigit).length ≤ 19 := length_leastDigits_cut env
        have hpow := Nat.pow_le_pow_right (show 0 < 10 by decide) hlen
        rw [neg_ofNat_eq_least_iff hmin (by omega), valueFrom_least_iff]
        exact ⟨fun h _ => h, fun h => h hmin⟩
      · refine ⟨numeral 10 n.toInt.natAbs, ?_, ?_⟩
        · rw [number_eq env hmin, canonical, if_pos hneg]
          rfl
        · rw [List.takeWhile_eq_self_iff.mpr (isDigit_numeral _), valueFrom_numeral, neg_ofNat_natAbs hneg]
          exact ⟨fun _ h => absurd h hmin, fun _ => rfl⟩
    by_cases h0 : z = 0
    · have hplain : ¬ (flags = .zero ∧ n.toInt < 0 ∧ (number env n).length < W) := fun hc =>
        hz.mpr ⟨hc.1, hc.2.2⟩ h0
      rw [h0, hg] at h
      rw [atolIs_neg h n, hval]
      exact ⟨fun hb => ⟨hplain, hb⟩, fun hb => hb.2⟩
    · obtain ⟨hflag, hlen⟩ := hz.mp h0
      rw [hg] at h
      rw [atolIs_zeros h0 h n]
      constructor
      · rintro rfl
        exact absurd hneg (by decide)
      · exact fun hb => absurd ⟨hflag, hneg, hlen⟩ hb.1
  · have hmin : n.toInt ≠ - 2 ^ 63 := by omega
    have hnum : number env n = numeral 10 n.toInt.natAbs := by
      rw [number_eq env hmin, canonical, if_neg hneg]
      rfl
    rw [hnum] at h
    have hne : numeral 10 n.toInt.natAbs ≠ [] :=
      List.ne_nil_of_length_pos (length_numeral_pos 10 n.toInt.natAbs)
    rw [atolIs_nonneg (isDigit_numeral _) hne h n, valueFrom_numeral, ofNat_natAbs hneg]
    exact ⟨fun _ => ⟨fun hc => hneg hc.2.1, fun hc => absurd hc hmin⟩, fun _ => rfl⟩

theorem fullOutput_signed (env : Env) (va : Nat → Word) (flags : Flags) (hW : W < 2 ^ 31) :
    fullOutput env (signedFormat flags W) va = some (fieldText flags W (number env (va 0))) := by
  rw [fullOutput, format_signed env va flags hW, ← strText_flags flags hW (length_number_lt env (va 0))]
  rfl

/-- A width that fits is read, and the text is known. -/
theorem vsnprintf_signed (hW : W < 2 ^ 31)
    (hfit : ∀ text, fullOutput env (signedFormat flags W) va = some text → text.length < size.toNat) :
    ∃ r, vsnprintf env size (signedFormat flags W) va = some r ∧
      r.stores = storesFrom 0 (fieldText flags W (number env (va 0)) ++ [0]) := by
  have htext := fullOutput_signed env va flags hW
  obtain ⟨c, hrun⟩ := fullOutput_eq_some_iff.mp htext
  obtain ⟨r, hr, hst, _⟩ := vsnprintf_of_fits hrun (hfit _ htext)
  exact ⟨r, hr, hst⟩

/-- The number printed is what `atol` reads from the buffer, and the text fills the field
or is as long as the number. -/
def RoundTrips (env : Env) (size : BitVec 32) (flags : Flags) (W : Nat) (va : Nat → Word) : Prop :=
  ∃ r, vsnprintf env size (signedFormat flags W) va = some r ∧
    (∃ fuel, atol r.held fuel 0 = some (va 0)) ∧
    (output r).length = max W (canonical (va 0).toInt).length

/-- With the digits below the table even the least `long` has its canonical form. -/
theorem number_canonical (env : Env) {n : Word} (h : n.toInt = - 2 ^ 63 → DigitsBelow env) :
    number env n = canonical n.toInt := by
  by_cases hmin : n.toInt = - 2 ^ 63
  · have hnz := numeral_ne_zero (n := 2 ^ 63) (show 1 < 10 by decide) (by decide)
    rw [number_least env hmin, (leastDigits_eq_iff env).mpr (h hmin), cstring_eq hnz, canonical, hmin]
    rfl
  · exact number_eq env hmin

/-- When printing and reading back agree: the width fits an `int`, no zeros stand before a
sign, and the least `long` finds digits below the table. -/
theorem signed_roundTrips_iff (env : Env) (size : BitVec 32) (flags : Flags) (W : Nat)
    (va : Nat → Word) (hsize : size.toNat < 2 ^ 31)
    (hfit : ∀ text, fullOutput env (signedFormat flags W) va = some text → text.length < size.toNat) :
    RoundTrips env size flags W va ↔
      W < 2 ^ 31 ∧
      ¬ (flags = .zero ∧ (va 0).toInt < 0 ∧ (canonical (va 0).toInt).length < W) ∧
      ((va 0).toInt = - 2 ^ 63 → DigitsBelow env) := by
  constructor
  · rintro ⟨r, hr, hatol, hlen⟩
    have hW : W < 2 ^ 31 := by
      rw [vsnprintf_eq, Option.map_eq_some_iff] at hr
      obtain ⟨⟨t, c⟩, hrun, rfl⟩ := hr
      have hlt := hfit t (fullOutput_eq_some_iff.mpr ⟨c, hrun⟩)
      rw [output_eq (t.take (size - 1).toNat) rfl, List.length_take] at hlen
      omega
    obtain ⟨r', hr', hst⟩ := vsnprintf_signed hW hfit
    rw [hr] at hr'
    cases hr'
    obtain ⟨hplain, hleast⟩ := (atolIs_field_iff env flags W (va 0) (spells_held hst)).mp hatol
    rw [number_canonical env hleast] at hplain
    exact ⟨hW, hplain, hleast⟩
  · rintro ⟨hW, hplain, hleast⟩
    obtain ⟨r, hr, hst⟩ := vsnprintf_signed hW hfit
    have hnum := number_canonical env hleast
    refine ⟨r, hr, ?_, ?_⟩
    · apply (atolIs_field_iff env flags W (va 0) (spells_held hst)).mpr
      rw [hnum]
      exact ⟨hplain, hleast⟩
    · rw [output_eq _ hst, length_fieldText, hnum]

/-- `%-8ld` of `-5`. -/
theorem minus_five_roundTrips : RoundTrips zeroEnv 64 .minus 8 (fun _ => - 5) := by
  apply (signed_roundTrips_iff zeroEnv 64 .minus 8 _ (by decide) ?_).mpr
  · exact ⟨by decide, by decide, fun h => absurd h (by decide)⟩
  · intro text htext
    rw [fullOutput_signed _ _ .minus (by decide)] at htext
    rw [← Option.some.inj htext]
    decide

/-- `%05ld` of `-5` puts its zeros before the sign, and `atol` reads zero. -/
theorem zero_padded_sign_lost :
    fullOutput zeroEnv (signedFormat .zero 5) (fun _ => - 5) =
      some [ch '0', ch '0', ch '0', ch '-', ch '5'] ∧
    ¬ RoundTrips zeroEnv 64 .zero 5 (fun _ => - 5) := by
  have htext := fullOutput_signed zeroEnv (fun _ => - 5) .zero (show 5 < 2 ^ 31 by decide)
  have hshow : fieldText .zero 5 (number zeroEnv (- 5)) =
      [ch '0', ch '0', ch '0', ch '-', ch '5'] := by decide
  refine ⟨htext.trans (congrArg some hshow), ?_⟩
  rintro ⟨r, hr, hatol, _⟩
  have hfit : ∀ text, fullOutput zeroEnv (signedFormat .zero 5) (fun _ => - 5) = some text →
      text.length < (64 : BitVec 32).toNat := by
    intro text h
    rw [htext, hshow] at h
    rw [← Option.some.inj h]
    decide
  obtain ⟨r', hr', hst⟩ := vsnprintf_signed (by decide) hfit
  rw [hr] at hr'
  cases hr'
  have hback := (atolIs_field_iff zeroEnv .zero 5 (- 5) (spells_held hst)).mp hatol
  exact hback.1 ⟨rfl, by decide, by decide⟩

end Dmos.Proofs.SignedRoundTrip
