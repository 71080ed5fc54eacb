import Dmos.Proofs.Atol

namespace Dmos.Proofs.Formatting
open Printf Atol

variable {σ : Type} (add : σ → Byte → σ) {env : Env} {fmt : CString} {va : Nat → Word}

/-! ### The text a call adds -/

/-- The stream that keeps everything. -/
def push (l : List Byte) (c : Byte) : List Byte := l ++ [c]

@[simp] theorem foldl_push (l t : List Byte) : t.foldl push l = l ++ t := by
  induction t generalizing l with
  | nil => simp
  | cons c t ih => simp [ih, push]

theorem padLoop_eq (c : Byte) (n : Nat) (p : σ) :
    padLoop add c n p = (List.replicate n c).foldl add p := by
  induction n generalizing p with
  | zero => rfl
  | succ n ih => rw [padLoop, ih, List.replicate_succ, List.foldl_cons]

/-- A string between its padding. -/
def strText (s : List Byte) (props : Strprops) : List Byte :=
  let strlen : BitVec 32 := BitVec.ofNat 32 s.length
  let left := 0 < props.npad.toInt
  let npad := if left then props.npad - strlen else props.npad
  (if left then List.replicate npad.toInt.toNat props.pad else []) ++ s ++
    (if npad.toInt < 0 then List.replicate (- (npad + strlen).toInt).toNat (ch ' ') else [])

theorem printStr_eq (p : σ) (s : List Byte) (props : Strprops) :
    printStr add p s props = (strText s props).foldl add p := by
  simp only [printStr, strText, List.foldl_append, padLoop_eq]
  split <;> split <;> rfl

/-- The bytes of `print_int` before padding. -/
def intBuf (digits : Int → Byte) (n : Word) (base : Int) : List Byte :=
  let s := n.toInt < 0
  let n := if s then - n else n
  let buf := digitLoop digits base 64 n.toInt
  let buf := if s then buf ++ [ch '-'] else buf
  if buf = [] then [ch '0'] else buf

theorem printInt_eq (digits : Int → Byte) (p : σ) (n : Word) (base : Int) (props : Strprops) :
    printInt add digits p n base props =
      (strText (cstring (reverseLoop (intBuf digits n base))) props).foldl add p :=
  printStr_eq add p _ props

/-- What `print_unsigned` adds, the prefix included. -/
def unsignedText (digits : Int → Byte) (n : BitVec 32) (base : Int) (props : Strprops) : List Byte :=
  printUnsigned push digits [] n base props

theorem printUnsigned_eq (digits : Int → Byte) (p : σ) (n : BitVec 32) (base : Int)
    (props : Strprops) :
    printUnsigned add digits p n base props = (unsignedText digits n base props).foldl add p := by
  simp only [unsignedText, printUnsigned]
  split
  · simp [printStr_eq]
  · split
    · split
      · simp [printStr_eq, push]
      · simp [printStr_eq]
    · simp [printStr_eq]

/-- The text of a directive is the same on every stream, and so is the cursor after it. -/
theorem convert_eq (f : Byte) (label : Label) (nlong : BitVec 32) (props : Strprops) (p : σ)
    (c : Cursor) :
    convert add env va f label nlong props p c =
      ((convert push env va f label nlong props [] c).1.foldl add p,
        (convert push env va f label nlong props [] c).2) := by
  cases label <;> simp [convert, push, printStr_eq, printInt_eq, printUnsigned_eq]

theorem width_eq (nlong : BitVec 32) (props : Strprops) (p : σ) (c : Cursor) :
    width fmt nlong props p c = (width fmt nlong props ([] : List Byte) c).map fun (t, c', m) =>
      (t.foldl add p, c', m) := by
  simp only [width, Option.map_map]
  rfl

theorem body_eq (mode : Mode) (p : σ) (c : Cursor) :
    body add env fmt va mode p c = (body push env fmt va mode [] c).map fun (t, c', m) =>
      (t.foldl add p, c', m) := by
  unfold body
  cases fmt.read c.fmt with
  | none => rfl
  | some f =>
    simp only [Option.bind_some]
    cases mode with
    | text =>
      simp only
      split
      · rfl
      · split <;> rfl
    | morefmt nlong props =>
      simp only
      split
      case h_3 => exact width_eq add nlong _ p _
      case h_4 => exact width_eq add nlong props p _
      case h_7 =>
        rw [convert_eq add]
        rfl
      all_goals rfl

/-- The stream only sees the text: a run on any stream is the run that keeps everything,
replayed. -/
theorem formatLoop_eq (fuel : Nat) (mode : Mode) (p : σ) (c : Cursor) :
    formatLoop add env fmt va fuel mode p c =
      (formatLoop push env fmt va fuel mode [] c).map fun (t, c') => (t.foldl add p, c') := by
  induction fuel generalizing σ add mode p c with
  | zero => rfl
  | succ fuel ih =>
    simp only [formatLoop]
    rw [body_eq add]
    cases body push env fmt va mode [] c with
    | none => rfl
    | some r =>
      obtain ⟨t, c', next⟩ := r
      simp only [Option.map_some, Option.bind_some]
      cases next with
      | none => rfl
      | some mode =>
        simp only
        rw [ih add, ih push mode t c', Option.map_map]
        congr 1
        funext r
        simp

/-- The full output of a call, before anything is cut off. -/
def fullOutput (env : Env) (fmt : CString) (va : Nat → Word) : Option (List Byte) :=
  (format push env fmt va []).map (·.1)

/-! ### The bounded stream -/

/-- Consecutive stores of a text. -/
def storesFrom : Nat → List Byte → List (Nat × Byte)
  | _, [] => []
  | b, c :: t => (b, c) :: storesFrom (b + 1) t

theorem storesFrom_append (b : Nat) (t u : List Byte) :
    storesFrom b (t ++ u) = storesFrom b t ++ storesFrom (b + t.length) u := by
  induction t generalizing b with
  | nil => simp [storesFrom]
  | cons c t ih =>
    rw [List.cons_append, storesFrom, ih, storesFrom, List.cons_append, List.length_cons,
      show b + 1 + t.length = b + (t.length + 1) by omega]

@[simp] theorem length_storesFrom (b : Nat) (t : List Byte) : (storesFrom b t).length = t.length := by
  induction t generalizing b with
  | nil => rfl
  | cons c t ih => simp [storesFrom, ih]

theorem mem_storesFrom {b : Nat} {t : List Byte} {st : Nat × Byte} (h : st ∈ storesFrom b t) :
    b ≤ st.1 ∧ st.1 < b + t.length := by
  induction t generalizing b with
  | nil => cases h
  | cons c t ih =>
    rcases List.mem_cons.mp h with rfl | h
    · exact ⟨Nat.le_refl b, by rw [List.length_cons]; omega⟩
    · obtain ⟨hle, hlt⟩ := ih h
      exact ⟨by omega, by rw [List.length_cons]; omega⟩

/-- The buffer takes what the remaining space allows, and the count takes everything. -/
theorem foldl_addchar (t : List Byte) (s : Pstream) :
    t.foldl addchar s = ⟨s.buffer + min t.length s.remain.toNat,
      s.remain - BitVec.ofNat 32 (min t.length s.remain.toNat), s.added + BitVec.ofNat 32 t.length,
      s.stores ++ storesFrom s.buffer (t.take s.remain.toNat)⟩ := by
  induction t generalizing s with
  | nil => simp [storesFrom]
  | cons c t ih =>
    rw [List.foldl_cons, ih]
    have hadd : s.added + 1 + BitVec.ofNat 32 t.length = s.added + BitVec.ofNat 32 (t.length + 1) := by
      rw [BitVec.ofNat_add, BitVec.add_assoc, BitVec.add_comm (BitVec.ofNat 32 t.length)]
      rfl
    by_cases hr : s.remain = 0
    · simpa [addchar, hr] using hadd
    · have hpos : 0 < s.remain.toNat := Nat.pos_of_ne_zero fun h0 => hr (BitVec.eq_of_toNat_eq h0)
      have hpred : (s.remain - 1).toNat = s.remain.toNat - 1 :=
        BitVec.toNat_sub_of_le (BitVec.le_def.mpr hpos)
      obtain ⟨k, hk⟩ := Nat.exists_eq_add_of_lt hpos
      have hk' : s.remain.toNat = k + 1 := by omega
      have hmin : min (t.length + 1) (k + 1) = min t.length k + 1 := by omega
      simp only [addchar, ne_eq, hr, not_false_eq_true, if_true, hpred, hk', hadd, List.length_cons,
        hmin, List.take_succ_cons, storesFrom, Nat.add_sub_cancel, List.append_assoc,
        List.singleton_append, Pstream.mk.injEq, and_true]
      refine ⟨by omega, ?_⟩
      rw [BitVec.ofNat_add, BitVec.sub_sub, BitVec.add_comm 1]
      rfl

/-! ### The labels of a number -/

theorem eq_zero_of_terminator : ∀ f : Byte, Label.ofByte f = .terminator → f = 0 := by
  decide +kernel

theorem digit_or_minus_of_number :
    ∀ f : Byte, Label.ofByte f = .number → f = ch '-' ∨ isDigit f = true := by
  decide +kernel

theorem numLen_ne_zero {f : Byte} (t : List Byte) (h : Label.ofByte f = .number) :
    numLen (f :: t) ≠ 0 := by
  rw [numLen]
  split
  · exact Nat.succ_ne_zero _
  · next hf =>
    rw [List.takeWhile_cons, if_pos ((digit_or_minus_of_number f h).resolve_left hf)]
    exact Nat.succ_ne_zero _

/-! ### The passes over a format -/

/-- Where a pass leaves the rest of the format, and whether it is inside a directive;
`none` when a width overflows `len`. -/
def pass : Bool → List Byte → Option (Bool × List Byte)
  | _, [] => some (false, [])
  | false, c :: t => some (c = ch '%', t)
  | true, c :: t =>
    match Label.ofByte c with
    | .alternate | .long | .size => some (true, t)
    | .zero => if numLen t < 2 ^ 31 then some (true, t.drop (numLen t)) else none
    | .number =>
      if numLen (c :: t) < 2 ^ 31 then some (true, (c :: t).drop (numLen (c :: t))) else none
    | _ => some (false, t)

/-- The places of a format that the parser comes to. -/
inductive Reaches (l₀ : List Byte) : Bool → List Byte → Prop where
  | start : Reaches l₀ false l₀
  | step {m m' : Bool} {l l' : List Byte} (h : Reaches l₀ m l) (hp : pass m l = some (m', l')) :
      Reaches l₀ m' l'

/-- No width that the parser comes to has more characters than an `int` counts. -/
def ShortWidths (l₀ : List Byte) : Prop := ∀ m l, Reaches l₀ m l → pass m l ≠ none

/-- A place of the run: inside the format, with this rest, at the loop's head or at
`morefmt`. -/
structure At (fmt : CString) (mode : Mode) (c : Cursor) (m : Bool) (l : List Byte) : Prop where
  le : c.fmt ≤ fmt.bytes.length
  rest : fmt.bytes.drop c.fmt = l
  kind : m = match mode with | .text => false | .morefmt _ _ => true

theorem At.read_cons {mode : Mode} {c : Cursor} {m : Bool} {f : Byte} {t : List Byte}
    (h : At fmt mode c m (f :: t)) :
    fmt.read c.fmt = some f ∧ f ≠ 0 ∧ c.fmt + 1 ≤ fmt.bytes.length ∧
      fmt.bytes.drop (c.fmt + 1) = t := by
  have hlt : c.fmt < fmt.bytes.length := by
    by_contra hge
    have hnil := h.rest
    rw [List.drop_eq_nil_of_le (by omega)] at hnil
    cases hnil
  have hcons := (List.drop_eq_getElem_cons hlt).symm.trans h.rest
  have hf : fmt.bytes.get ⟨c.fmt, hlt⟩ = f := (List.cons.inj hcons).1
  exact ⟨hf ▸ read_of_lt hlt, hf ▸ get_ne_zero hlt, hlt, (List.cons.inj hcons).2⟩

theorem At.read_nil {mode : Mode} {c : Cursor} {m : Bool} (h : At fmt mode c m []) :
    fmt.read c.fmt = some 0 := by
  have hge := List.drop_eq_nil_iff.mp h.rest
  rw [show c.fmt = fmt.bytes.length from Nat.le_antisymm h.le hge, read_terminator]

/-- The loop ends at the terminator. -/
theorem At.body_done {c : Cursor} {mode : Mode} (h : At fmt mode c false []) (p : σ) :
    body add env fmt va mode p c = some (p, c, none) := by
  cases mode with
  | text => rw [body, h.read_nil]; rfl
  | morefmt => cases h.kind

theorem width_pass {i : Nat} (hi : i ≤ fmt.bytes.length) (nlong : BitVec 32) (props : Strprops)
    (p : σ) (c : Cursor) (hc : c.fmt = i + 1) :
    ∃ mode c', width fmt nlong props p c = (if numLen (fmt.bytes.drop i) < 2 ^ 31 then
        some (p, c', some mode) else none) ∧
      At fmt mode c' true ((fmt.bytes.drop i).drop (numLen (fmt.bytes.drop i))) := by
  have hnum := fmtnum_read hi (Nat.lt_succ_self fmt.bytes.length)
  refine ⟨.morefmt nlong { props with npad := (atolList (fmt.bytes.drop i)).setWidth 32 },
    { c with fmt := i + numLen (fmt.bytes.drop i) }, ?_, ?_, ?_, rfl⟩
  · rw [width, hc, Nat.add_sub_cancel, hnum]
    split <;> rfl
  · have hle := numLen_le (fmt.bytes.drop i)
    rw [List.length_drop] at hle
    simp only
    omega
  · rw [List.drop_drop]

/-- What one pass does away from the end: it moves to the next place, or overflows. -/
theorem At.body_pass {mode : Mode} {c : Cursor} {m : Bool} {l : List Byte}
    (h : At fmt mode c m l) (hend : ¬ (m = false ∧ l = [])) (p : σ) :
    (pass m l = none ∧ body add env fmt va mode p c = none) ∨
    ∃ m' l' p' c' mode', pass m l = some (m', l') ∧
      body add env fmt va mode p c = some (p', c', some mode') ∧ At fmt mode' c' m' l' := by
  cases l with
  | nil =>
    right
    cases mode with
    | text => exact absurd ⟨h.kind, rfl⟩ hend
    | morefmt nlong props =>
      refine ⟨false, [], p, c, .text, rfl, ?_, ⟨h.le, h.rest, rfl⟩⟩
      rw [body, h.read_nil, Option.bind_some]
      rfl
  | cons f t =>
    obtain ⟨hread, hne, hle, hrest⟩ := h.read_cons
    have hkind := h.kind
    rw [body, hread, Option.bind_some]
    cases mode with
    | text =>
      right
      subst hkind
      simp only [pass, if_neg hne]
      by_cases hf : f = ch '%'
      · exact ⟨true, t, p, _, _, by simp [hf], by rw [if_neg (by simp [hf])], hle, hrest, rfl⟩
      · exact ⟨false, t, _, _, _, by simp [hf], by rw [if_pos hf], hle, hrest, rfl⟩
    | morefmt nlong props =>
      subst hkind
      simp only [pass]
      cases hlabel : Label.ofByte f with
      | terminator => exact absurd (eq_zero_of_terminator f hlabel) hne
      | zero =>
        obtain ⟨mode, c', hw, hat⟩ := width_pass hle nlong { props with pad := ch '0' } p
          { c with fmt := c.fmt + 1 + 1 } rfl
        rw [hrest] at hw hat
        simp only [hw]
        split
        · exact .inr ⟨_, _, _, _, _, rfl, rfl, hat⟩
        · exact .inl ⟨rfl, rfl⟩
      | number =>
        obtain ⟨mode, c', hw, hat⟩ := width_pass h.le nlong props p { c with fmt := c.fmt + 1 } rfl
        rw [h.rest] at hw hat
        simp only [hw]
        split
        · exact .inr ⟨_, _, _, _, _, rfl, rfl, hat⟩
        · exact .inl ⟨rfl, rfl⟩
      | _ => exact .inr ⟨_, _, _, _, _, rfl, rfl, hle, hrest, rfl⟩

/-- A pass away from the end shortens the rest, or leaves a directive that the format ends in. -/
theorem pass_length {m m' : Bool} {l l' : List Byte} (h : pass m l = some (m', l')) :
    l' = [] ∧ m' = false ∨ l'.length < l.length := by
  cases l with
  | nil => cases h; exact .inl ⟨rfl, rfl⟩
  | cons c t =>
    right
    cases m with
    | false =>
      cases h
      exact Nat.lt_succ_self _
    | true =>
      simp only [pass] at h
      have hdrop : ∀ n, (t.drop n).length < (c :: t).length := fun n => by
        rw [List.length_drop, List.length_cons]
        omega
      split at h
      case h_4 =>
        split at h
        · cases h; exact hdrop _
        · cases h
      case h_5 hlabel =>
        split at h
        · cases h
          have hpos : numLen (c :: t) ≠ 0 := numLen_ne_zero t hlabel
          obtain ⟨k, hk⟩ := Nat.exists_eq_succ_of_ne_zero hpos
          rw [hk, List.drop_succ_cons]
          exact hdrop k
        · cases h
      all_goals
        cases h
        exact Nat.lt_succ_self _

/-- Enough fuel for the rest of a format whose widths can be counted. -/
theorem formatLoop_isSome {l₀ : List Byte} (hs : ShortWidths l₀) {fuel : Nat} {mode : Mode}
    {c : Cursor} {m : Bool} {l : List Byte} (hr : Reaches l₀ m l) (hat : At fmt mode c m l)
    (hf : l.length + 2 ≤ fuel ∨ m = false ∧ l = [] ∧ 1 ≤ fuel) (p : σ) :
    ∃ r, formatLoop add env fmt va fuel mode p c = some r := by
  induction fuel generalizing mode c m l p with
  | zero => omega
  | succ fuel ih =>
    by_cases hend : m = false ∧ l = []
    · obtain ⟨rfl, rfl⟩ := hend
      exact ⟨(p, c), by rw [formatLoop, hat.body_done]; rfl⟩
    · rcases hat.body_pass add hend p with ⟨hnone, _⟩ | ⟨m', l', p', c', mode', hp, hb, hat'⟩
      · exact absurd hnone (hs m l hr)
      · have hle : l.length + 2 ≤ fuel + 1 :=
          hf.resolve_right fun h => hend ⟨h.1, h.2.1⟩
        have hf' : l'.length + 2 ≤ fuel ∨ m' = false ∧ l' = [] ∧ 1 ≤ fuel := by
          rcases pass_length hp with ⟨hl, hm⟩ | hlt
          · exact .inr ⟨hm, hl, by omega⟩
          · exact .inl (by omega)
        obtain ⟨r, hr'⟩ := ih (hr.step hp) hat' hf' p'
        exact ⟨r, by rw [formatLoop, hb]; exact hr'⟩

/-- A run that cannot end from a place does not end from any place before it. -/
theorem formatLoop_none_of_reaches {l₀ : List Byte} {m : Bool} {l : List Byte}
    (hr : Reaches l₀ m l)
    (hl : ∀ fuel mode c (p : σ), At fmt mode c m l → formatLoop add env fmt va fuel mode p c = none)
    (fuel : Nat) (mode : Mode) (c : Cursor) (p : σ) (hat : At fmt mode c false l₀) :
    formatLoop add env fmt va fuel mode p c = none := by
  induction hr with
  | start => exact hl fuel mode c p hat
  | @step m₁ _ l₁ _ hr hp ih =>
    apply ih
    intro fuel mode c p hat
    cases fuel with
    | zero => rfl
    | succ fuel =>
      rw [formatLoop]
      by_cases hend : m₁ = false ∧ l₁ = []
      · obtain ⟨rfl, rfl⟩ := hend
        cases hp
        have hnone := hl 1 mode c p hat
        rw [formatLoop, hat.body_done] at hnone
        cases hnone
      · rcases hat.body_pass add hend p with ⟨hnone, _⟩ | ⟨m', l', p', c', mode', hp', hb, hat'⟩
        · rw [hnone] at hp
          cases hp
        · rw [hp] at hp'
          cases hp'
          rw [hb]
          exact hl fuel mode' c' p' hat'

theorem formatLoop_none_of_pass {fuel : Nat} {mode : Mode} {c : Cursor} {m : Bool} {l : List Byte}
    (hpass : pass m l = none) (hat : At fmt mode c m l) (p : σ) :
    formatLoop add env fmt va fuel mode p c = none := by
  cases fuel with
  | zero => rfl
  | succ fuel =>
    have hend : ¬ (m = false ∧ l = []) := by
      rintro ⟨rfl, rfl⟩
      cases hpass
    rcases hat.body_pass add hend p with ⟨_, hb⟩ | ⟨_, _, _, _, _, hp, _⟩
    · rw [formatLoop, hb]
      rfl
    · rw [hpass] at hp
      cases hp

theorem at_start : At fmt .text ⟨0, 0, []⟩ false fmt.bytes := ⟨Nat.zero_le _, rfl, rfl⟩

/-- The formatter returns exactly on the formats whose widths can be counted. -/
theorem format_isSome_iff (p : σ) :
    (∃ r, format add env fmt va p = some r) ↔ ShortWidths fmt.bytes := by
  constructor
  · rintro ⟨r, hr⟩ m l hreach hpass
    have hnone : format add env fmt va p = none :=
      formatLoop_none_of_reaches add hreach
        (fun _ _ _ p hat => formatLoop_none_of_pass add hpass hat p) _ _ _ p at_start
    rw [hnone] at hr
    cases hr
  · intro hs
    exact formatLoop_isSome add hs .start at_start (.inl (Nat.le_refl _)) p

end Dmos.Proofs.Formatting
