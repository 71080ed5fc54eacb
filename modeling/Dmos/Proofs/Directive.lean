import Dmos.Proofs.Formatting

namespace Dmos.Proofs.Directive
open Printf Atol Formatting

variable {env : Env} {fmt : CString} {va : Nat → Word} {mode mode' : Mode} {f : Byte}
  {l l' t : List Byte} {r : List Byte × Cursor} {nlong : BitVec 32} {props : Strprops}

theorem formatLoop_succ {fuel : Nat} {p : List Byte} {c : Cursor}
    (h : formatLoop push env fmt va fuel mode p c = some r) :
    formatLoop push env fmt va (fuel + 1) mode p c = some r := by
  induction fuel generalizing mode p c with
  | zero => cases h
  | succ fuel ih =>
    rw [formatLoop] at h ⊢
    cases hb : body push env fmt va mode p c with
    | none =>
      rw [hb] at h
      cases h
    | some b =>
      obtain ⟨p', c', next⟩ := b
      rw [hb] at h
      cases next with
      | none => exact h
      | some mode => exact ih h

theorem formatLoop_mono {fuel fuel' : Nat} {p : List Byte} {c : Cursor} (hle : fuel ≤ fuel')
    (h : formatLoop push env fmt va fuel mode p c = some r) :
    formatLoop push env fmt va fuel' mode p c = some r := by
  induction hle with
  | refl => exact h
  | step _ ih => exact formatLoop_succ ih

/-- The cursor where this much of the format is left, before any argument is taken. -/
def place (fmt : CString) (l : List Byte) : Cursor := ⟨fmt.bytes.length - l.length, 0, []⟩

/-- The rest is part of the format, and the run from there adds a text and ends. -/
def Ends (env : Env) (fmt : CString) (va : Nat → Word) (mode : Mode) (l : List Byte)
    (r : List Byte × Cursor) : Prop :=
  l <:+ fmt.bytes ∧ ∃ fuel, formatLoop push env fmt va fuel mode [] (place fmt l) = some r

theorem drop_place (h : l <:+ fmt.bytes) : fmt.bytes.drop (place fmt l).fmt = l :=
  (List.suffix_iff_eq_drop.mp h).symm

theorem place_le : (place fmt l).fmt ≤ fmt.bytes.length := Nat.sub_le _ _

theorem tail_suffix (h : f :: t <:+ fmt.bytes) : t <:+ fmt.bytes := (List.suffix_cons f t).trans h

theorem place_tail (h : f :: t <:+ fmt.bytes) :
    { place fmt (f :: t) with fmt := (place fmt (f :: t)).fmt + 1 } = place fmt t := by
  have hle := h.length_le
  simp only [place, List.length_cons, Cursor.mk.injEq, and_self, and_true] at hle ⊢
  omega

theorem read_place (h : f :: t <:+ fmt.bytes) : fmt.read (place fmt (f :: t)).fmt = some f := by
  have hat : At fmt .text (place fmt (f :: t)) false (f :: t) := ⟨place_le, drop_place h, rfl⟩
  exact hat.read_cons.1

theorem Ends.step (h : Ends env fmt va mode' l' r) (hl : l <:+ fmt.bytes)
    (hb : body push env fmt va mode [] (place fmt l) = some ([], place fmt l', some mode')) :
    Ends env fmt va mode l r := by
  obtain ⟨_, fuel, hrun⟩ := h
  exact ⟨hl, fuel + 1, by rw [formatLoop, hb]; exact hrun⟩

theorem Ends.percent (h : Ends env fmt va (.morefmt 0 ⟨ch ' ', 0, false⟩) t r)
    (hl : ch '%' :: t <:+ fmt.bytes) : Ends env fmt va .text (ch '%' :: t) r := by
  apply h.step hl
  rw [body, read_place hl, Option.bind_some, place_tail hl]
  rfl

theorem Ends.alternate (h : Ends env fmt va (.morefmt nlong { props with alternate := true }) t r)
    (hl : f :: t <:+ fmt.bytes) (hf : Label.ofByte f = .alternate) :
    Ends env fmt va (.morefmt nlong props) (f :: t) r := by
  apply h.step hl
  simp only [body, read_place hl, Option.bind_some, place_tail hl, hf]

theorem Ends.long (h : Ends env fmt va (.morefmt (nlong + 1) props) t r)
    (hl : f :: t <:+ fmt.bytes) (hf : Label.ofByte f = .long) :
    Ends env fmt va (.morefmt nlong props) (f :: t) r := by
  apply h.step hl
  simp only [body, read_place hl, Option.bind_some, place_tail hl, hf]

/-- A width is read where it stands. -/
theorem width_place (hl : l <:+ fmt.bytes) (hn : numLen l < 2 ^ 31) {c : Cursor}
    (hc : c = { place fmt l with fmt := (place fmt l).fmt + 1 }) (props : Strprops) :
    width fmt nlong props ([] : List Byte) c = some ([], place fmt (l.drop (numLen l)),
      some (.morefmt nlong { props with npad := (atolList l).setWidth 32 })) := by
  have hlen := hl.length_le
  have hnle := numLen_le l
  rw [width, hc, Nat.add_sub_cancel, fmtnum_read place_le (Nat.lt_succ_self _), drop_place hl,
    if_pos hn, Option.map_some]
  simp only [place, List.length_drop, Option.some.injEq, Prod.mk.injEq, Cursor.mk.injEq, and_true,
    true_and]
  omega

theorem Ends.number (h : Ends env fmt va
      (.morefmt nlong { props with npad := (atolList (f :: t)).setWidth 32 })
      ((f :: t).drop (numLen (f :: t))) r)
    (hl : f :: t <:+ fmt.bytes) (hf : Label.ofByte f = .number) (hn : numLen (f :: t) < 2 ^ 31) :
    Ends env fmt va (.morefmt nlong props) (f :: t) r := by
  apply h.step hl
  simp only [body, read_place hl, Option.bind_some, hf]
  exact width_place hl hn rfl props

theorem Ends.zero (h : Ends env fmt va
      (.morefmt nlong { props with pad := ch '0', npad := (atolList t).setWidth 32 })
      (t.drop (numLen t)) r)
    (hl : f :: t <:+ fmt.bytes) (hf : Label.ofByte f = .zero) (hn : numLen t < 2 ^ 31) :
    Ends env fmt va (.morefmt nlong props) (f :: t) r := by
  apply h.step hl
  simp only [body, read_place hl, Option.bind_some, hf]
  have hc := congrArg (fun c : Cursor => { c with fmt := c.fmt + 1 }) (place_tail hl)
  exact width_place (tail_suffix hl) hn hc _

/-- A conversion at the end of the format. -/
theorem ends_convert (hl : [f] <:+ fmt.bytes)
    (hf : Label.ofByte f ∈ [Label.percent, .char, .signed, .unsigned, .hex, .pointer, .string, .other]) :
    Ends env fmt va (.morefmt nlong props) [f]
      (convert push env va f (Label.ofByte f) nlong props [] (place fmt [])) := by
  refine ⟨hl, 2, ?_⟩
  have hbody : body push env fmt va (.morefmt nlong props) [] (place fmt [f]) =
      some ((convert push env va f (Label.ofByte f) nlong props [] (place fmt [])).1,
        (convert push env va f (Label.ofByte f) nlong props [] (place fmt [])).2, some .text) := by
    simp only [body, read_place hl, Option.bind_some, place_tail hl]
    cases hlabel : Label.ofByte f <;> simp_all
  have hfmt : (convert push env va f (Label.ofByte f) nlong props [] (place fmt [])).2.fmt =
      fmt.bytes.length := by
    cases Label.ofByte f <;> rfl
  have hat : At fmt .text (convert push env va f (Label.ofByte f) nlong props [] (place fmt [])).2
      false [] := ⟨Nat.le_of_eq hfmt, by rw [hfmt, List.drop_length], rfl⟩
  rw [formatLoop, hbody, Option.bind_some]
  simp only [formatLoop, hat.body_done push]
  rfl

theorem reaches_length {l₀ : List Byte} {m : Bool} (h : Reaches l₀ m l) : l.length ≤ l₀.length := by
  induction h with
  | start => exact Nat.le_refl _
  | step _ hp ih =>
    rcases pass_length hp with ⟨rfl, _⟩ | hlt
    · exact Nat.zero_le _
    · omega

/-- In a format of fewer than `2^31` characters every width can be counted. -/
theorem shortWidths_of_length (h : l.length < 2 ^ 31) : ShortWidths l := by
  intro m l' hr
  have hle := reaches_length hr
  cases l' with
  | nil => exact Option.some_ne_none _
  | cons c t =>
    rw [List.length_cons] at hle
    have ht := numLen_le t
    have hct := numLen_le (c :: t)
    rw [List.length_cons] at hct
    cases m with
    | false => exact Option.some_ne_none _
    | true =>
      simp only [Formatting.pass]
      rw [if_pos (show numLen t < 2 ^ 31 by omega), if_pos (show numLen (c :: t) < 2 ^ 31 by omega)]
      cases Label.ofByte c <;> exact Option.some_ne_none _

/-- The formatter's result is the one a run of the rules gives. -/
theorem format_of_ends (h : Ends env fmt va .text fmt.bytes r) (hs : ShortWidths fmt.bytes) :
    format push env fmt va [] = some r := by
  obtain ⟨_, fuel, hrun⟩ := h
  obtain ⟨r', hr'⟩ : ∃ r', format push env fmt va [] = some r' := (format_isSome_iff push []).mpr hs
  have hplace : place fmt fmt.bytes = ⟨0, 0, []⟩ := by rw [place, Nat.sub_self]
  rw [hplace] at hrun
  have h1 := formatLoop_mono (Nat.le_max_left fuel (fmt.bytes.length + 2)) hrun
  have h2 := formatLoop_mono (Nat.le_max_right fuel (fmt.bytes.length + 2)) hr'
  rw [hr', ← h2, h1]

end Dmos.Proofs.Directive
