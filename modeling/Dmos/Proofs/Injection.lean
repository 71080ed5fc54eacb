import Dmos.Proofs.ListRegisters

namespace Dmos.Proofs.Injection
open Gic Vgic ListRegisters

variable {g : Gic} {v : BitVec 32}

instance (g : Gic) (v : BitVec 32) : Decidable (Held g v) :=
  inferInstanceAs (Decidable (∃ _, _))

instance (g : Gic) : Decidable (Vgic.Unique g) :=
  inferInstanceAs (Decidable (∀ _ _, _))

/-- Reset values: nothing enabled, all list registers empty. -/
def gicReset : Gic := ⟨fun _ => 0, fun _ => 0, fun _ => 0⟩

theorem and_mask_of_lt (h : v < 512) : v &&& 0x1ff#32 = v := by
  have hlt : v.toNat < 512 := h
  apply BitVec.eq_of_toNat_eq
  simp only [BitVec.toNat_and, BitVec.toNat_ofNat]
  rw [show 0x1ff % 2 ^ 32 = 2 ^ 9 - 1 from rfl, Nat.and_two_pow_sub_one_eq_mod]
  exact Nat.mod_eq_of_lt hlt

theorem held_update_of_held {i : Fin 4} {w : BitVec 32} (he : lrEmpty (g.lr i) = true)
    (h : Held g v) : Held (g.gicWriteLr i w) v := by
  obtain ⟨j, hj, hvid⟩ := h
  have hij : j ≠ i := by
    rintro rfl
    rw [he] at hj
    cases hj
  exact ⟨j, by simpa [gicWriteLr, hij] using hj, by simpa [gicWriteLr, hij] using hvid⟩

/-- In a flat state no injection takes away a held interrupt. -/
theorem held_inject (hf : Flat g) {u : BitVec 32} (h : Held g v) : Held (vgicInject g u) v := by
  rcases inject_cases hf u with ⟨i, he, hl⟩ | ⟨_, hl⟩
  · simpa only [Held, hl, gicWriteLr] using held_update_of_held (w := entry u) he h
  · simpa only [Held, hl] using h

theorem held_complete {i : Fin 4} (h : Held g v)
    (hn : lrEmpty (g.lr i) = false → gicLrReadVid (g.lr i) ≠ v) : Held (complete g i) v := by
  obtain ⟨j, hj, hvid⟩ := h
  have hij : j ≠ i := by
    rintro rfl
    exact hn hj hvid
  exact ⟨j, by simpa [complete, gicWriteLr, hij] using hj,
    by simpa [complete, gicWriteLr, hij] using hvid⟩

theorem entries_inject (hf : Flat g) (u : BitVec 32) :
    entries g ≤ entries (vgicInject g u) := by
  rcases inject_cases hf u with ⟨i, he, hl⟩ | ⟨_, hl⟩
  · have heq : entries (vgicInject g u) = entries (g.gicWriteLr i (entry u)) := by
      unfold entries
      rw [hl]
      rfl
    rw [heq, entries_write he (entry_nonempty u)]
    exact Multiset.le_cons_self _ _
  · unfold entries
    rw [hl]

/-- Where the vector can go, or already is. -/
def Room (g : Gic) (v : BitVec 32) : Prop := (∃ i, lrEmpty (g.lr i) = true) ∨ Held g v

/-- An injected vector is held afterwards exactly when it found an empty list
register or was there already. -/
theorem held_after_inject (hf : Flat g) (hv : v &&& 0x1ff#32 = v) :
    Held (vgicInject g v) v ↔ Room g v := by
  constructor
  · intro h
    rcases inject_cases hf v with ⟨i, he, _⟩ | ⟨_, hl⟩
    · exact .inl ⟨i, he⟩
    · right
      simpa only [Held, hl] using h
  · rintro (⟨i, he⟩ | h)
    · rcases inject_cases hf v with ⟨j, _, hl⟩ | ⟨hall, _⟩
      · exact ⟨j, by simp [hl], by simp [hl, hv]⟩
      · rw [hall i] at he
        cases he
    · exact held_inject hf h

/-- The interrupts 27 and 33 taken at EL2, and guest completions. -/
def Passthrough : Event → Prop
  | .irq iar => gicIarIrqnr iar = hvTimerVector ∨ gicIarIrqnr iar = pl011Int
  | .inject _ => False
  | .complete _ => True

instance : DecidablePred Passthrough := fun e => by
  cases e <;> unfold Passthrough <;> infer_instance

theorem step_irq {iar : BitVec 32} (h : Passthrough (.irq iar)) :
    step g (.irq iar) = some (vgicInject g (gicIarIrqnr iar)) ∧
      gicIarIrqnr iar &&& 0x1ff#32 = gicIarIrqnr iar := by
  rcases h with h | h <;> rw [h]
  · exact ⟨by simp [step, handleIrqExceptionEl2, h, gHandlerVec, vTimerHandler], by decide⟩
  · have hne : pl011Int ≠ hvTimerVector := by decide
    exact ⟨by simp [step, handleIrqExceptionEl2, h, gHandlerVec, hne, fakeConsole], by decide⟩

/-- The guest has not ended this interrupt with the step. -/
def Outstanding (v : BitVec 32) (g : Gic) (e : Event) : Prop :=
  ∀ i, e = .complete i → lrEmpty (g.lr i) = false → gicLrReadVid (g.lr i) ≠ v

/-- Nothing is lost in the run: an injection removes no entry, and from it on the
vector is held by some list register until the guest completes it. -/
def NoLoss (g₀ : Gic) (es : List Event) : Prop :=
  ∀ pre iar post g, es = pre ++ .irq iar :: post → Lib.run step g₀ pre = some g →
    entries g ≤ entries (vgicInject g (gicIarIrqnr iar)) ∧
    ∀ mid rest g', post = mid ++ rest →
      Lib.run step (vgicInject g (gicIarIrqnr iar)) mid = some g' →
      Lib.Along step (Outstanding (gicIarIrqnr iar)) (vgicInject g (gicIarIrqnr iar)) mid →
      Held g' (gicIarIrqnr iar)

/-- An injection happens only when its vector has room. -/
def HasRoom (g : Gic) (e : Event) : Prop := ∀ iar, e = .irq iar → Room g (gicIarIrqnr iar)

theorem step_flat {e : Event} {g' : Gic} (he : Passthrough e) (hf : Flat g)
    (hs : step g e = some g') : Flat g' := by
  cases e with
  | irq iar =>
    rw [(step_irq he).1, Option.some.injEq] at hs
    exact hs ▸ inject_flat hf _
  | inject u => exact he.elim
  | complete i => exact Option.some.inj hs ▸ complete_flat hf i

theorem run_flat (es : List Event) (hes : ∀ e ∈ es, Passthrough e) {g₀ g : Gic} (hf : Flat g₀)
    (hr : Lib.run step g₀ es = some g) : Flat g := by
  induction es generalizing g₀ with
  | nil => exact Option.some.inj hr ▸ hf
  | cons e es ih =>
    rw [Lib.run_cons] at hr
    obtain ⟨g₁, hs, hr⟩ := Option.bind_eq_some_iff.mp hr
    exact ih (fun f hmem => hes f (by simp [hmem])) (step_flat (hes e (by simp)) hf hs) hr

/-- Once held, a vector stays held until the guest completes it. -/
theorem run_held (es : List Event) (hes : ∀ e ∈ es, Passthrough e) {g g' : Gic} (hf : Flat g)
    (h : Held g v) (ho : Lib.Along step (Outstanding v) g es)
    (hr : Lib.run step g es = some g') : Held g' v := by
  induction es generalizing g with
  | nil => exact Option.some.inj hr ▸ h
  | cons e es ih =>
    rw [Lib.run_cons] at hr
    obtain ⟨g₁, hs, hr⟩ := Option.bind_eq_some_iff.mp hr
    have he := hes e (by simp)
    refine ih (fun f hmem => hes f (by simp [hmem])) (step_flat he hf hs) ?_ (ho.2 g₁ hs) hr
    cases e with
    | irq iar =>
      rw [(step_irq he).1, Option.some.injEq] at hs
      exact hs ▸ held_inject hf h
    | inject u => exact he.elim
    | complete i =>
      obtain rfl : complete g i = g₁ := Option.some.inj hs
      exact held_complete h (ho.1 i rfl)

/-- A run of passed-through interrupts and completions loses nothing exactly when
every interrupt arrives while a list register is empty, or while the same
vector is still held. -/
theorem no_loss_iff (g₀ : Gic) (h₀ : ∀ i, lrEmpty (g₀.lr i) = true) (es : List Event)
    (hes : ∀ e ∈ es, Passthrough e) :
    NoLoss g₀ es ↔ Lib.Along step HasRoom g₀ es := by
  have hflat : ∀ pre e post g, es = pre ++ e :: post → Lib.run step g₀ pre = some g → Flat g := by
    rintro pre e post g rfl hr
    exact run_flat pre (fun f hf => hes f (by simp [hf])) (flat_of_empty h₀) hr
  rw [Lib.along_iff]
  constructor
  · rintro h pre e post g heq hr iar rfl
    have he := hes (.irq iar) (by simp [heq])
    obtain ⟨_, hheld⟩ := h pre iar post g heq hr
    exact (held_after_inject (hflat pre _ post g heq hr) (step_irq (g := g) he).2).mp
      (hheld [] post _ rfl rfl trivial)
  · intro h pre iar post g heq hr
    have hf := hflat pre _ post g heq hr
    have he := hes (.irq iar) (by simp [heq])
    refine ⟨entries_inject hf _, ?_⟩
    rintro mid rest g' rfl hmid ho
    have hroom := h pre (.irq iar) (mid ++ rest) g heq hr iar rfl
    exact run_held mid (fun f hm => hes f (by simp [heq, hm])) (inject_flat hf _)
      ((held_after_inject hf (step_irq (g := g) he).2).mpr hroom) ho hmid

theorem no_loss_iff_four :
    Lib.Along step HasRoom gicReset [.irq 27, .irq 33, .complete 0, .irq 27] ∧
      NoLoss gicReset [.irq 27, .irq 33, .complete 0, .irq 27] := by
  have hroom : Lib.Along step HasRoom gicReset [.irq 27, .irq 33, .complete 0, .irq 27] := by
    refine ⟨?_, fun g₁ h₁ => ⟨?_, fun g₂ h₂ => ⟨?_, fun g₃ h₃ => ⟨?_, fun _ _ => trivial⟩⟩⟩⟩
    · rintro _ ⟨⟩
      exact .inl ⟨0, by decide⟩
    · obtain rfl := Option.some.inj h₁
      rintro _ ⟨⟩
      exact .inl ⟨1, by decide⟩
    · rintro _ ⟨⟩
    · obtain rfl := Option.some.inj h₁
      obtain rfl := Option.some.inj h₂
      obtain rfl := Option.some.inj h₃
      rintro _ ⟨⟩
      exact .inl ⟨0, by decide⟩
  exact ⟨hroom, (no_loss_iff gicReset (by decide) _ (by decide)).mpr hroom⟩

/-- Four timer interrupts fill the list registers; the UART interrupt after them
is acknowledged, deactivated and dropped. -/
theorem console_interrupt_lost :
    ¬ NoLoss gicReset [.irq 27, .irq 27, .irq 27, .irq 27, .irq 33] := by
  intro h
  obtain ⟨_, hheld⟩ := h [.irq 27, .irq 27, .irq 27, .irq 27] 33 [] _ rfl rfl
  exact absurd (hheld [] [] _ rfl rfl trivial) (by decide)

/-- Injections of vectors below 512, and guest completions. -/
def Direct : Event → Prop
  | .irq _ => False
  | .inject v => v < 512
  | .complete _ => True

instance : DecidablePred Direct := fun e => by
  cases e <;> unfold Direct <;> infer_instance

/-- A vector is injected only while no list register holds it, or while all are
occupied, when the injection has no effect. -/
def Fresh (g : Gic) (e : Event) : Prop :=
  ∀ v, e = .inject v → ¬ Held g v ∨ ∀ i, lrEmpty (g.lr i) = false

theorem unique_inject_iff (hf : Flat g) (hu : Vgic.Unique g) (hv : v < 512) :
    Vgic.Unique (vgicInject g v) ↔ ¬ Held g v ∨ ∀ i, lrEmpty (g.lr i) = false := by
  rcases inject_cases hf v with ⟨i, he, hl⟩ | ⟨hall, hl⟩
  · have hfull : ¬ ∀ i, lrEmpty (g.lr i) = false := fun h => by rw [h i] at he; cases he
    rw [or_iff_left hfull]
    simp only [Vgic.Unique, hl]
    constructor
    · rintro h ⟨j, hj, hvid⟩
      have hij : j ≠ i := by
        rintro rfl
        rw [he] at hj
        cases hj
      have := h i j (by simp) (by simpa [hij] using hj) (by simp [hij, hvid, and_mask_of_lt hv])
      exact hij this.symm
    · intro hn j k hj hk hvid
      by_cases hji : j = i <;> by_cases hki : k = i
      · rw [hji, hki]
      · simp only [hji, Function.update_self, entry_vid, and_mask_of_lt hv,
          Function.update_of_ne hki] at hk hvid
        exact absurd ⟨k, hk, hvid.symm⟩ hn
      · simp only [hki, Function.update_self, entry_vid, and_mask_of_lt hv,
          Function.update_of_ne hji] at hj hvid
        exact absurd ⟨j, hj, hvid⟩ hn
      · simp only [Function.update_of_ne hji, Function.update_of_ne hki] at hj hk hvid
        exact hu j k hj hk hvid
  · simp only [Vgic.Unique, hl]
    exact ⟨fun _ => .inr hall, fun _ => hu⟩

theorem unique_complete (hu : Vgic.Unique g) (i : Fin 4) : Vgic.Unique (complete g i) := by
  have hother : ∀ j, lrEmpty ((complete g i).lr j) = false →
      (complete g i).lr j = g.lr j := by
    intro j hj
    have hji : j ≠ i := by
      rintro rfl
      simp [complete, gicWriteLr, lrEmpty_complete] at hj
    simp [complete, gicWriteLr, hji]
  intro j k hj hk hvid
  have hgj := hother j hj
  have hgk := hother k hk
  rw [hgj] at hj hvid
  rw [hgk] at hk hvid
  exact hu j k hj hk hvid

/-- In every state of a run no two occupied list registers hold one virtual
interrupt, exactly when no vector is injected that is still held while there is
an empty list register to put it in. -/
theorem lr_unique_iff (g₀ : Gic) (h₀ : ∀ i, lrEmpty (g₀.lr i) = true) (es : List Event)
    (hes : ∀ e ∈ es, Direct e) :
    Lib.Throughout step Vgic.Unique g₀ es ↔ Lib.Along step Fresh g₀ es := by
  refine Lib.throughout_iff_along (I := Flat) (E := Direct) ?_ ?_ es g₀ hes (flat_of_empty h₀) ?_
  · intro g e g' he hf hu hs
    cases e with
    | irq iar => exact he.elim
    | inject v =>
      obtain rfl : vgicInject g v = g' := Option.some.inj hs
      rw [unique_inject_iff hf hu he]
      constructor
      · rintro h _ ⟨⟩
        exact h
      · intro h
        exact h v rfl
    | complete i =>
      obtain rfl : complete g i = g' := Option.some.inj hs
      constructor
      · rintro _ _ ⟨⟩
      · intro _
        exact unique_complete hu i
  · intro g e he hf
    cases e with
    | irq iar => exact he.elim
    | inject v => exact ⟨_, rfl, inject_flat hf v⟩
    | complete i => exact ⟨_, rfl, complete_flat hf i⟩
  · intro i j hi
    rw [h₀ i] at hi
    cases hi

theorem lr_unique_iff_two :
    Lib.Along step Fresh gicReset [.inject 27, .inject 33] ∧
      Lib.Throughout step Vgic.Unique gicReset [.inject 27, .inject 33] := by
  have hfresh : Lib.Along step Fresh gicReset [.inject 27, .inject 33] := by
    refine ⟨?_, fun g₁ h₁ => ⟨?_, fun _ _ => trivial⟩⟩
    · rintro _ ⟨⟩
      exact .inl (by decide)
    · obtain rfl := Option.some.inj h₁
      rintro _ ⟨⟩
      exact .inl (by decide)
  exact ⟨hfresh, (lr_unique_iff gicReset (by decide) _ (by decide)).mpr hfresh⟩

/-- The timer interrupt injected twice before the guest ends the first one. -/
theorem timer_held_twice :
    ¬ Lib.Throughout step Vgic.Unique gicReset [.inject 27, .inject 27] := by
  rintro ⟨_, h⟩
  have htwo : Vgic.Unique (vgicInject (vgicInject gicReset 27) 27) := (h _ rfl).2 _ rfl
  exact absurd htwo (by decide)

end Dmos.Proofs.Injection
