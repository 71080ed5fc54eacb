import Mathlib.Logic.Function.Basic

namespace Dmos.Lib

variable {σ ε ο : Type}

/-- A run of a partial step function. A step that faults ends the run with
`none`, so `some` records that every step of the run was executed. -/
def run (step : σ → ε → Option σ) : σ → List ε → Option σ
  | s, [] => some s
  | s, e :: es => (step s e).bind (fun s' => run step s' es)

/-- A condition on the state before each step, along the run. -/
def Along (step : σ → ε → Option σ) (C : σ → ε → Prop) : σ → List ε → Prop
  | _, [] => True
  | s, e :: es => C s e ∧ ∀ s', step s e = some s' → Along step C s' es

/-- A property of every state that the run goes through, the first included. -/
def Throughout (step : σ → ε → Option σ) (P : σ → Prop) : σ → List ε → Prop
  | s, [] => P s
  | s, e :: es => P s ∧ ∀ s', step s e = some s' → Throughout step P s' es

/-- A call that returns a result, or fails, as a step. -/
def callStep {φ ρ : Type} (exec : σ → ε → Except φ (ρ × σ)) (s : σ) (e : ε) : Option σ :=
  (exec s e).toOption.map Prod.snd

/-- What the steps of a run put out, in order. -/
def outputs (step : σ → ε → Option σ) (out : σ → ε → Option ο) : σ → List ε → List ο
  | _, [] => []
  | s, e :: es =>
    let rest := match step s e with
      | some s' => outputs step out s' es
      | none => []
    match out s e with
      | some o => o :: rest
      | none => rest

variable {step : σ → ε → Option σ}

@[simp] theorem run_nil (s : σ) : run step s [] = some s := rfl

theorem run_cons (s : σ) (e : ε) (es : List ε) :
    run step s (e :: es) = (step s e).bind (fun s' => run step s' es) := rfl

theorem run_append (s : σ) (es fs : List ε) :
    run step s (es ++ fs) = (run step s es).bind (fun t => run step t fs) := by
  induction es generalizing s with
  | nil => rfl
  | cons e es ih =>
    simp only [List.cons_append, run_cons]
    cases hs : step s e with
    | none => rfl
    | some s' => exact ih s'

theorem run_append_some {s t u : σ} {es fs : List ε} (h : run step s es = some t)
    (h' : run step t fs = some u) : run step s (es ++ fs) = some u := by
  rw [run_append, h]
  exact h'

theorem run_singleton {s s' : σ} {e : ε} (h : step s e = some s') : run step s [e] = some s' := by
  rw [run_cons, h]
  rfl

theorem callStep_ok {φ ρ : Type} {exec : σ → ε → Except φ (ρ × σ)} {s s' : σ} {e : ε} {r : ρ}
    (h : exec s e = .ok (r, s')) : callStep exec s e = some s' := by
  rw [callStep, h]
  rfl

/-- The invariant rule: what one step preserves, a whole run preserves. The
condition is asked only of the steps that the run really takes. -/
theorem run_invariant {I : σ → Prop} {C : σ → ε → Prop}
    (hstep : ∀ s e, I s → C s e → ∃ s', step s e = some s' ∧ I s')
    (es : List ε) (s : σ) (hs : I s) (hc : Along step C s es) :
    ∃ t, run step s es = some t ∧ I t := by
  induction es generalizing s with
  | nil => exact ⟨s, rfl, hs⟩
  | cons e es ih =>
    obtain ⟨s', he, hi⟩ := hstep s e hs hc.1
    obtain ⟨t, ht, hinv⟩ := ih s' hi (hc.2 s' he)
    exact ⟨t, by rw [run_cons, he]; exact ht, hinv⟩

/-- `Along` for a condition that is computed. -/
def alongB (step : σ → ε → Option σ) (check : σ → ε → Bool) : σ → List ε → Bool
  | _, [] => true
  | s, e :: es => check s e && match step s e with
    | some s' => alongB step check s' es
    | none => true

theorem Along.of_alongB {C : σ → ε → Prop} {check : σ → ε → Bool}
    (hc : ∀ s e, check s e = true → C s e) (es : List ε) (s : σ)
    (h : alongB step check s es = true) : Along step C s es := by
  induction es generalizing s with
  | nil => trivial
  | cons e es ih =>
    simp only [alongB, Bool.and_eq_true] at h
    refine ⟨hc s e h.1, fun s' hs => ih s' ?_⟩
    simpa only [hs] using h.2

/-- The runs of an abstract step relation. -/
def Traces {α : Type} (astep : α → ε → α → Prop) : α → List ε → α → Prop
  | a, [], b => b = a
  | a, e :: es, b => ∃ a', astep a e a' ∧ Traces astep a' es b

/-- The simulation rule: a step for a step, a run for a run. -/
theorem run_refines {α : Type} {astep : α → ε → α → Prop} {R : σ → α → Prop}
    {C : σ → ε → Prop}
    (hstep : ∀ s a e, R s a → C s e → ∃ s' a', step s e = some s' ∧ astep a e a' ∧ R s' a')
    (es : List ε) (s : σ) (a : α) (hr : R s a) (hc : Along step C s es) :
    ∃ t b, run step s es = some t ∧ Traces astep a es b ∧ R t b := by
  induction es generalizing s a with
  | nil => exact ⟨s, a, rfl, rfl, hr⟩
  | cons e es ih =>
    obtain ⟨s', a', he, ha, hr'⟩ := hstep s a e hr hc.1
    obtain ⟨t, b, ht, hb, hR⟩ := ih s' a' hr' (hc.2 s' he)
    exact ⟨t, b, by rw [run_cons, he]; exact ht, ⟨a', ha, hb⟩, hR⟩

/-- A condition on the abstract state before each step of a list of steps. -/
def LegalRun {α : Type} (next : α → ε → α) (L : α → ε → Prop) : α → List ε → Prop
  | _, [] => True
  | a, e :: es => L a e ∧ LegalRun next L (next a e) es

/-- The simulation rule for an abstract step that is a function, under a condition
on the abstract state. -/
theorem run_simulates {α : Type} {next : α → ε → α} {R : σ → α → Prop} {L : α → ε → Prop}
    (hstep : ∀ s a e, R s a → L a e → ∃ s', step s e = some s' ∧ R s' (next a e))
    (es : List ε) (s : σ) (a : α) (hr : R s a) (hl : LegalRun next L a es) :
    ∃ t, run step s es = some t ∧ R t (es.foldl next a) := by
  induction es generalizing s a with
  | nil => exact ⟨s, rfl, hr⟩
  | cons e es ih =>
    obtain ⟨s', he, hr'⟩ := hstep s a e hr hl.1
    obtain ⟨t, ht, hR⟩ := ih s' (next a e) hr' hl.2
    exact ⟨t, by rw [run_cons, he]; exact ht, hR⟩

/-- A run that is not asked to keep going: the invariant holds in every state
that a run under the condition does reach. -/
theorem run_keeps {I : σ → Prop} {C : σ → ε → Prop}
    (hstep : ∀ s e s', I s → C s e → step s e = some s' → I s')
    (es : List ε) (s t : σ) (hs : I s) (hc : Along step C s es) (ht : run step s es = some t) :
    I t := by
  induction es generalizing s with
  | nil => exact Option.some.inj ht ▸ hs
  | cons e es ih =>
    rw [run_cons] at ht
    cases he : step s e with
    | none => simp [he] at ht
    | some s' => exact ih s' (hstep s e s' hs hc.1 he) (hc.2 s' he) (by simpa [he] using ht)

theorem Along.of_forall {C : σ → ε → Prop} (h : ∀ s e, C s e) (es : List ε) (s : σ) :
    Along step C s es := by
  induction es generalizing s with
  | nil => trivial
  | cons e es ih => exact ⟨h s e, fun s' _ => ih s'⟩

/-- The invariant holds in every state that any run reaches. -/
theorem run_always {I : σ → Prop} (hstep : ∀ s e s', I s → step s e = some s' → I s')
    (es : List ε) (s t : σ) (hs : I s) (ht : run step s es = some t) : I t :=
  run_keeps (C := fun _ _ => True) (fun s e s' h _ he => hstep s e s' h he) es s t hs
    (Along.of_forall (fun _ _ => trivial) es s) ht

/-- A condition that the invariant itself implies holds along every run. -/
theorem Along.of_invariant {I : σ → Prop} {C : σ → ε → Prop}
    (hcond : ∀ s e, I s → C s e)
    (hstep : ∀ s e s', I s → step s e = some s' → I s')
    (es : List ε) (s : σ) (hs : I s) : Along step C s es := by
  induction es generalizing s with
  | nil => trivial
  | cons e es ih => exact ⟨hcond s e hs, fun s' he => ih s' (hstep s e s' hs he)⟩

/-- The condition along a run, read at each of its positions. -/
theorem along_iff {C : σ → ε → Prop} (es : List ε) (s : σ) :
    Along step C s es ↔
      ∀ pre e post t, es = pre ++ e :: post → run step s pre = some t → C t e := by
  induction es generalizing s with
  | nil => simp [Along]
  | cons e es ih =>
    constructor
    · rintro ⟨hc, h⟩ pre f post t heq ht
      cases pre with
      | nil =>
        simp only [List.nil_append, List.cons.injEq] at heq
        exact heq.1 ▸ Option.some.inj ht ▸ hc
      | cons p pre =>
        simp only [List.cons_append, List.cons.injEq] at heq
        rw [← heq.1, run_cons] at ht
        obtain ⟨s', hs, ht⟩ := Option.bind_eq_some_iff.mp ht
        exact (ih s').mp (h s' hs) pre f post t heq.2 ht
    · intro h
      refine ⟨h [] e es s rfl rfl, fun s' hs => (ih s').mpr ?_⟩
      rintro pre f post t rfl ht
      exact h (e :: pre) f post t rfl (by rw [run_cons, hs]; exact ht)

/-- Two conditions that agree in every state agree along every run. -/
theorem along_congr {C D : σ → ε → Prop} (h : ∀ s e, C s e ↔ D s e) (es : List ε) (s : σ) :
    Along step C s es ↔ Along step D s es := by
  simp only [along_iff, h]

/-- A step for a step by a function on the states. -/
theorem run_map {τ : Type} {step' : τ → ε → Option τ} {f : σ → τ}
    (h : ∀ s e, (step s e).map f = step' (f s) e) (es : List ε) (s : σ) :
    (run step s es).map f = run step' (f s) es := by
  induction es generalizing s with
  | nil => rfl
  | cons e es ih =>
    rw [run_cons, run_cons, ← h]
    cases step s e with
    | none => rfl
    | some s' => exact ih s'

/-- A condition on the events alone. -/
theorem Along.of_events {E : ε → Prop} {es : List ε} (h : ∀ e ∈ es, E e) (s : σ) :
    Along step (fun _ e => E e) s es := by
  rw [along_iff]
  rintro pre e post t rfl -
  exact h e (by simp)

/-- When the condition on a step is exactly what keeps `P`, a run stays in `P`
exactly when all its steps meet the condition. -/
theorem throughout_iff_along {P I : σ → Prop} {E : ε → Prop} {C : σ → ε → Prop}
    (hstep : ∀ s e s', E e → I s → P s → step s e = some s' → (P s' ↔ C s e))
    (hinv : ∀ s e, E e → I s → ∃ s', step s e = some s' ∧ I s')
    (es : List ε) (s : σ) (hes : ∀ e ∈ es, E e) (hi : I s) (hp : P s) :
    Throughout step P s es ↔ Along step C s es := by
  induction es generalizing s with
  | nil => exact ⟨fun _ => trivial, fun _ => hp⟩
  | cons e es ih =>
    have hE := hes e (by simp)
    have hes' : ∀ f ∈ es, E f := fun f hf => hes f (by simp [hf])
    obtain ⟨s', he, hi'⟩ := hinv s e hE hi
    have hiff := hstep s e s' hE hi hp he
    have hp' : Throughout step P s' es → P s' := by
      cases es with
      | nil => exact id
      | cons f fs => exact And.left
    constructor
    · rintro ⟨_, h⟩
      refine ⟨hiff.mp (hp' (h s' he)), fun t ht => ?_⟩
      obtain rfl : s' = t := Option.some.inj (he.symm.trans ht)
      exact (ih s' hes' hi' (hp' (h s' he))).mp (h s' he)
    · rintro ⟨hc, h⟩
      refine ⟨hp, fun t ht => ?_⟩
      obtain rfl : s' = t := Option.some.inj (he.symm.trans ht)
      exact (ih s' hes' hi' (hiff.mpr hc)).mpr (h s' he)

/-- Two conditions along one run. -/
theorem Along.and {C D : σ → ε → Prop} {es : List ε} {s : σ} (hc : Along step C s es)
    (hd : Along step D s es) : Along step (fun s e => C s e ∧ D s e) s es := by
  rw [along_iff] at hc hd ⊢
  exact fun pre e post t h ht => ⟨hc pre e post t h ht, hd pre e post t h ht⟩

/-- What the invariant and the condition say of every output. -/
theorem outputs_forall {out : σ → ε → Option ο} {I : σ → Prop} {C : σ → ε → Prop} {G : ο → Prop}
    (hout : ∀ s e o, I s → C s e → out s e = some o → G o)
    (hstep : ∀ s e s', I s → C s e → step s e = some s' → I s')
    (es : List ε) (s : σ) (hs : I s) (hc : Along step C s es) :
    ∀ o ∈ outputs step out s es, G o := by
  induction es generalizing s with
  | nil => exact fun o ho => nomatch ho
  | cons e es ih =>
    have hrest : ∀ o ∈ (match step s e with | some s' => outputs step out s' es | none => []),
        G o := by
      intro o ho
      cases he : step s e with
      | none => simp [he] at ho
      | some s' => exact ih s' (hstep s e s' hs hc.1 he) (hc.2 s' he) o (by simpa [he] using ho)
    intro o ho
    cases hp : out s e with
    | none => exact hrest o (by simpa [outputs, hp] using ho)
    | some p =>
      simp only [outputs, hp, List.mem_cons] at ho
      rcases ho with rfl | ho
      · exact hout s e o hs hc.1 hp
      · exact hrest o ho

/-- A run without outputs has none at any step. -/
theorem along_of_outputs_nil {out : σ → ε → Option ο} (es : List ε) (s : σ)
    (h : outputs step out s es = []) : Along step (fun s e => out s e = none) s es := by
  induction es generalizing s with
  | nil => trivial
  | cons e es ih =>
    cases ho : out s e with
    | some o => simp [outputs, ho] at h
    | none => exact ⟨ho, fun s' hs => ih s' (by simpa [outputs, ho, hs] using h)⟩

end Dmos.Lib
