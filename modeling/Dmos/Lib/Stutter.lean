import Mathlib.Data.List.Basic
import Dmos.Lib.Run

namespace Dmos.Lib

variable {σ τ ε δ : Type} {step : σ → ε → Option σ} {astep : τ → δ → Option τ}

/-- The stuttering simulation rule: each concrete step is matched by one abstract
step or by none, and the steps in `q` always by one. The abstract run takes its
events from those of the concrete run, in order. -/
theorem run_stutters {R : σ → τ → Prop} {p : ε → δ} {q : δ → Bool}
    (hstep : ∀ s t e, R s t → ∃ s', step s e = some s' ∧
      ((q (p e) = false ∧ R s' t) ∨ ∃ t', astep t (p e) = some t' ∧ R s' t'))
    (es : List ε) (s : σ) (t : τ) (hr : R s t) :
    ∃ s' ds t', run step s es = some s' ∧ run astep t ds = some t' ∧ R s' t' ∧
      ds.Sublist (es.map p) ∧ ds.filter q = (es.map p).filter q := by
  induction es generalizing s t with
  | nil => exact ⟨s, [], t, rfl, rfl, hr, .slnil, rfl⟩
  | cons e es ih =>
    obtain ⟨s₁, hs, h⟩ := hstep s t e hr
    rcases h with ⟨hq, hr₁⟩ | ⟨t₁, ht, hr₁⟩
    · obtain ⟨s', ds, t', hrun, harun, hr', hsub, hfil⟩ := ih s₁ t hr₁
      refine ⟨s', ds, t', by rw [run_cons, hs]; exact hrun, harun, hr', hsub.cons _, ?_⟩
      rw [hfil, List.map_cons, List.filter_cons, if_neg (by simp [hq])]
    · obtain ⟨s', ds, t', hrun, harun, hr', hsub, hfil⟩ := ih s₁ t₁ hr₁
      refine ⟨s', p e :: ds, t', by rw [run_cons, hs]; exact hrun, by rw [run_cons, ht]; exact harun,
        hr', hsub.cons_cons _, ?_⟩
      rw [List.map_cons, List.filter_cons, List.filter_cons, hfil]

end Dmos.Lib
