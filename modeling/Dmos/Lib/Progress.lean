import Dmos.Lib.Run

namespace Dmos.Lib

variable {σ ε : Type} {step : σ → ε → Option σ}

/-- The bounded progress rule: a rank that every step of one party lowers and no
other step raises, as long as the goal is not met. A run in which the party takes
more steps than the rank meets the goal on the way. -/
theorem run_reaches {I : σ → Prop} {G : σ → ε → Prop} {E : ε → Prop} {rank : σ → Nat}
    {own : ε → Bool}
    (hstep : ∀ s e s', I s → E e → step s e = some s' → ¬ G s e →
      I s' ∧ rank s' + (if own e = true then 1 else 0) ≤ rank s)
    (es : List ε) (s s' : σ) (hi : I s) (he : ∀ e ∈ es, E e) (hrun : run step s es = some s')
    (hn : rank s < (es.filter own).length) :
    ∃ pre e post t, es = pre ++ e :: post ∧ run step s pre = some t ∧ G t e := by
  induction es generalizing s with
  | nil => simp at hn
  | cons e es ih =>
    by_cases hg : G s e
    · exact ⟨[], e, es, s, rfl, rfl, hg⟩
    · rw [run_cons] at hrun
      obtain ⟨s₁, hs, hrun⟩ := Option.bind_eq_some_iff.mp hrun
      obtain ⟨hi₁, hr⟩ := hstep s e s₁ hi (he e (by simp)) hs hg
      have hn₁ : rank s₁ < (es.filter own).length := by
        rw [List.filter_cons] at hn
        split at hn
        · rename_i ho
          rw [if_pos ho] at hr
          rw [List.length_cons] at hn
          omega
        · omega
      obtain ⟨pre, f, post, t, rfl, ht, hG⟩ := ih s₁ hi₁ (fun f hf => he f (by simp [hf])) hrun hn₁
      exact ⟨e :: pre, f, post, t, rfl, by rw [run_cons, hs]; exact ht, hG⟩

end Dmos.Lib
