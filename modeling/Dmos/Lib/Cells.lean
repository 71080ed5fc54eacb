import Mathlib.Data.List.Induction

namespace Dmos.Lib

variable {σ ε β : Type}

/-- A cell after some operations: what the last of them that wrote it put there, or
what it held before all of them. `w` is what an operation writes to the cell. -/
def lastWrite (w : ε → Option β) (b : β) (es : List ε) : β := (es.reverse.findSome? w).getD b

@[simp] theorem lastWrite_nil (w : ε → Option β) (b : β) : lastWrite w b [] = b := rfl

theorem lastWrite_concat (w : ε → Option β) (b : β) (es : List ε) (e : ε) :
    lastWrite w b (es ++ [e]) = (w e).getD (lastWrite w b es) := by
  rw [lastWrite, List.reverse_concat, List.findSome?_cons]
  cases w e <;> rfl

/-- An operation that does not write the cell leaves its last write in force. -/
theorem lastWrite_concat_none {w : ε → Option β} {e : ε} (h : w e = none) (b : β) (es : List ε) :
    lastWrite w b (es ++ [e]) = lastWrite w b es := by
  rw [lastWrite_concat, h, Option.getD_none]

/-- When each operation does to a cell what it says it writes, the cell holds the
last write after any number of them. -/
theorem foldl_lastWrite (get : σ → β) {exec : σ → ε → σ} {w : ε → Option β}
    (h : ∀ s e, get (exec s e) = (w e).getD (get s)) (es : List ε) (s : σ) :
    get (es.foldl exec s) = lastWrite w (get s) es := by
  induction es using List.reverseRecOn with
  | nil => rfl
  | append_singleton es e ih =>
    rw [List.foldl_append, List.foldl_cons, List.foldl_nil, h, ih, lastWrite_concat]

end Dmos.Lib
