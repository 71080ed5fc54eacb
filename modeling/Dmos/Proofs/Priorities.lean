import Dmos.Vgic
import Dmos.Lib.Cells

namespace Dmos.Proofs.Priorities

open Dmos.Lib Gic Vgic

variable {g : Gic} {v : Nat}

inductive Op where
  | enableInt (v : Nat) (pri : BitVec 32)
  | inject (vector : BitVec 32)
  | handleTimerInterrupt
  deriving DecidableEq, Repr

namespace Op

def exec (g : Gic) : Op → Gic
  | .enableInt v pri => g.gicEnableInt v pri
  | .inject vector => vgicInject g vector
  | .handleTimerInterrupt => raisePriorities g

/-- The priority that a call is meant to give interrupt `v`. -/
def written (v : Nat) : Op → Option (BitVec 8)
  | .enableInt u pri => if u = v then some (((pri <<< 3) ||| (1#32 <<< 7)).setWidth 8) else none
  | .inject _ => none
  | .handleTimerInterrupt => none

/-- The calls that write whole words of priorities. -/
def juggles : Op → Bool
  | .enableInt _ _ => false
  | .inject _ => true
  | .handleTimerInterrupt => true

end Op

/-- The interrupts that share a word with 27 or 33. -/
def neighbours : List Nat := [24, 25, 26, 32, 34, 35]

theorem injectLoop_ipriorityr (w : BitVec 32) (is : List (Fin 4)) (g : Gic) (mask pri : BitVec 32) :
    (injectLoop w is g mask pri).ipriorityr = g.ipriorityr := by
  induction is generalizing g mask pri with
  | nil => rfl
  | cons i is ih =>
    unfold injectLoop
    split
    · rfl
    · dsimp only
      split
      · rw [ih]
        rfl
      · rw [ih]

/-- The two word writes that `vgic_inject` and `handle_timer_interrupt` make. -/
theorem juggled (g : Gic) {op : Op} (h : op.juggles = true) :
    ∃ pri : BitVec 32, (pri = 0xf8 ∨ pri = 0xf0) ∧ (op.exec g).ipriorityr =
      ((g.gicSetIpriority 6 (pri <<< 24)).gicSetIpriority 8 (pri <<< 8)).ipriorityr := by
  cases op with
  | enableInt u pri => cases h
  | inject vector => exact ⟨0xf8, .inl rfl, injectLoop_ipriorityr _ _ _ _ _⟩
  | handleTimerInterrupt => exact ⟨0xf0, .inr rfl, rfl⟩

theorem juggle_other (g : Gic) {op : Op} (h : op.juggles = true) (h6 : v / 4 ≠ 6) (h8 : v / 4 ≠ 8) :
    (op.exec g).ipriorityr v = g.ipriorityr v := by
  obtain ⟨pri, -, he⟩ := juggled g h
  simp only [he, gicSetIpriority, if_neg h6, if_neg h8]

/-- The other bytes of the two words are overwritten with zero. -/
theorem juggle_neighbour (g : Gic) {op : Op} (h : op.juggles = true) (hv : v ∈ neighbours) :
    (op.exec g).ipriorityr v = 0 := by
  obtain ⟨pri, hpri, he⟩ := juggled g h
  rw [he]
  simp only [neighbours, List.mem_cons, List.not_mem_nil, or_false] at hv
  rcases hpri with rfl | rfl
  · rcases hv with rfl | rfl | rfl | rfl | rfl | rfl <;> rfl
  · rcases hv with rfl | rfl | rfl | rfl | rfl | rfl <;> rfl

theorem writeIpriority_byte (g : Gic) (u : Nat) (b : BitVec 8) (hv : v < 1024) :
    (g.writeIpriority u b).ipriorityr v = if u = v then b else g.ipriorityr v := by
  unfold writeIpriority
  by_cases h : u = v
  · subst h
    simp [hv]
  · split <;> simp [Ne.symm h]

theorem writeIsenabler_ipriorityr (g : Gic) (reg : Nat) (mask : BitVec 32) :
    (g.writeIsenabler reg mask).ipriorityr = g.ipriorityr := by
  unfold writeIsenabler
  split
  · rfl
  · split <;> rfl

theorem enable_priority (g : Gic) (u : Nat) (pri : BitVec 32) (hv : v < 1024) :
    (Op.exec g (.enableInt u pri)).ipriorityr v =
      ((Op.enableInt u pri).written v).getD (g.ipriorityr v) := by
  rw [Op.exec, gicEnableInt, writeIpriority_byte _ _ _ hv, writeIsenabler_ipriorityr, Op.written]
  split <;> rfl

theorem juggle_written {op : Op} (h : op.juggles = true) (v : Nat) : op.written v = none := by
  cases op with
  | enableInt u pri => cases h
  | inject vector => rfl
  | handleTimerInterrupt => rfl

/-- An interrupt in one of the two words is 27, 33 or a neighbour. -/
theorem word_cases (h : v / 4 = 6 ∨ v / 4 = 8) : v = 27 ∨ v = 33 ∨ v ∈ neighbours := by
  simp only [neighbours, List.mem_cons, List.not_mem_nil, or_false]
  omega

/-- What the last `gic_enable_int` of interrupt `v` wrote, or the initial value. -/
def expected (g₀ : Gic) (ops : List Op) (v : Nat) : BitVec 8 :=
  lastWrite (Op.written v) (g₀.ipriorityr v) ops

/-- In every state of a run all priorities but those of 27 and 33 are the ones that
were asked for, exactly when no injection and no timer interrupt comes while a
neighbour of the two has a priority other than zero. -/
theorem priorities_kept_iff (g₀ : Gic) (ops : List Op) :
    (∀ pre, pre <+: ops → ∀ v < 1020, v ≠ 27 → v ≠ 33 →
      (pre.foldl Op.exec g₀).ipriorityr v = expected g₀ pre v) ↔
    ∀ pre op post, ops = pre ++ op :: post → op.juggles = true →
      ∀ v ∈ neighbours, expected g₀ pre v = 0 := by
  constructor
  · intro h pre op post heq hj v hv
    have hpre : pre ++ [op] <+: ops := ⟨post, by simp [heq]⟩
    have hlt : v < 1020 ∧ v ≠ 27 ∧ v ≠ 33 := by
      revert v
      decide
    have hkept := h (pre ++ [op]) hpre v hlt.1 hlt.2.1 hlt.2.2
    rw [List.foldl_append, List.foldl_cons, List.foldl_nil, juggle_neighbour _ hj hv, expected,
      lastWrite_concat_none (juggle_written hj v)] at hkept
    exact hkept.symm
  · intro h pre
    induction pre using List.reverseRecOn with
    | nil =>
      intro _ v _ _ _
      rfl
    | append_singleton pre op ih =>
      intro hpre v hv h27 h33
      obtain ⟨post, heq⟩ := hpre
      have hkept := ih ⟨op :: post, by simpa using heq⟩ v hv h27 h33
      rw [List.foldl_append, List.foldl_cons, List.foldl_nil]
      cases hj : op.juggles with
      | false =>
        cases op with
        | enableInt u pri =>
          rw [enable_priority _ u pri (by omega), hkept, expected, expected, lastWrite_concat]
        | inject vector => cases hj
        | handleTimerInterrupt => cases hj
      | true =>
        rw [expected, lastWrite_concat_none (juggle_written hj v)]
        by_cases hw : v / 4 = 6 ∨ v / 4 = 8
        · rcases word_cases hw with hv | hv | hv
          · exact absurd hv h27
          · exact absurd hv h33
          · rw [juggle_neighbour _ hj hv]
            exact (h pre op post (by simp [← heq]) hj v hv).symm
        · rw [juggle_other _ hj (fun h6 => hw (.inl h6)) (fun h8 => hw (.inr h8))]
          exact hkept

/-- Interrupt 26 is enabled, and then the timer interrupt is injected. -/
theorem neighbour_priority_lost :
    ¬ ∀ pre, pre <+: [Op.enableInt 26 0, .inject 27] → ∀ v < 1020, v ≠ 27 → v ≠ 33 →
      (pre.foldl Op.exec ⟨fun _ => 0, fun _ => 0, fun _ => 0⟩).ipriorityr v =
        expected ⟨fun _ => 0, fun _ => 0, fun _ => 0⟩ pre v := by
  intro h
  exact absurd (h _ List.prefix_rfl 26 (by decide) (by decide) (by decide)) (by decide)

end Dmos.Proofs.Priorities
