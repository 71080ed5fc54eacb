import Dmos.Schedule
import Dmos.Proofs.Scan

namespace Dmos.Proofs.IdleSchedule
open Schedule

/-- The trap frame at `sp` once the switch is made. -/
def frameAfter : Switch → TrapFrame → TrapFrame
  | .el ctx, _ => ctx
  | .none, f => f
  | .context _ _, f => f

/-- No created task but `curr` could be switched to. -/
def OthersRunning (s : Sys) (curr : Nat) : Prop :=
  ∀ t < s.kernel.taskCount, t ≠ curr → (s.kernel.taskList t).state = .running

instance (s : Sys) (curr : Nat) : Decidable (OthersRunning s curr) :=
  inferInstanceAs (Decidable (∀ t < s.kernel.taskCount, t ≠ curr → _))

/-- A call of `_schedule` on core `c` that changed nothing. -/
structure Kept (s : Sys) (c : Nat) (f : TrapFrame) (s' : Sys) (w : Switch) : Prop where
  switch : w = .none
  states : ∀ t, (s'.kernel.taskList t).state = (s.kernel.taskList t).state
  current : s'.current c = s.current c
  frame : frameAfter w f = f

section Cases

variable {cpuAt : Word → Option Nat} {smp c curr : Nat} {s s' : Sys} {sp : Sp} {w : Switch}

/-- The switch is an annotation of `_schedule`. -/
theorem scheduleSwitch_fst (cpuAt : Word → Option Nat) (smp : Nat) (s : Sys) (c : Nat) (sp : Sp) :
    (s._scheduleSwitch cpuAt smp c sp).map Prod.fst = s._schedule cpuAt smp c sp := by
  unfold Sys._scheduleSwitch Sys._schedule
  by_cases hcount : s.kernel.taskCount = smp
  · rw [if_pos hcount, if_pos hcount]
    rfl
  rw [if_neg hcount, if_neg hcount]
  cases s.current c with
  | none => rfl
  | some curr =>
    cases hcs : s.kernel.criticalSection curr with
    | none => simp [hcs]
    | some r =>
      obtain ⟨k, stored, next⟩ := r
      simp only [Option.bind_eq_bind, Option.bind_some, hcs]
      by_cases hnext : next = 2 ^ 32 - 1
      · rw [if_pos hnext, if_pos hnext]
        rfl
      · rw [if_neg hnext, if_neg hnext]
        cases sp with
        | frame => exact Option.map_map _ _ _
        | null regs => rfl

/-- The two early returns. -/
theorem scheduleSwitch_returns (hcur : s.current c = some curr)
    (h : s.kernel.taskCount = smp ∨ s.kernel.taskCount = 1) :
    s._scheduleSwitch cpuAt smp c sp = some (s, .none) := by
  unfold Sys._scheduleSwitch
  by_cases hcount : s.kernel.taskCount = smp
  · rw [if_pos hcount]
  · have hone : s.kernel.taskCount = 1 := h.resolve_left hcount
    have hcs : s.kernel.criticalSection curr = some (s.kernel, none, 2 ^ 32 - 1) := by
      simp only [Kernel.criticalSection, Scan.scan_none _ _ hone.le]
    have hsame : Function.update s.current c (some curr) = s.current := by
      rw [← hcur, Function.update_eq_self]
    rw [if_neg hcount]
    simp [hcur, hcs, hsame]

/-- What the critical section leaves in `next_task_id` with two tasks or more. -/
theorem criticalSection_next {k k' : Kernel} {stored : Option Nat} {next : Nat}
    (hc : 1 < k.taskCount) (h : k.criticalSection curr = some (k', stored, next)) :
    next < k.taskCount := by
  have hlt := Scan.scan_lt k (k.taskList curr).id hc
  simp only [Kernel.criticalSection] at h
  cases hscan : k.scan (k.taskList curr).id with
  | mk n found =>
    rw [hscan] at h hlt
    cases found with
    | false =>
      obtain ⟨-, -, rfl⟩ : k = k' ∧ none = stored ∧ n = next := by simpa using h
      exact hlt
    | true =>
      simp only at h
      split at h
      · obtain ⟨-, -, rfl⟩ : _ ∧ some n = stored ∧ n = next := by simpa using h
        exact hlt
      · cases h

/-- Past them a switch is made, whether or not the search found a task: the test for
`-1` sees the last candidate tried. -/
theorem scheduleSwitch_switches (hsmp : s.kernel.taskCount ≠ smp) (hc : 1 < s.kernel.taskCount)
    (hb : s.kernel.taskCount < 2 ^ 32)
    (h : s._scheduleSwitch cpuAt smp c sp = some (s', w)) : w ≠ .none := by
  unfold Sys._scheduleSwitch at h
  rw [if_neg hsmp] at h
  simp only [Option.bind_eq_bind, Option.bind_eq_some_iff] at h
  obtain ⟨curr, -, ⟨k, stored, next⟩, hcs, h⟩ := h
  have hlt := criticalSection_next hc hcs
  have hnext : next ≠ 2 ^ 32 - 1 := by omega
  rw [if_neg hnext] at h
  cases sp with
  | frame =>
    obtain ⟨ctx, -, he⟩ := Option.map_eq_some_iff.mp h
    obtain ⟨-, rfl⟩ := Prod.mk.inj he
    exact Switch.noConfusion
  | null regs =>
    obtain ⟨-, rfl⟩ := Prod.mk.inj (Option.some.inj h)
    exact Switch.noConfusion

end Cases

/-- A call that finds no other task to run changes nothing exactly when it returns
before the search or there is nothing to search. -/
theorem idle_schedule_iff (cpuAt : Word → Option Nat) (smp : Nat) (s : Sys) (c curr : Nat)
    (hcur : s.current c = some curr) (hc : 1 ≤ s.kernel.taskCount)
    (hb : s.kernel.taskCount < 2 ^ 32) (sp : Sp) (f : TrapFrame) :
    (OthersRunning s curr →
      ∃ s' w, s._scheduleSwitch cpuAt smp c sp = some (s', w) ∧ Kept s c f s' w) ↔
    (s.kernel.taskCount = smp ∨ s.kernel.taskCount = 1 ∨
      ∃ t < s.kernel.taskCount, t ≠ curr ∧ (s.kernel.taskList t).state ≠ .running) := by
  constructor
  · intro h
    by_cases hidle : OthersRunning s curr
    · obtain ⟨s', w, hs, hkept⟩ := h hidle
      by_cases hsmp : s.kernel.taskCount = smp
      · exact .inl hsmp
      · by_cases hone : s.kernel.taskCount = 1
        · exact .inr (.inl hone)
        · exact absurd hkept.switch (scheduleSwitch_switches hsmp (by omega) hb hs)
    · refine .inr (.inr ?_)
      simpa [OthersRunning] using hidle
  · intro h hidle
    have hreturn : s.kernel.taskCount = smp ∨ s.kernel.taskCount = 1 := by
      rcases h with h | h | ⟨t, ht, hne, hw⟩
      · exact .inl h
      · exact .inr h
      · exact absurd (hidle t ht hne) hw
    exact ⟨s, .none, scheduleSwitch_returns hcur hreturn, ⟨rfl, fun _ => rfl, rfl, rfl⟩⟩

/-- The machine once `main_entry` has created its two tasks, however many cores
there are. -/
def mainEntry (smp : Nat) : Sys :=
  booted smp [(0x80000000, 0x80004000), (0x90000000, 0x90004000)]

theorem idle_schedule_iff_two_cores :
    OthersRunning (mainEntry 2) 0 ∧
    ∃ s' w, (mainEntry 2)._scheduleSwitch (fun _ => none) 2 0 .frame = some (s', w) ∧
      Kept (mainEntry 2) 0 TrapFrame.zero s' w := by
  have hidle : OthersRunning (mainEntry 2) 0 := by decide +kernel
  refine ⟨hidle, ?_⟩
  exact (idle_schedule_iff _ 2 _ 0 0 (by decide +kernel) (by decide +kernel) (by decide +kernel)
    .frame _).mpr (.inl (by decide +kernel)) hidle

/-- With three cores the slice of task 0 ends on core 0 while task 1 runs on core 1:
the context of task 1 goes over the trap frame. -/
theorem running_task_switched_to :
    (mainEntry 3).current 0 = some 0 ∧ (mainEntry 3).current 1 = some 1 ∧
    OthersRunning (mainEntry 3) 0 ∧
    ((mainEntry 3)._scheduleSwitch (fun _ => none) 3 0 .frame).map
      (fun r => (frameAfter r.2 TrapFrame.zero).elr) = some 0x90000000 ∧
    ¬ (OthersRunning (mainEntry 3) 0 →
      ∃ s' w, (mainEntry 3)._scheduleSwitch (fun _ => none) 3 0 .frame = some (s', w) ∧
        Kept (mainEntry 3) 0 TrapFrame.zero s' w) := by
  have hidle : OthersRunning (mainEntry 3) 0 := by decide +kernel
  have helr : ((mainEntry 3)._scheduleSwitch (fun _ => none) 3 0 .frame).map
      (fun r => (frameAfter r.2 TrapFrame.zero).elr) = some 0x90000000 := by decide +kernel
  refine ⟨by decide +kernel, by decide +kernel, hidle, helr, fun h => ?_⟩
  obtain ⟨s', w, hs, hkept⟩ := h hidle
  rw [hs, Option.map_some, hkept.frame] at helr
  exact absurd helr (by decide)

end Dmos.Proofs.IdleSchedule
