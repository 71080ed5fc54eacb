import Dmos.Proofs.Placement

namespace Dmos.Proofs.TimeSlice
open Schedule Boot Placement

/-- A counter that a tick may start with. -/
def InSlice (s : Sys) (t : Nat) : Prop :=
  1 ≤ (s.kernel.taskList t).counter ∧ (s.kernel.taskList t).counter ≤ sysTaskTick

instance (s : Sys) (t : Nat) : Decidable (InSlice s t) := inferInstanceAs (Decidable (_ ∧ _))

variable {cpuAt : Word → Option Nat} {smp c : Nat} {s s' : Sys}

/-- What a tick does: it ends with the decrement, or it renews the slice and goes on
to `_schedule`. -/
theorem tick_cases (h : s.timerTickSchedule cpuAt smp c = some s') :
    ∃ t, s.current c = some t ∧
      ((0 < ((s.kernel.decCounter t).taskList t).counter ∧
        s' = { s with kernel := s.kernel.decCounter t }) ∨
      (((s.kernel.decCounter t).taskList t).counter = 0 ∧
        Switched smp { s with kernel := (s.kernel.decCounter t).setCounter t sysTaskTick } c s')) := by
  simp only [Sys.timerTickSchedule, Option.bind_eq_bind, Option.bind_eq_some_iff] at h
  obtain ⟨t, ht, h⟩ := h
  refine ⟨t, ht, ?_⟩
  split at h
  · exact .inl ⟨‹_›, (Option.some.inj h).symm⟩
  · exact .inr ⟨by omega, schedule_cases h⟩

theorem Placed.tick_runs (h : Placed smp s) (hc : c < smp) (cpuAt : Word → Option Nat) :
    ∃ s', s.timerTickSchedule cpuAt smp c = some s' := by
  obtain ⟨t, -, hcur⟩ := h.owned c hc
  simp only [Sys.timerTickSchedule, hcur, Option.bind_eq_bind, Option.bind_some]
  split
  · exact ⟨_, rfl⟩
  · exact ((h.setCounter t _).setCounter t sysTaskTick).schedule_runs hc cpuAt

theorem Placed.tick (h : Placed smp s) (hc : c < smp)
    (hs : s.timerTickSchedule cpuAt smp c = some s') : Placed smp s' := by
  obtain ⟨t, -, ⟨-, rfl⟩ | ⟨-, hsw⟩⟩ := tick_cases hs
  · exact h.setCounter t _
  · exact ((h.setCounter t _).setCounter t sysTaskTick).switched hc hsw

/-- Calls that are not voluntary neither fault nor disturb the placement. -/
theorem Placed.step (h : Placed smp s) {e : Call} (hv : e.voluntary = false)
    (cpuAt : Word → Option Nat) :
    ∃ s', step cpuAt smp s e = some s' ∧ Placed smp s' := by
  cases e with
  | createTask f st => exact ⟨_, rfl, h.createTask f st⟩
  | timerTickSchedule d =>
    by_cases hd : d < smp
    · obtain ⟨s', hs⟩ := Placed.tick_runs h hd cpuAt
      exact ⟨s', by simp [Schedule.step, hd, hs], Placed.tick h hd hs⟩
    · exact ⟨s, by simp [Schedule.step, hd], h⟩
  | schedule d regs => simp [Call.voluntary] at hv

section Counter

variable (t : Nat)

theorem decCounter_self (h : InSlice s t) :
    ((s.kernel.decCounter t).taskList t).counter = (s.kernel.taskList t).counter - 1 := by
  obtain ⟨hlo, hhi⟩ := h
  simp only [sysTaskTick] at hhi
  simp only [Kernel.decCounter, Kernel.setCounter_counter, ↓reduceIte]
  omega

theorem decCounter_of_ne {u : Nat} (hu : u ≠ t) :
    ((s.kernel.decCounter t).taskList u).counter = (s.kernel.taskList u).counter := by
  simp [Kernel.decCounter, hu]

end Counter

/-- A tick keeps every task's slice, that of the current task included. -/
theorem InSlice.tick {u : Nat} (h : InSlice s u) (hs : s.timerTickSchedule cpuAt smp c = some s') :
    InSlice s' u := by
  obtain ⟨t, -, ⟨hpos, rfl⟩ | ⟨-, hsw⟩⟩ := tick_cases hs
  · by_cases hut : u = t
    · subst hut
      have hdec := decCounter_self u h
      rw [hdec] at hpos
      unfold InSlice at h ⊢
      simp only [hdec]
      omega
    · unfold InSlice at h ⊢
      simpa only [decCounter_of_ne t hut] using h
  · unfold InSlice at h ⊢
    rw [hsw.counter, Kernel.setCounter_counter]
    split
    · exact ⟨by decide, Nat.le_refl _⟩
    · rename_i hut
      rwa [decCounter_of_ne t hut]

/-- Every created task has part of its slice left. -/
def Fresh (s : Sys) : Prop := ∀ t < s.kernel.taskCount, InSlice s t

theorem Fresh.createTask (h : Fresh s) (f st : Word) :
    Fresh { s with kernel := s.kernel.createTask f st } := by
  by_cases hfull : maxTasks ≤ s.kernel.taskCount
  · rw [createTask_full hfull]
    exact h
  intro t ht
  have htc : t < (s.kernel.createTask f st).taskCount := ht
  rw [createTask_taskCount hfull] at htc
  unfold InSlice
  simp only [createTask_taskList hfull]
  split
  · exact ⟨Nat.le_of_ble_eq_true rfl, Nat.le_refl _⟩
  · exact h t (by omega)

theorem Fresh.step (h : Fresh s) {e : Call} (hv : e.voluntary = false)
    (hs : step cpuAt smp s e = some s') : Fresh s' := by
  cases e with
  | createTask f st =>
    cases hs
    exact h.createTask f st
  | timerTickSchedule d =>
    simp only [Schedule.step] at hs
    split at hs
    · intro t ht
      refine InSlice.tick (h t ?_) hs
      obtain ⟨u, -, ⟨-, rfl⟩ | ⟨-, hsw⟩⟩ := tick_cases hs
      · exact ht
      · rwa [hsw.taskCount] at ht
    · cases hs
      exact h
  | schedule d regs => simp [Call.voluntary] at hv

/-- While the current task of `c` waits for its slice to end, only a tick of `c`
itself touches the slice, and takes one from it. -/
theorem step_slice (hp : Placed smp s) (hf : Fresh s) (hc : c < smp) {t : Nat}
    (hcur : s.current c = some t) {e : Call} (hv : e.voluntary = false)
    (hne : entersSchedule c s e = false) (hs : step cpuAt smp s e = some s') :
    s'.current c = some t ∧ (s'.kernel.taskList t).counter + (if e.ticks c then 1 else 0) =
      (s.kernel.taskList t).counter := by
  obtain ⟨t', ht, hcur'⟩ := hp.owned c hc
  obtain rfl : t' = t := Option.some.inj (hcur'.symm.trans hcur)
  have hslice := hf t' ht
  cases e with
  | createTask f st =>
    cases hs
    refine ⟨hcur, ?_⟩
    by_cases hfull : maxTasks ≤ s.kernel.taskCount
    · simp [createTask_full hfull, Call.ticks]
    · have hold : t' ≠ s.kernel.taskCount := by omega
      simp [createTask_taskList hfull, Call.ticks, hold]
  | timerTickSchedule d =>
    by_cases hdc : d = c
    · subst hdc
      simp only [entersSchedule, beq_self_eq_true, hcur, Bool.true_and, beq_eq_false_iff_ne] at hne
      simp only [Schedule.step, hc, ↓reduceIte] at hs
      obtain ⟨u, hu, ⟨-, rfl⟩ | ⟨hzero, -⟩⟩ := tick_cases hs
      · obtain rfl : u = t' := Option.some.inj (hu.symm.trans hcur)
        have hdec := decCounter_self u hslice
        have hpos := hslice.1
        refine ⟨hcur, ?_⟩
        simp only [Call.ticks, beq_self_eq_true, ↓reduceIte, hdec]
        omega
      · obtain rfl : u = t' := Option.some.inj (hu.symm.trans hcur)
        exact absurd hzero hne
    · -- another core has another task
      have htick : Call.ticks c (.timerTickSchedule d) = false := by simp [Call.ticks, hdc]
      simp only [htick, Bool.false_eq_true, ↓reduceIte, Nat.add_zero]
      simp only [Schedule.step] at hs
      split at hs
      · rename_i hd
        obtain ⟨u, hu, hcase⟩ := tick_cases hs
        have htu : t' ≠ u := by
          rintro rfl
          exact hdc (hp.exclusive d hd c hc t' hu hcur)
        rcases hcase with ⟨-, rfl⟩ | ⟨-, hsw⟩
        · exact ⟨hcur, decCounter_of_ne u htu⟩
        · refine ⟨(hsw.current_of_ne (Ne.symm hdc)).trans hcur, ?_⟩
          rw [hsw.counter, Kernel.setCounter_counter, if_neg htu]
          exact decCounter_of_ne u htu
      · cases hs
        exact ⟨hcur, rfl⟩
  | schedule d regs => simp [Call.voluntary] at hv

/-- Some call of the run enters `_schedule` on core `c`. -/
def Entered (cpuAt : Word → Option Nat) (smp c : Nat) (s : Sys) (es : List Call) : Prop :=
  ∃ pre e post m, es = pre ++ e :: post ∧ Lib.run (step cpuAt smp) s pre = some m ∧
    entersSchedule c m e = true

/-- `entersSchedule` is the branch of `timer_tick_schedule` that calls `_schedule`; the
other one returns after the decrement. -/
theorem tick_calls {t : Nat} (hcur : s.current c = some t) :
    s.timerTickSchedule cpuAt smp c =
      if entersSchedule c s (.timerTickSchedule c) = true then
        Sys._schedule cpuAt smp
          { s with kernel := (s.kernel.decCounter t).setCounter t sysTaskTick } c .frame
      else some { s with kernel := s.kernel.decCounter t } := by
  simp only [Sys.timerTickSchedule, hcur, Option.bind_eq_bind, Option.bind_some, entersSchedule,
    beq_self_eq_true, Bool.true_and, beq_iff_eq]
  split
  · rw [if_neg (by omega)]
  · rw [if_pos (by omega)]

/-- A call that enters `_schedule` on a core that has a task ends in that very call. -/
theorem step_enters (hc : c < smp) {t : Nat} (hcur : s.current c = some t) {e : Call}
    (he : entersSchedule c s e = true) :
    ∃ k sp, step cpuAt smp s e = Sys._schedule cpuAt smp { s with kernel := k } c sp := by
  cases e with
  | createTask f st => cases he
  | timerTickSchedule d =>
    obtain rfl : d = c := by
      simp only [entersSchedule, Bool.and_eq_true, beq_iff_eq] at he
      exact he.1
    exact ⟨_, .frame, by rw [Schedule.step, if_pos hc, tick_calls hcur, if_pos he]⟩
  | schedule d regs =>
    obtain rfl : d = c := by simpa [entersSchedule] using he
    exact ⟨s.kernel.setCounter t 0, .null regs, by
      simp [Schedule.step, hc, Sys.schedule, hcur]⟩

/-- Where a run enters `_schedule`, every core having its task, a call of it is made. -/
theorem Entered.calls (hc : c < smp) (hp : Placed smp s) {es : List Call}
    (hv : ∀ e ∈ es, e.voluntary = false) (h : Entered cpuAt smp c s es) :
    ∃ pre e m k sp, (pre ++ [e]).IsPrefix es ∧ Lib.run (step cpuAt smp) s pre = some m ∧
      step cpuAt smp m e = Sys._schedule cpuAt smp { m with kernel := k } c sp := by
  obtain ⟨pre, e, post, m, rfl, hm, he⟩ := h
  have hpm : Placed smp m := Lib.run_keeps (fun s e s' hp hve hs => by
      obtain ⟨u, hu, hp'⟩ := Placed.step hp hve cpuAt
      exact Option.some.inj (hu.symm.trans hs) ▸ hp')
    pre s m hp (Lib.Along.of_events (fun e he => hv e (by simp [he])) s) hm
  obtain ⟨t, -, hcur⟩ := hpm.owned c hc
  obtain ⟨k, sp, hs⟩ := step_enters hc hcur he
  exact ⟨pre, e, m, k, sp, ⟨post, by simp⟩, hm, hs⟩

theorem not_entered {es : List Call}
    (h : Lib.alongB (step cpuAt smp) (fun s e => !entersSchedule c s e) s es = true) :
    ¬ Entered cpuAt smp c s es := by
  rintro ⟨pre, e, post, m, rfl, hm, he⟩
  have halong := Lib.Along.of_alongB (C := fun s e => entersSchedule c s e = false)
    (fun s e h => by simpa using h) _ s h
  rw [(Lib.along_iff _ s).mp halong pre e post m rfl hm] at he
  cases he

/-- As many ticks as the current task has left lead into `_schedule`. -/
theorem entered_of_ticks (hc : c < smp) {t : Nat} (es : List Call) (s : Sys) (hp : Placed smp s)
    (hf : Fresh s) (hcur : s.current c = some t) (hv : ∀ e ∈ es, e.voluntary = false)
    (hn : (s.kernel.taskList t).counter ≤ es.countP (Call.ticks c)) :
    Entered cpuAt smp c s es := by
  induction es generalizing s with
  | nil =>
    obtain ⟨t', ht, hcur'⟩ := hp.owned c hc
    obtain rfl : t' = t := Option.some.inj (hcur'.symm.trans hcur)
    have hpos := (hf t' ht).1
    simp only [List.countP_nil] at hn
    omega
  | cons e es ih =>
    have hve := hv e List.mem_cons_self
    cases hent : entersSchedule c s e with
    | true => exact ⟨[], e, es, s, rfl, rfl, hent⟩
    | false =>
      obtain ⟨s', hs, hp'⟩ := Placed.step hp hve cpuAt
      have hf' := Fresh.step hf hve hs
      obtain ⟨hcur₁, hleft⟩ := step_slice hp hf hc hcur hve hent hs
      rw [List.countP_cons] at hn
      obtain ⟨pre, f, post, m, rfl, hm, hf⟩ := ih s' hp' hf' hcur₁
        (fun e' he' => hv e' (List.mem_cons_of_mem e he')) (by omega)
      refine ⟨e :: pre, f, post, m, rfl, ?_, hf⟩
      rw [Lib.run_cons, hs]
      exact hm

theorem fresh_booted (smp : Nat) (tasks : List (Word × Word)) : Fresh (booted smp tasks) := by
  obtain ⟨hcount, htask, -⟩ := booted_spec tasks smp
  intro t ht
  rw [hcount] at ht
  unfold InSlice
  rw [(htask t).2.2.1, (handoff_listed tasks).counter t ht]
  exact ⟨by decide, Nat.le_refl _⟩

/-- In every run without a voluntary `schedule()`, a created task that is a core's
`current_thread` has between 1 and `SYS_TASK_TICK` ticks left; and, every core's boot
task having been created, the run meets no fault and from its end on any
`SYS_TASK_TICK` ticks of a core lead into `_schedule` on that core. -/
theorem slice_bounded (cpuAt : Word → Option Nat) (smp : Nat) (tasks : List (Word × Word))
    (es : List Call) (hv : ∀ e ∈ es, e.voluntary = false) :
    (∀ s, Lib.run (step cpuAt smp) (booted smp tasks) es = some s → ∀ c < smp, ∀ t,
      s.current c = some t → t < s.kernel.taskCount → InSlice s t) ∧
    (smp ≤ min tasks.length maxTasks →
      ∃ s, Lib.run (step cpuAt smp) (booted smp tasks) es = some s ∧
        ∀ c < smp, ∀ fs : List Call, (∀ e ∈ fs, e.voluntary = false) →
          sysTaskTick ≤ fs.countP (Call.ticks c) → Entered cpuAt smp c s fs) := by
  constructor
  · intro s hs c _ t _ ht
    have hfresh : Fresh s := Lib.run_keeps (fun _ _ _ h hve hst => Fresh.step h hve hst) es _ s
      (fresh_booted smp tasks) (Lib.Along.of_events hv _) hs
    exact hfresh t ht
  · intro hfits
    obtain ⟨s, hs, hplaced, hfresh⟩ : ∃ s, Lib.run (step cpuAt smp) (booted smp tasks) es = some s ∧
        Placed smp s ∧ Fresh s := Lib.run_invariant (I := fun s => Placed smp s ∧ Fresh s)
      (fun s e h hve => by
        obtain ⟨s', hst, hp⟩ := Placed.step h.1 hve cpuAt
        exact ⟨s', hst, hp, Fresh.step h.2 hve hst⟩)
      es _ ⟨placed_booted tasks hfits, fresh_booted smp tasks⟩ (Lib.Along.of_events hv _)
    refine ⟨s, hs, ?_⟩
    intro c hc fs hvf hn
    obtain ⟨t, ht, hcur⟩ := hplaced.owned c hc
    exact entered_of_ticks hc fs s hplaced hfresh hcur hvf
      (Nat.le_trans (hfresh t ht).2 hn)

/-- The default configuration: one core and the two tasks of `main_entry`, the second
of which has been current for five ticks. -/
theorem slice_bounded_main : Entered (fun _ => none) 1 0
    ((Lib.run (step (fun _ => none) 1) (booted 1 [(0x80000000, 0x80004000), (0x90000000, 0x90004000)])
      (List.replicate 25 (.timerTickSchedule 0))).get (by decide +kernel))
    (List.replicate 20 (.timerTickSchedule 0)) := by
  obtain ⟨s, hs, h⟩ := (slice_bounded (fun _ => none) 1 [(0x80000000, 0x80004000), (0x90000000, 0x90004000)]
    (List.replicate 25 (.timerTickSchedule 0)) (by decide)).2 (by decide)
  simp only [hs, Option.get_some]
  exact h 0 (by decide) _ (by decide) (by decide)

/-- With as many tasks as cores `schedule()` returns at once and leaves the counter
at zero; the next tick takes it to `2 ^ 32 - 1`, and no tick of the next hundred
enters `_schedule`. -/
theorem yield_extends_slice :
    ∃ s, Lib.run (step (fun _ => none) 2)
        (booted 2 [(0x80000000, 0x80004000), (0x90000000, 0x90004000)])
        [.schedule 0 (fun _ => 0)] = some s ∧
      s.current 0 = some 0 ∧ 0 < s.kernel.taskCount ∧ ¬ InSlice s 0 ∧
      ¬ Entered (fun _ => none) 2 0 s (List.replicate 100 (.timerTickSchedule 0)) := by
  refine ⟨(Lib.run (step (fun _ => none) 2)
    (booted 2 [(0x80000000, 0x80004000), (0x90000000, 0x90004000)])
    [.schedule 0 (fun _ => 0)]).get (by decide +kernel), (Option.some_get _).symm, ?_, ?_, ?_, ?_⟩
  · decide +kernel
  · decide +kernel
  · decide +kernel
  · apply not_entered
    decide +kernel

end Dmos.Proofs.TimeSlice
