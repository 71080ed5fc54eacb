import Dmos.Proofs.Exclusion

namespace Dmos.Proofs.Handoff
open Smp Scan Boot Steps Exclusion

variable {smp : Nat} {s : State} {tasks : List (Word × Word)}

/-- No two cores have the same `current_thread`. -/
def NoShare (smp : Nat) (s : State) : Prop :=
  ∀ c < smp, ∀ d < smp, ∀ t, (s.core c).current = some t → (s.core d).current = some t → c = d

/-- Before any `schedule_init_local` nothing is running and all boot tasks are
reserved. -/
theorem handoff_inv (X : Nat → Prop) (hfit : smp ≤ (handoff tasks).kernel.taskCount) :
    Inv X smp (handoff tasks) := by
  have hl := handoff_listed tasks
  refine ⟨hl.toCreated, hfit, ?_, ?_, ?_, ?_, ?_, ?_, ?_, ?_⟩
  · intro c _
    simp [handoff, LocalsAgree]
  · intro c _ hp
    simp [handoff] at hp
  · intro c _ hp
    simp [handoff] at hp
  · intro t ht hr
    rw [hl.waiting t ht] at hr
    cases hr
  · intro c _ t _ hr
    exact absurd rfl hr.1
  · intro c _ d _ t _ ht
    simp [handoff] at ht
  · intro c _ t hp
    simp [handoff] at hp
  · intro c _ _ _ d _
    simp [handoff]

/-- In a run whose scans leave the boot tasks of unfinished cores alone, the
hand-off is race-free. -/
theorem undisturbed_run (hfit : smp ≤ (handoff tasks).kernel.taskCount) (es : List Event)
    (hu : Lib.Along (State.step smp) (Undisturbed (fun _ => True) smp) (handoff tasks) es) :
    ∃ s, Lib.run (State.step smp) (handoff tasks) es = some s ∧ NoShare smp s := by
  obtain ⟨s, hrun, hi⟩ := Lib.run_invariant (fun _ e hi hc => hi.step e hc) es _ (handoff_inv _ hfit) hu
  exact ⟨s, hrun, fun c hc d hd t => hi.exclusive c hc d hd t trivial⟩

/-- With as many tasks as cores `_schedule` returns at once, so there is no scan
that could take a boot task. -/
theorem equal_counts_undisturbed (heq : (handoff tasks).kernel.taskCount = smp) (es : List Event) :
    Lib.Along (State.step smp) (Undisturbed (fun _ => True) smp) (handoff tasks) es := by
  have hcond : ∀ s e, (Inv (fun _ => True) smp s ∧ s.kernel.taskCount = smp) → Undisturbed (fun _ => True) smp s e := by
    rintro s e ⟨hi, ht⟩ c curr rfl hc hp
    have := hi.surplus c hc curr hp
    omega
  refine Lib.Along.of_invariant hcond ?_ es _ ⟨handoff_inv _ (Nat.le_of_eq heq.symm), heq⟩
  rintro s e s' hi hs
  obtain ⟨t, ht, hi'⟩ := hi.1.step e (hcond s e hi)
  have hst : s' = t := Option.some.inj (hs.symm.trans ht)
  exact ⟨hst ▸ hi', (step_taskCount hs).trans hi.2⟩

/-- One timer interrupt on core 0, up to the test of the counter. -/
def trapEvents : List Event := [.irq 0 waitFrame, .advance 0]

def tickEvents : List Event := trapEvents ++ [.advance 0]

/-- Core 0 has finished `schedule_init_local` and no other core has begun; the
slice of task 0 has `n` ticks left. -/
structure Solo (T n : Nat) (s : State) : Prop extends Created s.kernel where
  count : s.kernel.taskCount = T
  pc : (s.core 0).pc = .user
  current : (s.core 0).current = some 0
  counter : (s.kernel.taskList 0).counter = n
  others : ∀ c, c ≠ 0 → (s.core c).pc = .boot
  waiting : ∀ t < T, t ≠ 0 → (s.kernel.taskList t).state = .waiting
  unlocked : s.printLock = none

variable {T n : Nat}

theorem canTrap_waitFrame (s : State) (h : (s.core 0).pc = .user) :
    s.canTrap 0 waitFrame = true := by
  have : waitFrame.spsr &&& 15#64 = spsrEl1El1h := by decide
  simp [State.canTrap, h, this]

/-- The first two steps of a tick, whatever the counter: the context is saved
and the counter goes down. -/
theorem Solo.trap (h : Solo T n s) (h0 : 0 < smp) (hT : 0 < T) (hn : 0 < n) (hb : n < 2 ^ 32) :
    ∃ s', Lib.run (State.step smp) s trapEvents = some s' ∧
      Created s'.kernel ∧ s'.kernel.taskCount = T ∧ (s'.core 0).pc = .ticked 0 ∧
      (s'.core 0).current = some 0 ∧ (s'.kernel.taskList 0).counter = n - 1 ∧
      (∀ c, c ≠ 0 → (s'.core c).pc = .boot) ∧
      (∀ t < T, t ≠ 0 → (s'.kernel.taskList t).state = .waiting) ∧ s'.printLock = none := by
  have hcpu := h.cpuInfo 0 (by rw [h.count]; exact hT)
  refine ⟨(s.withKernel ((s.kernel.setCtx 0 waitFrame).decCounter 0)).setCore 0
    { s.core 0 with pc := .ticked 0, frame := waitFrame }, ?_, ?_, ?_⟩
  · simp [trapEvents, Lib.run_cons, State.step, h0, State.irq, canTrap_waitFrame s h.pc, h.current,
      Kernel.saveCpuCtx, hcpu, State.advance, State.setCore, State.withKernel]
  · exact h.toCreated.congr rfl (by simp [Kernel.decCounter]) (by simp [Kernel.decCounter])
  · refine ⟨h.count, by simp, by simp [h.current], ?_, ?_, ?_, h.unlocked⟩
    · simp [Kernel.decCounter, h.counter]
      omega
    · intro c hc
      simp [hc, h.others c hc]
    · intro t ht htz
      simpa [Kernel.decCounter] using h.waiting t ht htz

/-- A tick that is not the last of the slice. -/
theorem Solo.tick (h : Solo T (n + 2) s) (h0 : 0 < smp) (hT : 0 < T) (hb : n + 2 < 2 ^ 32) :
    ∃ s', Lib.run (State.step smp) s tickEvents = some s' ∧ Solo T (n + 1) s' := by
  obtain ⟨t, hrun, hcr, hc, hp, hcur, hn, ho, hw, hl⟩ := h.trap h0 hT (by omega) hb
  refine ⟨t.setCore 0 { t.core 0 with pc := .user }, ?_, ?_⟩
  · refine Lib.run_append_some hrun ?_
    simp [Lib.run_cons, State.step, h0, State.advance, hp, State.tickTest, hn]
  · refine ⟨hcr, hc, by simp, by simp [hcur], by simpa using hn, ?_, hw, hl⟩
    intro c hc
    simp [hc, ho c hc]

/-- The whole slice but its last tick. -/
theorem Solo.ticks (h0 : 0 < smp) (hT : 0 < T) (m : Nat) :
    ∀ s, Solo T (m + 1) s → m + 1 < 2 ^ 32 →
      ∃ s', Lib.run (State.step smp) s (List.replicate m tickEvents).flatten = some s' ∧
        Solo T 1 s' := by
  induction m with
  | zero => intro s h _; exact ⟨s, rfl, h⟩
  | succ m ih =>
    intro s h hb
    obtain ⟨t, ht, hs⟩ := h.tick h0 hT hb
    obtain ⟨u, hu, hsu⟩ := ih t hs (by omega)
    refine ⟨u, ?_, hsu⟩
    rw [List.replicate_succ, List.flatten_cons]
    exact Lib.run_append_some ht hu

/-- The last tick of the slice takes task 1, which core 1 is about to adopt. -/
theorem Solo.steal (h : Solo T 1 s) (hsmp : 2 ≤ smp) (hT : smp < T) :
    ∃ s', Lib.run (State.step smp) s (tickEvents ++ [.advance 0, .advance 1]) = some s' ∧
      ¬ NoShare smp s' := by
  obtain ⟨t, hrun, hcr, hc, hp, hcur, hn, ho, hw, hl⟩ :=
    h.trap (show 0 < smp by omega) (by omega) (by omega) (by omega)
  have hbound := hcr.bounded
  have hid := hcr.id 0 (by omega)
  -- the first candidate of the scan is already a waiting task
  have hscan : (t.kernel.setCounter 0 sysTaskTick).scan 0 = (1, true) := by
    obtain ⟨m, hm⟩ : ∃ m, t.kernel.taskCount - 1 = m + 1 := ⟨t.kernel.taskCount - 2, by omega⟩
    have hone : 1 % t.kernel.taskCount = 1 := Nat.mod_eq_of_lt (by omega)
    simp [Kernel.scan, hm, Kernel.scanFrom, hone, hw 1 (by omega) (by omega)]
  let x : Core := { t.core 0 with pc := .picked 0 1, current := some 1 }
  let y : Core := { t.core 1 with pc := .adopted, current := some 1 }
  let k := ((t.kernel.setCounter 0 sysTaskTick).setState 0 .waiting).setState 1 .running
  refine ⟨{ ((t.withKernel k).setCore 0 x).setCore 1 y with printLock := some 1 }, ?_, ?_⟩
  · rw [tickEvents, List.append_assoc]
    refine Lib.run_append_some hrun ?_
    have hne : t.kernel.taskCount ≠ smp := by omega
    have hz : 0 < maxTasks := by decide
    have h0 : 0 < smp := by omega
    have h1 : 1 < smp := by omega
    simp [Lib.run_cons, State.step, h0, h1, State.advance, hp, State.tickTest, hn, hne,
      State.pick, Kernel.criticalSection, hid, hscan, hz, ho 1, State.initLocalBegin, hl,
      State.withKernel, State.setCore, x, y, k]
  · intro hshare
    have := hshare 0 (by omega) 1 (by omega) 1 (by simp [x]) (by simp [y])
    omega

/-- Core 0 alone runs `schedule_init_local`, uses up the slice of task 0 and is
switched to task 1; then core 1 runs its `schedule_init_local`. -/
def raceEvents : List Event :=
  [.advance 0, .advance 0] ++ (List.replicate 19 tickEvents).flatten ++
    (tickEvents ++ [.advance 0, .advance 1])

/-- With a task to spare and a second core, that order of steps makes two cores
share a task. -/
theorem race (hsmp : 2 ≤ smp) (hT : smp < (handoff tasks).kernel.taskCount) :
    ∃ s, Lib.run (State.step smp) (handoff tasks) raceEvents = some s ∧ ¬ NoShare smp s := by
  have hl := handoff_listed tasks
  have hsolo : Solo (handoff tasks).kernel.taskCount 20 (started 1 tasks) := by
    obtain ⟨hc, _, hk⟩ := started_kernel 1 tasks
    refine ⟨hl.toCreated.congr hc (fun t => (hk t).1) (fun t => (hk t).2.1), hc,
      by simp [started], by simp [started], ?_, ?_, ?_, rfl⟩
    · rw [(hk 0).2.2.1, hl.counter 0 (by omega)]
      rfl
    · intro c hc
      simp [started, hc]
    · intro t ht htz
      rw [(hk t).2.2.2, if_neg (by omega)]
      exact hl.waiting t ht
  have hinit := run_initEvents smp tasks 1 (by omega) (by decide)
  obtain ⟨u, hu, hsu⟩ := Solo.ticks (show 0 < smp by omega) (by omega) 19 _ hsolo (by decide)
  obtain ⟨v, hv, hbad⟩ := hsu.steal hsmp hT
  exact ⟨v, Lib.run_append_some (Lib.run_append_some hinit hu) hv, hbad⟩

/-- The boot hand-off keeps the cores apart on every interleaving exactly when
there is one core or no task to spare; beyond that, in every run in which no
scan takes the boot task of a core still in or before `schedule_init_local`. -/
theorem handoff_race_free_iff (smp : Nat) (tasks : List (Word × Word)) (h1 : 1 ≤ smp)
    (hfit : smp ≤ (handoff tasks).kernel.taskCount) :
    ((∀ es s, Lib.run (State.step smp) (handoff tasks) es = some s → NoShare smp s) ↔
      smp = 1 ∨ (handoff tasks).kernel.taskCount = smp) ∧
    ∀ es, Lib.Along (State.step smp) (Undisturbed (fun _ => True) smp) (handoff tasks) es →
      ∃ s, Lib.run (State.step smp) (handoff tasks) es = some s ∧ NoShare smp s := by
  refine ⟨⟨?_, ?_⟩, fun es hu => undisturbed_run hfit es hu⟩
  · intro hall
    by_contra hc
    push Not at hc
    obtain ⟨s, hrun, hbad⟩ := race (show 2 ≤ smp by omega) (show smp < (handoff tasks).kernel.taskCount by omega)
    exact hbad (hall _ s hrun)
  · rintro (rfl | heq) es s hrun
    · intro c hc d hd _ _ _
      omega
    · obtain ⟨t, ht, hn⟩ := undisturbed_run hfit es (equal_counts_undisturbed heq es)
      exact Option.some.inj (hrun.symm.trans ht) ▸ hn

/-- Two cores and the two tasks of `main_entry`: the hand-off is race-free in any order. -/
theorem handoff_race_free_iff_main :
    (handoff mainTasks).kernel.taskCount = 2 ∧
      ∀ es s, Lib.run (State.step 2) (handoff mainTasks) es = some s → NoShare 2 s := by
  have hcount : (handoff mainTasks).kernel.taskCount = 2 := by decide
  have hfit : 2 ≤ (handoff mainTasks).kernel.taskCount := by omega
  exact ⟨hcount, (handoff_race_free_iff 2 mainTasks (by decide) hfit).1.mpr (.inr hcount)⟩

/-- Two cores and three tasks are enough for a clash. -/
theorem handoff_clash :
    ∃ s, Lib.run (State.step 2) (handoff threeTasks) raceEvents = some s ∧ ¬ NoShare 2 s :=
  race (by decide) (by decide)

end Dmos.Proofs.Handoff
