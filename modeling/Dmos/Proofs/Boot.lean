import Mathlib.Data.List.Induction
import Dmos.Smp

namespace Dmos.Proofs.Boot
open Smp

/-- The table as the boot core leaves it. -/
structure Created (k : Kernel) : Prop where
  bounded : k.taskCount ≤ maxTasks
  id : ∀ t < k.taskCount, (k.taskList t).id = t
  cpuInfo : ∀ t < k.taskCount, (k.taskList t).cpuInfo = some t

theorem Created.congr {k k' : Kernel} (h : Created k) (hc : k'.taskCount = k.taskCount)
    (hid : ∀ t, (k'.taskList t).id = (k.taskList t).id)
    (hcpu : ∀ t, (k'.taskList t).cpuInfo = (k.taskList t).cpuInfo) : Created k' where
  bounded := hc ▸ h.bounded
  id := fun t ht => (hid t).trans (h.id t (hc ▸ ht))
  cpuInfo := fun t ht => (hcpu t).trans (h.cpuInfo t (hc ▸ ht))

/-- The context `create_task` writes into an entry that was still zero. -/
def initialContext (taskFunc stackTop : Word) : TrapFrame :=
  ((TrapFrame.zero.setElr taskFunc).setSpsr spsrEl1User).setUsp stackTop

/-- The table after `create_task` ran over `tasks`: one entry a task, in order,
as far as the table reaches, and nothing behind the last one touched. -/
structure Listed (k : Kernel) (tasks : List (Word × Word)) : Prop extends Created k where
  count : k.taskCount = min tasks.length maxTasks
  waiting : ∀ t < k.taskCount, (k.taskList t).state = .waiting
  counter : ∀ t < k.taskCount, (k.taskList t).counter = sysTaskTick
  context : ∀ t (ht : t < tasks.length), t < k.taskCount →
    (k.cpuDec t).ctx = initialContext (tasks[t]).1 (tasks[t]).2
  untouched : ∀ t, k.taskCount ≤ t → (k.cpuDec t).ctx = TrapFrame.zero

theorem createTask_full {k : Kernel} (h : maxTasks ≤ k.taskCount) (f st : Word) :
    k.createTask f st = k := by
  simp [Kernel.createTask, h]

theorem createTask_taskCount {k : Kernel} (h : ¬ maxTasks ≤ k.taskCount) (f st : Word) :
    (k.createTask f st).taskCount = k.taskCount + 1 := by
  simp [Kernel.createTask, h, Kernel.modTask, Kernel.modCpu]

theorem createTask_taskList {k : Kernel} (h : ¬ maxTasks ≤ k.taskCount) (f st : Word) (t : Nat) :
    (k.createTask f st).taskList t =
      if t = k.taskCount then ⟨some t, .waiting, sysTaskTick, t⟩ else k.taskList t := by
  by_cases he : t = k.taskCount <;>
    simp [Kernel.createTask, h, Kernel.modTask, Kernel.modCpu, Kernel.setCounter, he]

theorem Created.createTask {k : Kernel} (h : Created k) (f st : Word) :
    Created (k.createTask f st) := by
  by_cases hfull : maxTasks ≤ k.taskCount
  · rw [createTask_full hfull]
    exact h
  have hcount := createTask_taskCount hfull f st
  refine ⟨by omega, ?_, ?_⟩
  · intro t ht
    rw [createTask_taskList hfull]
    split
    · rfl
    · exact h.id t (by omega)
  · intro t ht
    rw [createTask_taskList hfull]
    split
    · rfl
    · exact h.cpuInfo t (by omega)

theorem createTask_listed {k : Kernel} {tasks : List (Word × Word)} (h : Listed k tasks)
    (p : Word × Word) : Listed (k.createTask p.1 p.2) (tasks ++ [p]) := by
  have hcount := h.count
  by_cases hfull : maxTasks ≤ k.taskCount
  · rw [createTask_full hfull]
    refine ⟨h.toCreated, ?_, h.waiting, h.counter, ?_, h.untouched⟩
    · rw [hcount, List.length_append]
      have : maxTasks ≤ tasks.length := by omega
      simp only [List.length_singleton]
      omega
    · intro t ht hlt
      have hl : t < tasks.length := by omega
      rw [h.context t hl hlt, List.getElem_append_left hl]
  · have hlen : k.taskCount = tasks.length := by omega
    have hnew := createTask_taskCount hfull p.1 p.2
    have htask := createTask_taskList hfull p.1 p.2
    have hcpu : ∀ t, ((k.createTask p.1 p.2).cpuDec t).ctx =
        if t = k.taskCount then initialContext p.1 p.2 else (k.cpuDec t).ctx := by
      intro t
      by_cases he : t = k.taskCount
      · simp [Kernel.createTask, hfull, Kernel.modTask, Kernel.modCpu, he, initialContext,
          h.untouched k.taskCount (Nat.le_refl _)]
      · simp [Kernel.createTask, hfull, Kernel.modTask, Kernel.modCpu, he]
    refine ⟨h.toCreated.createTask p.1 p.2, ?_, ?_, ?_, ?_, ?_⟩
    · rw [hnew, List.length_append, List.length_singleton]
      omega
    · intro t ht
      rw [htask]
      split
      · rfl
      · exact h.waiting t (by omega)
    · intro t ht
      rw [htask]
      split
      · rfl
      · exact h.counter t (by omega)
    · intro t ht hlt
      rw [hcpu]
      split
      · rename_i he
        simp [he, hlen]
      · have hl : t < tasks.length := by omega
        rw [h.context t hl (by omega), List.getElem_append_left hl]
    · intro t ht
      rw [hcpu, if_neg (by omega)]
      exact h.untouched t (by omega)

/-- The boot core's table, for every list of tasks. -/
theorem handoff_listed (tasks : List (Word × Word)) : Listed (handoff tasks).kernel tasks := by
  induction tasks using List.reverseRecOn with
  | nil =>
    refine ⟨⟨by decide, ?_, ?_⟩, rfl, ?_, ?_, ?_, fun _ _ => rfl⟩
    all_goals intro t ht; exact absurd ht (Nat.not_lt_zero t)
  | append_singleton tasks p ih =>
    have he : (handoff (tasks ++ [p])).kernel = (handoff tasks).kernel.createTask p.1 p.2 := by
      simp [handoff, Kernel.createTasks]
    rw [he]
    exact createTask_listed ih p

/-- The state in which every core has completed `schedule_init_local`. Counters,
saved contexts and frames are left open. -/
structure Started (smp : Nat) (s : State) : Prop extends Created s.kernel where
  fits : smp ≤ s.kernel.taskCount
  idle : ∀ c < smp, (s.core c).pc = .user
  current : ∀ c < smp, (s.core c).current = some c
  running : ∀ t < s.kernel.taskCount, (s.kernel.taskList t).state = .running ↔ t < smp

/-- The outcome of `schedule_init_local` on the first `n` cores, none of them
having taken a timer interrupt meanwhile. -/
def started (n : Nat) (tasks : List (Word × Word)) : State where
  kernel := (List.range n).foldl (fun k c => k.setState c .running) (handoff tasks).kernel
  core := fun c => if c < n then ⟨.user, some c, TrapFrame.zero, true⟩
    else ⟨.boot, none, TrapFrame.zero, true⟩
  printLock := none

theorem started_succ (n : Nat) (tasks : List (Word × Word)) :
    (started (n + 1) tasks).kernel = (started n tasks).kernel.setState n .running := by
  simp [started, List.range_succ]

theorem started_kernel (n : Nat) (tasks : List (Word × Word)) :
    (started n tasks).kernel.taskCount = (handoff tasks).kernel.taskCount ∧
    (started n tasks).kernel.cpuDec = (handoff tasks).kernel.cpuDec ∧
    ∀ t, ((started n tasks).kernel.taskList t).id = ((handoff tasks).kernel.taskList t).id ∧
      ((started n tasks).kernel.taskList t).cpuInfo = ((handoff tasks).kernel.taskList t).cpuInfo ∧
      ((started n tasks).kernel.taskList t).counter = ((handoff tasks).kernel.taskList t).counter ∧
      ((started n tasks).kernel.taskList t).state =
        if t < n then .running else ((handoff tasks).kernel.taskList t).state := by
  induction n with
  | zero => simp [started]
  | succ n ih =>
    obtain ⟨hc, hd, hl⟩ := ih
    rw [started_succ]
    refine ⟨hc, hd, fun t => ?_⟩
    obtain ⟨h1, h2, h3, h4⟩ := hl t
    refine ⟨by simp [h1], by simp [h2], by simp [h3], ?_⟩
    simp only [Kernel.setState_state, h4]
    by_cases he : t = n
    · simp [he]
    · have : t < n + 1 ↔ t < n := by omega
      simp [he, this]

theorem started_started {n : Nat} {tasks : List (Word × Word)}
    (h : n ≤ (handoff tasks).kernel.taskCount) : Started n (started n tasks) := by
  obtain ⟨hc, _, hl⟩ := started_kernel n tasks
  have hlist := handoff_listed tasks
  refine ⟨hlist.toCreated.congr hc (fun t => (hl t).1) (fun t => (hl t).2.1), by omega,
    fun c hc => by simp [started, hc], fun c hc => by simp [started, hc], ?_⟩
  intro t ht
  rw [(hl t).2.2.2]
  by_cases htn : t < n
  · simp [htn]
  · simp [htn, hlist.waiting t (by omega)]

/-- Running `schedule_init_local` on one core after another, with no interrupt
in between, ends in `started`. -/
theorem run_initEvents (smp : Nat) (tasks : List (Word × Word)) (n : Nat) (hn : n ≤ smp)
    (hm : n ≤ maxTasks) :
    Lib.run (State.step smp) (handoff tasks) (initEvents n) = some (started n tasks) := by
  induction n with
  | zero => rfl
  | succ n ih =>
    refine Lib.run_append_some (ih (by omega) (by omega)) ?_
    have h1 : State.step smp (started n tasks) (.advance n) =
        some ((started n tasks).initLocalBegin n) := by
      simp [State.step, Nat.lt_of_succ_le hn, State.advance, started]
    have h2 : State.step smp ((started n tasks).initLocalBegin n) (.advance n) =
        some (started (n + 1) tasks) := by
      have hcore : (((started n tasks).initLocalBegin n).core n).pc = .adopted := by
        simp [State.initLocalBegin, started]
      simp only [State.step, Nat.lt_of_succ_le hn, ↓reduceIte, State.advance, hcore,
        State.initLocalEnd, Nat.lt_of_succ_le hm, Option.some.injEq]
      have hcores : Function.update (Function.update (started n tasks).core n
          ⟨.adopted, some n, TrapFrame.zero, true⟩) n ⟨.user, some n, TrapFrame.zero, true⟩ =
          (started (n + 1) tasks).core := by
        funext c
        by_cases he : c = n
        · simp [he, started]
        · have : c < n + 1 ↔ c < n := by omega
          rw [Function.update_of_ne he, Function.update_of_ne he]
          simp only [started, this]
      simp [State.initLocalBegin, State.withKernel, State.setCore, started, List.range_succ] at hcores ⊢
      exact hcores
    simp [Lib.run_cons, h1, h2]

end Dmos.Proofs.Boot
