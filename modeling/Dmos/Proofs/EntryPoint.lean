import Dmos.Proofs.Handoff

namespace Dmos.Proofs.EntryPoint
open Smp Scan Boot Steps Exclusion Handoff

variable {smp t : Nat} {s s' : State} {e : Event} {tasks : List (Word × Word)}

/-- The frame starts the task at its entry point on its own stack at EL0. -/
def StartsAt (f : TrapFrame) (p : Word × Word) : Prop :=
  f.elr = p.1 ∧ f.usp = p.2 ∧ f.spsr = spsrEl1User

instance (f : TrapFrame) (p : Word × Word) : Decidable (StartsAt f p) :=
  inferInstanceAs (Decidable (_ ∧ _ ∧ _))

/-- `_schedule` installs the task on core `c`, which has the frame `f` after the step. -/
structure Installs (smp t : Nat) (s : State) (e : Event) (c : Nat) (f : TrapFrame) : Prop where
  event : e = .advance c
  core : c < smp
  picked : ∃ p, (s.core c).pc = .picked p t
  frame : ∃ s', State.step smp s e = some s' ∧ (s'.core c).frame = f

/-- The run from the barrier on is in front of its first install of the task. -/
structure FirstInstall (smp : Nat) (tasks : List (Word × Word)) (t : Nat) (es : List Event)
    (s : State) (c : Nat) (f : TrapFrame) : Prop where
  run : Lib.run (State.step smp) (handoff tasks) es = some s
  fresh : Lib.Along (State.step smp) (fun s e => ∀ c f, ¬ Installs smp t s e c f) (handoff tasks) es
  installs : Installs smp t s (.advance c) c f

/-- What `save_cpu_ctx` stores in the context of the task, if the event is an interrupt of a
core that has the task as its `current_thread`. -/
def saved (smp t : Nat) (s : State) : Event → Option TrapFrame
  | .irq c frame =>
    if c < smp ∧ s.canTrap c frame = true ∧ (s.core c).current = some t then some frame else none
  | .advance _ => none

/-- What was stored in it on a run from the barrier on. -/
def saves (smp : Nat) (tasks : List (Word × Word)) (t : Nat) (es : List Event) : List TrapFrame :=
  Lib.outputs (State.step smp) (saved smp t) (handoff tasks) es

/-- The event is no interrupt of the wait loop of `main_entry` on a core that has the task as
its `current_thread`. -/
def Spared (smp t : Nat) (s : State) (e : Event) : Prop :=
  ∀ c frame, e = .irq c frame → c < smp → s.canTrap c frame = true →
    (s.core c).looping = true → (s.core c).current ≠ some t

theorem initialContext_startsAt (p : Word × Word) : StartsAt (initialContext p.1 p.2) p := by
  refine ⟨?_, ?_, ?_⟩ <;>
    simp [initialContext, TrapFrame.elr, TrapFrame.usp, TrapFrame.spsr, TrapFrame.setElr,
      TrapFrame.setUsp, TrapFrame.setSpsr]

/-- A frame of the wait loop is one of EL1h. -/
theorem waitLoop_not_startsAt {c : Nat} {frame : TrapFrame} (h : s.canTrap c frame = true)
    (hl : (s.core c).looping = true) (p : Word × Word) : ¬ StartsAt frame p := by
  rintro ⟨-, -, he⟩
  simp only [State.canTrap, hl, he, Bool.and_eq_true, Bool.not_true, Bool.false_or] at h
  exact absurd h.2 (by decide)

/-! ### The context of a task -/

/-- Only created tasks have a context, each its own. -/
def Owns (k : Kernel) : Prop :=
  ∀ u v, (k.taskList u).cpuInfo = some v → u = v ∧ u < k.taskCount

theorem Owns.createTask {k : Kernel} (h : Owns k) (f st : Word) : Owns (k.createTask f st) := by
  by_cases hfull : maxTasks ≤ k.taskCount
  · rw [createTask_full hfull]
    exact h
  intro u v hu
  rw [createTask_taskList hfull] at hu
  rw [createTask_taskCount hfull]
  split at hu
  · rename_i he
    exact ⟨Option.some.inj hu, by omega⟩
  · obtain ⟨huv, hlt⟩ := h u v hu
    exact ⟨huv, by omega⟩

theorem handoff_owns (tasks : List (Word × Word)) : Owns (handoff tasks).kernel := by
  have hbss : Owns (Kernel.bss.scheduleInit) := fun u v hu => by cases hu
  have hall : ∀ (l : List (Word × Word)) k, Owns k → Owns (k.createTasks l) := by
    intro l
    induction l with
    | nil => exact fun k h => h
    | cons p l ih => exact fun k h => ih _ (h.createTask p.1 p.2)
  exact hall tasks _ hbss

theorem step_cpuInfo (hs : State.step smp s e = some s') (u : Nat) :
    (s'.kernel.taskList u).cpuInfo = (s.kernel.taskList u).cpuInfo := by
  cases step_cases hs <;> simp [Kernel.decCounter]

theorem Owns.step (h : Owns s.kernel) (hs : State.step smp s e = some s') : Owns s'.kernel := by
  intro u v hu
  rw [step_cpuInfo hs] at hu
  rw [step_taskCount hs]
  exact h u v hu

/-- Nothing but `save_cpu_ctx` writes to a context. -/
theorem step_ctx (h : Owns s.kernel) (hs : State.step smp s e = some s') (t : Nat) :
    (s'.kernel.cpuDec t).ctx = (saved smp t s e).getD (s.kernel.cpuDec t).ctx := by
  cases e with
  | advance c => cases step_cases hs <;> simp [saved, Kernel.decCounter]
  | irq c frame =>
    simp only [State.step, State.irq] at hs
    split at hs
    case isFalse hc =>
      cases hs
      simp [saved, hc]
    rename_i hc
    split at hs
    case isFalse hcan =>
      cases hs
      simp [saved, hcan]
    rename_i hcan
    simp only [Option.bind_eq_bind, Option.bind_eq_some_iff, Option.some.injEq,
      Kernel.saveCpuCtx, Option.map_eq_some_iff] at hs
    obtain ⟨u, hu, _, ⟨v, hv, rfl⟩, rfl⟩ := hs
    obtain ⟨rfl, -⟩ := h u v hv
    by_cases htu : t = u
    · simp [saved, hc, hcan, hu, htu]
    · simp [saved, hu, htu, Ne.symm htu]

theorem run_ctx (es : List Event) (h : Owns s.kernel)
    (hrun : Lib.run (State.step smp) s es = some s') (t : Nat) :
    Owns s'.kernel ∧ (s'.kernel.cpuDec t).ctx =
      (Lib.outputs (State.step smp) (saved smp t) s es).getLast?.getD (s.kernel.cpuDec t).ctx := by
  induction es generalizing s with
  | nil =>
    cases hrun
    exact ⟨h, rfl⟩
  | cons e es ih =>
    obtain ⟨u, hu, hrun⟩ := Option.bind_eq_some_iff.mp hrun
    obtain ⟨ho, hctx⟩ := ih (h.step hu) hrun
    refine ⟨ho, ?_⟩
    rw [hctx, step_ctx h hu, Lib.outputs, hu]
    cases saved smp t s e with
    | none => rfl
    | some g => simp [List.getLast?_cons]

/-- The frame of an install is the saved context of the task, which has been created. -/
theorem Installs.frame_eq (h : Owns s.kernel) {c : Nat} {f : TrapFrame}
    (hi : Installs smp t s e c f) : f = (s.kernel.cpuDec t).ctx ∧ t < s.kernel.taskCount := by
  obtain ⟨rfl, hc, ⟨p, hp⟩, s', hs, rfl⟩ := hi
  simp only [State.step, hc, ↓reduceIte, State.advance, hp, State.install, Kernel.switchContextEl,
    Option.map_eq_some_iff] at hs
  obtain ⟨_, ⟨v, hv, rfl⟩, rfl⟩ := hs
  obtain ⟨rfl, hlt⟩ := h t v hv
  exact ⟨by simp, hlt⟩

/-- The first frame is the last one that was saved, or else the one of `create_task`. -/
theorem FirstInstall.frame_eq {es : List Event} {c : Nat} {f : TrapFrame} (ht : t < tasks.length)
    (h : FirstInstall smp tasks t es s c f) :
    f = (saves smp tasks t es).getLast?.getD (initialContext (tasks[t]).1 (tasks[t]).2) := by
  obtain ⟨ho, hctx⟩ := run_ctx es (handoff_owns tasks) h.run t
  obtain ⟨hf, hlt⟩ := h.installs.frame_eq ho
  have hcount : s.kernel.taskCount = (handoff tasks).kernel.taskCount :=
    Lib.run_always (I := fun s => s.kernel.taskCount = (handoff tasks).kernel.taskCount)
      (fun s e s' hi hs => (step_taskCount hs).trans hi) es _ s rfl h.run
  rw [hf, hctx, (handoff_listed tasks).context t ht (by omega)]
  rfl

/-! ### Who saves before the first install -/

/-- A condition on every core, when one core changes. -/
theorem forall_core {P : Core → Prop} (h : ∀ d < smp, P (s.core d)) {k : Kernel} {c : Nat}
    {x : Core} (hx : P x) : ∀ d < smp, P (((s.withKernel k).setCore c x).core d) := by
  intro d hd
  rw [setCore_core, withKernel_core]
  split
  · exact hx
  · exact h d hd

/-- A core that has the task before anybody ran it: it is still in the wait loop under which
it adopted the task, at a place where `Q` holds, or about to install it. -/
def Holds (Q : Pc → Prop) (t : Nat) (x : Core) : Prop :=
  (x.pc = .boot → x.looping = true) ∧
    (x.current = some t → (x.looping = true ∧ Q x.pc) ∨ ∃ p, x.pc = .picked p t)

theorem handoff_holds (Q : Pc → Prop) (tasks : List (Word × Word)) :
    ∀ c < smp, Holds Q t ((handoff tasks).core c) := by
  intro c _
  exact ⟨fun _ => rfl, fun h => by cases h⟩

/-- A core that is at a place where it does not hold the task keeps off it. -/
theorem Holds.ne {Q : Pc → Prop} {x : Core} (h : Holds Q t x) (hQ : ¬ Q x.pc)
    (hp : ∀ p, x.pc ≠ .picked p t) : x.current ≠ some t := by
  intro hcur
  rcases h.2 hcur with ⟨-, hq⟩ | ⟨p, hq⟩
  · exact hQ hq
  · exact hp p hq

/-- The places of a core that was not interrupted. -/
def Quiet (p : Pc) : Prop := p = .adopted ∨ p = .user

/-- A core that installs another task than `t` is not at its install. -/
theorem installs_ne {c prev u : Nat} (hn : ∀ c f, ¬ Installs smp t s e c f)
    (hc : c < smp) (hp : (s.core c).pc = .picked prev u) (he : e = .advance c)
    (hs : State.step smp s e = some s') : u ≠ t := by
  rintro rfl
  exact hn c (s'.core c).frame ⟨he, hc, ⟨prev, hp⟩, s', hs, rfl⟩

/-- After the critical section the core is at the install of the task it recorded. -/
theorem Holds.picked {Q : Pc → Prop} {u next : Nat} (x : Core) (hnext : next ≠ 2 ^ 32 - 1) :
    Holds Q t { x with
      pc := if next = 2 ^ 32 - 1 then .user else .picked u next, current := some next } := by
  rw [if_neg hnext]
  refine ⟨nofun, fun hcur => .inr ⟨u, ?_⟩⟩
  rw [← Option.some.inj hcur]

/-- As long as nobody interrupts the wait loop under the task, a core that holds it is not in
the handler. -/
theorem holds_quiet_step (hb : s.kernel.taskCount ≤ maxTasks)
    (h : ∀ c < smp, Holds Quiet t (s.core c))
    (hn : ∀ c f, ¬ Installs smp t s e c f) (hsp : Spared smp t s e)
    (hs : State.step smp s e = some s') : ∀ c < smp, Holds Quiet t (s'.core c) := by
  cases step_cases hs with
  | stay => exact h
  | adopt c hc hp _ =>
    exact forall_core (k := s.kernel) h ⟨nofun, fun _ => .inl ⟨(h c hc).1 hp, .inl rfl⟩⟩
  | finish c hc hp _ =>
    refine forall_core (k := s.kernel) h ⟨nofun, fun hcur => .inl ⟨?_, .inr rfl⟩⟩
    rcases (h c hc).2 hcur with ⟨hl, -⟩ | ⟨p, hq⟩
    · exact hl
    · simp [hp] at hq
  | save c u v frame hc hp hu hv =>
    have hpc := canTrap_user hp
    refine forall_core h ⟨nofun, fun hcur => ?_⟩
    rcases (h c hc).2 hcur with ⟨hl, -⟩ | ⟨p, hq⟩
    · exact absurd hcur (hsp c frame rfl hc hp hl)
    · simp [hpc] at hq
  | tick c u hc hp _ | renew c u hc hp _ _ | enter c u hc hp _ _ =>
    have hne := (h c hc).ne (by simp [hp, Quiet]) (by simp [hp])
    exact forall_core h ⟨by simp, fun hcur => absurd hcur hne⟩
  | goOn c u hc hp _ =>
    have hne := (h c hc).ne (by simp [hp, Quiet]) (by simp [hp])
    exact forall_core (k := s.kernel) h ⟨by simp, fun hcur => absurd hcur hne⟩
  | miss c u next hc hp _ =>
    have hne := (h c hc).ne (by simp [hp, Quiet]) (by simp [hp])
    refine forall_core (k := s.kernel) h ⟨?_, fun hcur => absurd hcur hne⟩
    dsimp only
    split <;> simp
  | pick c u next hc hp hscan _ =>
    exact forall_core h (Holds.picked _ (scan_ne_sentinel hb hscan))
  | install c prev u f hc hp hf _ =>
    have hut := installs_ne hn hc hp rfl hs
    refine forall_core (k := s.kernel) h ⟨nofun, fun hcur => ?_⟩
    exact absurd hcur ((h c hc).ne (by simp [hp, Quiet]) (by simp [hp, hut]))

/-- With a task for every core only the wait loop is ever interrupted under the task. -/
theorem holds_looping_step (hi : Inv (fun _ => False) smp s)
    (h : ∀ c < smp, Holds (fun _ => True) t (s.core c))
    (hn : ∀ c f, ¬ Installs smp t s e c f)
    (hs : State.step smp s e = some s') : ∀ c < smp, Holds (fun _ => True) t (s'.core c) := by
  have hloop : ∀ c < smp, (∀ p, (s.core c).pc ≠ .picked p t) → (s.core c).current = some t →
      (s.core c).looping = true := by
    intro c hc hp hcur
    rcases (h c hc).2 hcur with ⟨hl, -⟩ | ⟨p, hq⟩
    · exact hl
    · exact absurd hq (hp p)
  cases step_cases hs with
  | stay => exact h
  | adopt c hc hp _ =>
    exact forall_core (k := s.kernel) h ⟨nofun, fun _ => .inl ⟨(h c hc).1 hp, trivial⟩⟩
  | finish c hc hp _ =>
    exact forall_core (k := s.kernel) h
      ⟨nofun, fun hcur => .inl ⟨hloop c hc (by simp [hp]) hcur, trivial⟩⟩
  | save c u v frame hc hp hu hv =>
    have hpc := canTrap_user hp
    exact forall_core h ⟨nofun, fun hcur => .inl ⟨hloop c hc (by simp [hpc]) hcur, trivial⟩⟩
  | tick c u hc hp _ | renew c u hc hp _ _ | enter c u hc hp _ _ =>
    exact forall_core h ⟨nofun, fun hcur => .inl ⟨hloop c hc (by simp [hp]) hcur, trivial⟩⟩
  | goOn c u hc hp _ =>
    exact forall_core (k := s.kernel) h
      ⟨nofun, fun hcur => .inl ⟨hloop c hc (by simp [hp]) hcur, trivial⟩⟩
  | miss c u next hc hp hscan =>
    obtain ⟨n, _, _, hfound⟩ := hi.scan_finds hc hp
    simp [hscan] at hfound
  | pick c u next hc hp hscan _ =>
    exact forall_core h (Holds.picked _ (scan_ne_sentinel hi.bounded hscan))
  | install c prev u f hc hp hf _ =>
    have hut := installs_ne hn hc hp rfl hs
    have hcur := (hi.task_of_picked hc hp).1
    exact forall_core (k := s.kernel) h ⟨nofun, fun ht => absurd (hcur.symm.trans ht) (by simpa)⟩

theorem saved_some {g : TrapFrame} (h : saved smp t s e = some g) :
    ∃ c, e = .irq c g ∧ c < smp ∧ s.canTrap c g = true ∧ (s.core c).current = some t := by
  cases e with
  | advance c => cases h
  | irq c frame =>
    simp only [saved, Option.ite_none_right_eq_some, Option.some.injEq] at h
    obtain ⟨⟨hc, hcan, hcur⟩, rfl⟩ := h
    exact ⟨c, rfl, hc, hcan, hcur⟩

section Runs

variable {es : List Event} {c : Nat} {f : TrapFrame}

/-- If the wait loop is never interrupted under the task, nothing is saved for it. -/
theorem FirstInstall.saves_nil (h : FirstInstall smp tasks t es s c f)
    (hsp : Lib.Along (State.step smp) (Spared smp t) (handoff tasks) es) :
    saves smp tasks t es = [] := by
  refine List.eq_nil_iff_forall_not_mem.mpr (Lib.outputs_forall (G := fun _ => False)
    (I := fun s => s.kernel.taskCount ≤ maxTasks ∧ ∀ c < smp, Holds Quiet t (s.core c))
    ?_ ?_ es _ ⟨(handoff_listed tasks).bounded, handoff_holds Quiet tasks⟩ (h.fresh.and hsp))
  · rintro s e g ⟨-, hh⟩ ⟨-, hsp⟩ hg
    obtain ⟨c, rfl, hc, hcan, hcur⟩ := saved_some hg
    rcases (hh c hc).2 hcur with ⟨hl, -⟩ | ⟨p, hq⟩
    · exact hsp c g rfl hc hcan hl hcur
    · simp [canTrap_user hcan] at hq
  · rintro s e s' ⟨hb, hh⟩ ⟨hn, hsp⟩ hs
    exact ⟨step_taskCount hs ▸ hb, holds_quiet_step hb hh hn hsp hs⟩

theorem spared_of_saves_nil (h : saves smp tasks t es = []) :
    Lib.Along (State.step smp) (Spared smp t) (handoff tasks) es := by
  have hnone := Lib.along_of_outputs_nil es _ h
  rw [Lib.along_iff] at hnone ⊢
  rintro pre e post u heq hu c frame rfl hc hcan - hcur
  have := hnone pre _ post u heq hu
  simp [saved, hc, hcan, hcur] at this

/-- With a task for every core everything saved is a frame of the wait loop. -/
theorem FirstInstall.saves_waitLoop (h : FirstInstall smp tasks t es s c f)
    (hfit : smp ≤ (handoff tasks).kernel.taskCount) (p : Word × Word) :
    ∀ g ∈ saves smp tasks t es, ¬ StartsAt g p := by
  refine Lib.outputs_forall (G := fun g => ¬ StartsAt g p)
    (I := fun s => Inv (fun _ => False) smp s ∧ ∀ c < smp, Holds (fun _ => True) t (s.core c))
    ?_ ?_ es _ ⟨handoff_inv _ hfit, handoff_holds _ tasks⟩ h.fresh
  · rintro s e g ⟨-, hh⟩ - hg
    obtain ⟨c, rfl, hc, hcan, hcur⟩ := saved_some hg
    rcases (hh c hc).2 hcur with ⟨hl, -⟩ | ⟨q, hq⟩
    · exact waitLoop_not_startsAt hcan hl p
    · simp [canTrap_user hcan] at hq
  · rintro s e s' ⟨hi, hh⟩ hn hs
    have hu : Undisturbed (fun _ => False) smp s e := fun _ _ _ _ _ _ _ hX => hX.elim
    exact ⟨hi.preserved (step_cases hs) hu, holds_looping_step hi hh hn hs⟩

end Runs

/-- When a task first comes on a core, in any run from the barrier of `main_entry` on and for
any number of cores, it starts at its entry point if no core interrupted its wait loop with the
task as its `current_thread`, and with a task for every core only then. In general the last
context saved for the task decides. -/
theorem first_install_starts_iff (smp : Nat) (tasks : List (Word × Word)) (t : Nat)
    (ht : t < tasks.length) (es : List Event) (s : State) (c : Nat) (f : TrapFrame)
    (h : FirstInstall smp tasks t es s c f) :
    (Lib.Along (State.step smp) (Spared smp t) (handoff tasks) es → StartsAt f tasks[t]) ∧
    (smp ≤ (handoff tasks).kernel.taskCount →
      (StartsAt f tasks[t] ↔ Lib.Along (State.step smp) (Spared smp t) (handoff tasks) es)) ∧
    (StartsAt f tasks[t] ↔ ∀ g ∈ (saves smp tasks t es).getLast?, StartsAt g tasks[t]) := by
  have hf := h.frame_eq ht
  have hlast : StartsAt f tasks[t] ↔ ∀ g ∈ (saves smp tasks t es).getLast?, StartsAt g tasks[t] := by
    rw [hf]
    cases (saves smp tasks t es).getLast? with
    | none => simp [initialContext_startsAt]
    | some g => simp
  have hspared : Lib.Along (State.step smp) (Spared smp t) (handoff tasks) es →
      StartsAt f tasks[t] := by
    intro hsp
    rw [hlast, h.saves_nil hsp]
    nofun
  refine ⟨hspared, fun hfit => ⟨fun hstart => ?_, hspared⟩, hlast⟩
  apply spared_of_saves_nil
  by_contra hne
  have hmem := List.getLast_mem hne
  rw [hlast, List.getLast?_eq_some_getLast hne] at hstart
  exact h.saves_waitLoop hfit tasks[t] _ hmem (hstart _ rfl)

/-- The event is not the install of the task, as a test. -/
def others (t : Nat) (s : State) : Event → Bool
  | .advance c => match (s.core c).pc with
    | .picked _ n => n != t
    | _ => true
  | .irq _ _ => true

theorem not_installs_of_others (h : others t s e = true) (c : Nat) (f : TrapFrame) :
    ¬ Installs smp t s e c f := by
  rintro ⟨rfl, -, ⟨p, hp⟩, -⟩
  simp [others, hp] at h

/-- A run that stops in front of an install, by computation. -/
theorem FirstInstall.of_run {es : List Event} {c p : Nat}
    (hrun : Lib.run (State.step smp) (handoff tasks) es = some s)
    (ho : Lib.alongB (State.step smp) (others t) (handoff tasks) es = true) (hc : c < smp)
    (hp : (s.core c).pc = .picked p t) (hcpu : (s.kernel.taskList t).cpuInfo = some t) :
    FirstInstall smp tasks t es s c (s.kernel.cpuDec t).ctx where
  run := hrun
  fresh := Lib.Along.of_alongB (fun _ _ => not_installs_of_others) es _ ho
  installs := ⟨rfl, hc, ⟨p, hp⟩, by
    simp [State.step, hc, State.advance, hp, State.install, Kernel.switchContextEl, hcpu]⟩

/-- Core 0 uses up a slice before core 1 adopts task 1, so task 1 comes on core 0 first and
starts at its entry point. -/
theorem first_install_starts_iff_main :
    ∃ s f, FirstInstall 2 threeTasks 1 (initEvents 1 ++ sliceOn 0 waitFrame) s 0 f ∧
      StartsAt f (0x90000000, 0x90004000) := by
  have hval : (Lib.run (State.step 2) (handoff threeTasks) (initEvents 1 ++ sliceOn 0 waitFrame)).map
      (fun s => ((s.core 0).pc, (s.kernel.taskList 1).cpuInfo)) = some (.picked 0 1, some 1) := by
    decide +kernel
  obtain ⟨s, hrun, hs⟩ := Option.map_eq_some_iff.mp hval
  obtain ⟨hp, hcpu⟩ := Prod.mk.inj hs
  have hfirst := FirstInstall.of_run (t := 1) hrun (by decide +kernel) (by decide) hp hcpu
  have hcheck : ∀ s e, ((s.core e.core).current != some 1) = true → Spared 2 1 s e := by
    rintro s e h c frame rfl - - - hcur
    simp [Event.core, hcur] at h
  have hspared : Lib.Along (State.step 2) (Spared 2 1) (handoff threeTasks)
      (initEvents 1 ++ sliceOn 0 waitFrame) :=
    Lib.Along.of_alongB hcheck _ _ (by decide +kernel)
  exact ⟨s, _, hfirst, (first_install_starts_iff 2 threeTasks 1 (by decide) _ s 0 _ hfirst).1 hspared⟩

/-- One core and the tasks of `main_entry`: when task 0 is first installed, two slices after
boot, it is sent back to the wait loop and not to `0x80000000`. -/
theorem first_task_never_starts :
    ∃ s, FirstInstall 1 mainTasks 0
        (initEvents 1 ++ sliceOn 0 waitFrame ++ [.advance 0] ++ sliceOn 0 waitFrame) s 0 waitFrame ∧
      ¬ StartsAt waitFrame (0x80000000, 0x80004000) := by
  have hval : (Lib.run (State.step 1) (handoff mainTasks)
        (initEvents 1 ++ sliceOn 0 waitFrame ++ [.advance 0] ++ sliceOn 0 waitFrame)).map
      (fun s => ((s.core 0).pc, (s.kernel.taskList 0).cpuInfo, (s.kernel.cpuDec 0).ctx)) =
      some (.picked 1 0, some 0, waitFrame) := by
    decide +kernel
  obtain ⟨s, hrun, hs⟩ := Option.map_eq_some_iff.mp hval
  simp only [Prod.mk.injEq] at hs
  obtain ⟨hp, hcpu, hctx⟩ := hs
  have hfirst := FirstInstall.of_run (t := 0) hrun (by decide +kernel) (by decide) hp hcpu
  exact ⟨s, hctx ▸ hfirst, by decide⟩

end Dmos.Proofs.EntryPoint
