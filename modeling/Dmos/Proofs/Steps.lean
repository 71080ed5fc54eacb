import Dmos.Smp

namespace Dmos.Proofs.Steps
open Smp

/-- Everything a step of the machine can do, with the guard under which the
code does it. Invariants are proved by cases on this, not on the code. -/
inductive Did (smp : Nat) (s : State) : Event → State → Prop where
  | stay (e : Event) (hi : State.installed smp s e = none) : Did smp s e s
  | adopt (c : Nat) (hc : c < smp) (hp : (s.core c).pc = .boot) (hl : s.printLock = none) :
      Did smp s (.advance c) { s.setCore c { s.core c with pc := .adopted, current := some c } with
        printLock := some c }
  | finish (c : Nat) (hc : c < smp) (hp : (s.core c).pc = .adopted) (hm : c < maxTasks) :
      Did smp s (.advance c) { (s.setCore c { s.core c with pc := .user }).withKernel
        (s.kernel.setState c .running) with printLock := none }
  | save (c t cpu : Nat) (frame : TrapFrame) (hc : c < smp) (hp : s.canTrap c frame = true)
      (ht : (s.core c).current = some t) (hcpu : (s.kernel.taskList t).cpuInfo = some cpu) :
      Did smp s (.irq c frame) ((s.withKernel (s.kernel.setCtx cpu frame)).setCore c
        { s.core c with pc := .trapped, frame := frame })
  | tick (c t : Nat) (hc : c < smp) (hp : (s.core c).pc = .trapped)
      (ht : (s.core c).current = some t) :
      Did smp s (.advance c) ((s.withKernel (s.kernel.decCounter t)).setCore c
        { s.core c with pc := .ticked t })
  | goOn (c t : Nat) (hc : c < smp) (hp : (s.core c).pc = .ticked t)
      (hn : 0 < (s.kernel.taskList t).counter) :
      Did smp s (.advance c) (s.setCore c { s.core c with pc := .user })
  | renew (c t : Nat) (hc : c < smp) (hp : (s.core c).pc = .ticked t)
      (hn : (s.kernel.taskList t).counter = 0) (hq : s.kernel.taskCount = smp) :
      Did smp s (.advance c) ((s.withKernel (s.kernel.setCounter t sysTaskTick)).setCore c
        { s.core c with pc := .user })
  | enter (c t : Nat) (hc : c < smp) (hp : (s.core c).pc = .ticked t)
      (hn : (s.kernel.taskList t).counter = 0) (hq : s.kernel.taskCount ≠ smp) :
      Did smp s (.advance c) ((s.withKernel (s.kernel.setCounter t sysTaskTick)).setCore c
        { s.core c with pc := .entered t })
  /-- The scan ran out of candidates; `next` is the last one, or `-1`. -/
  | miss (c t next : Nat) (hc : c < smp) (hp : (s.core c).pc = .entered t)
      (hs : s.kernel.scan (s.kernel.taskList t).id = (next, false)) :
      Did smp s (.advance c) (s.setCore c { s.core c with
        pc := if next = 2 ^ 32 - 1 then .user else .picked t next })
  | pick (c t next : Nat) (hc : c < smp) (hp : (s.core c).pc = .entered t)
      (hs : s.kernel.scan (s.kernel.taskList t).id = (next, true))
      (hm : (s.kernel.taskList t).id < maxTasks) :
      Did smp s (.advance c)
        ((s.withKernel ((s.kernel.setState (s.kernel.taskList t).id .waiting).setState next
          .running)).setCore c { s.core c with
            pc := if next = 2 ^ 32 - 1 then .user else .picked t next, current := some next })
  | install (c prev t : Nat) (f : TrapFrame) (hc : c < smp) (hp : (s.core c).pc = .picked prev t)
      (hf : s.kernel.switchContextEl t = some f)
      (hi : State.installed smp s (.advance c) = some (c, t, f)) :
      Did smp s (.advance c)
        (s.setCore c { s.core c with pc := .user, frame := f, looping := false })

/-- The inversion of the step function. -/
theorem step_cases {smp : Nat} {s s' : State} {e : Event} (h : State.step smp s e = some s') :
    Did smp s e s' := by
  cases e with
  | irq c frame =>
    simp only [State.step, State.irq] at h
    split at h
    · rename_i hc
      split at h
      · rename_i hcan
        simp only [Option.bind_eq_bind, Option.bind_eq_some_iff, Option.some.injEq,
          Kernel.saveCpuCtx, Option.map_eq_some_iff] at h
        obtain ⟨t, ht, _, ⟨cpu, hcpu, rfl⟩, rfl⟩ := h
        exact .save c t cpu frame hc hcan ht hcpu
      · cases h; exact .stay _ rfl
    · cases h; exact .stay _ rfl
  | advance c =>
    simp only [State.step] at h
    split at h
    case isFalse hc =>
      cases h
      refine .stay _ ?_
      simp only [State.installed]
      split <;> simp [hc]
    rename_i hc
    unfold State.advance at h
    cases hp : (s.core c).pc with
    | boot =>
      simp only [hp, State.initLocalBegin, Option.some.injEq] at h
      subst h
      split
      · exact .stay _ (by simp [State.installed, hp])
      · exact .adopt c hc hp (by assumption)
    | adopted =>
      simp only [hp, State.initLocalEnd] at h
      split at h
      · rename_i hm; cases h; exact .finish c hc hp hm
      · cases h
    | user =>
      simp only [hp, Option.some.injEq] at h
      subst h
      exact .stay _ (by simp [State.installed, hp])
    | trapped =>
      simp only [hp, Option.map_eq_some_iff] at h
      obtain ⟨t, ht, rfl⟩ := h
      exact .tick c t hc hp ht
    | ticked t =>
      simp only [hp, Option.some.injEq, State.tickTest] at h
      subst h
      split
      · rename_i hn; exact .goOn c t hc hp hn
      · rename_i hn
        split
        · rename_i hq; exact .renew c t hc hp (by omega) hq
        · rename_i hq; exact .enter c t hc hp (by omega) hq
    | entered t =>
      simp only [hp, State.pick, Kernel.criticalSection, Option.map_eq_some_iff] at h
      obtain ⟨⟨k, stored, next⟩, hk, rfl⟩ := h
      split at hk
      · rename_i hs; cases hk; exact .miss c t next hc hp hs
      · rename_i hs
        split at hk
        · rename_i hm; cases hk; exact .pick c t next hc hp hs hm
        · cases hk
    | picked prev t =>
      simp only [hp, State.install, Option.map_eq_some_iff] at h
      obtain ⟨f, hf, rfl⟩ := h
      exact .install c prev t f hc hp hf (by simp [State.installed, hp, hc, hf])

theorem canTrap_user {s : State} {c : Nat} {frame : TrapFrame} (h : s.canTrap c frame = true) :
    (s.core c).pc = .user := by
  simp only [State.canTrap, Bool.and_eq_true, decide_eq_true_eq] at h
  exact h.1

theorem installed_cases {smp : Nat} {s : State} {e : Event} {c t : Nat} {f : TrapFrame}
    (h : State.installed smp s e = some (c, t, f)) :
    e = .advance c ∧ c < smp ∧ (∃ p, (s.core c).pc = .picked p t) ∧
      s.kernel.switchContextEl t = some f := by
  cases e with
  | irq d frame => simp [State.installed] at h
  | advance d =>
    simp only [State.installed] at h
    split at h
    case h_2 => simp at h
    rename_i prev next hp
    split at h
    case isFalse => simp at h
    rename_i hd
    simp only [Option.map_eq_some_iff, Prod.mk.injEq] at h
    obtain ⟨g, hg, rfl, rfl, rfl⟩ := h
    exact ⟨rfl, hd, ⟨prev, hp⟩, hg⟩

/-- The scheduler creates and destroys no task. -/
theorem step_taskCount {smp : Nat} {s s' : State} {e : Event} (h : State.step smp s e = some s') :
    s'.kernel.taskCount = s.kernel.taskCount := by
  cases step_cases h <;> rfl

end Dmos.Proofs.Steps
